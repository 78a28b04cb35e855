import CcTools.Counters
import CcTools.Gapless
import CcTools.Reassembly

/-!
# When a reassembly starts over

That no message has begun is read off `totalSize = 0`, a value that comes from a packet. A message whose
total is zero therefore begins anew with every well-formed packet; `never_restarted_iff` says which of
these packets make a difference, wherever memory runs out.
-/

namespace CcTools
open Runs NetUnpacker

namespace NetUnpacker
variable {host : Endian} {s : NetUnpacker} {c : Call × Memory} {A : List Call} {calls : List (Call × Memory)}

/-- The calls of a run that return normally. -/
def acceptedCallsIn (host : Endian) : NetUnpacker → List (Call × Memory) → List Call
  | _, [] => []
  | s, c :: calls =>
    accepted c.1 ((addPacket host c.1 c.2).run s) ++ acceptedCallsIn host (nextIn host s c) calls

/-- The call leaves the totals as they are and takes no index away. -/
structure Keeps (host : Endian) (s : NetUnpacker) (c : Call × Memory) : Prop where
  totalSize : (nextIn host s c).totalSize = s.totalSize
  totalPackages : (nextIn host s c).totalPackages = s.totalPackages
  receivedIndices : s.receivedIndices ⊆ (nextIn host s c).receivedIndices

structure NeverRestarted (host : Endian) (calls : List (Call × Memory)) : Prop where
  kept : ∀ pre c post, calls = pre ++ c :: post → acceptedCallsIn host fresh pre ≠ [] →
    Keeps host (run (nextIn host) fresh pre) c
  redelivered : ∀ pre c post, calls = pre ++ c :: post →
    (∃ c' ∈ acceptedCallsIn host fresh pre, c'.packet = c.1.packet) →
      nextIn host (run (nextIn host) fresh pre) c = run (nextIn host) fresh pre

/-- The packet of a message of size zero that changes nothing: it has no byte and names the same number of
fragments. -/
structure EmptyAgain (s : NetUnpacker) (h : NetPackageHeader) : Prop where
  size : h.totalPayloadSize = 0
  packages : h.totalPackageNum = s.totalPackages
  fits : Fits 0 h

/-- A packet taken for the first one leaves everything as it is: it brings the totals there are, and if `resize`
goes through, index 0 is put back. -/
structure Unchanging (s : NetUnpacker) (h : NetPackageHeader) (memory : Memory) : Prop where
  size : h.totalPayloadSize = 0
  packages : h.totalPackageNum = s.totalPackages
  putBack : memory.resize = true → Fits 0 h ∧ memory.insert = true

/-- An index was received, yet the next packet is taken for the first one. -/
structure Restarts (host : Endian) (s : NetUnpacker) (packet : ByteVector) (memory : Memory) : Prop where
  first : s.totalSize = 0
  received : s.receivedIndices.Nonempty
  wellFormed : WellFormed host packet
  differs : ¬ Unchanging s (headerOf host packet) memory

/-- What is known of the calls `A` accepted so far. -/
structure Begun (host : Endian) (A : List Call) (s : NetUnpacker) : Prop where
  wellFormed : ∀ c ∈ A, WellFormed host c.packet
  received : ∀ c ∈ A, indexOf host c ∈ s.receivedIndices
  fits : ∀ c ∈ A, Fits s.totalSize (headerOf host c.packet)
  empty : s.totalSize = 0 → ∀ c ∈ A, EmptyAgain s (headerOf host c.packet)

/-- What no call breaks, wherever memory runs out. -/
structure InvIn (s : NetUnpacker) : Prop extends Counted s where
  buffer_nil : s.totalSize = 0 → s.buffer = []

/-! ### One call -/

namespace InvIn

theorem fresh : InvIn fresh := ⟨.fresh, fun _ => rfl⟩

theorem opened (hi : InvIn s) (h : NetPackageHeader) : InvIn (opened s h) := by
  refine ⟨hi.toCounted.opened, fun hn => ?_⟩
  by_cases h0 : s.totalSize = 0
  · rw [opened_totalSize, if_pos h0] at hn
    simp [NetUnpacker.opened, h0, hn]
  · rw [opened_of_ne h0] at hn
    exact absurd hn h0

theorem nextIn (hi : InvIn s) (c : Call × Memory) : InvIn (nextIn host s c) := by
  refine ⟨hi.toCounted.nextIn c, ?_⟩
  refine nextIn_cases (P := fun s' => s'.totalSize = 0 → s'.buffer = []) fun r ho hn => ?_
  cases ho with
  | tooShort | badMark => exact hi.buffer_nil hn
  | refused _ hr => exact hi.buffer_nil hr.1
  | outOfRange | repeated | noNode => exact (hi.opened _).buffer_nil hn
  | stored =>
    refine List.eq_nil_of_length_eq_zero ((length_overlay ..).trans ?_)
    rw [(hi.opened _).buffer_nil hn]
    rfl

theorem run (calls : List (Call × Memory)) : InvIn (run (NetUnpacker.nextIn host) NetUnpacker.fresh calls) :=
  run_inv (fun _ hi c _ => hi.nextIn c) .fresh

end InvIn

theorem opened_of_first (h0 : s.totalSize = 0) (h : NetPackageHeader) :
    (opened s h).totalSize = h.totalPayloadSize ∧ (opened s h).totalPackages = h.totalPackageNum ∧
      (opened s h).receivedIndices = ∅ := by
  rw [opened_totalSize, opened_totalPackages, opened_receivedIndices, if_pos h0, if_pos h0, if_pos h0]
  exact ⟨rfl, rfl, rfl⟩

namespace EmptyAgain
variable {h : NetPackageHeader}

theorem index (he : EmptyAgain s h) : h.currentPackageNum = 0 := by
  have hfits := he.fits
  exact UInt32.toNat_inj.1 (by simp [Fits] at hfits ⊢; omega)

theorem length (he : EmptyAgain s h) : h.currentPayloadSize = 0 := by
  have hfits := he.fits
  exact UInt32.toNat_inj.1 (by simp [Fits] at hfits ⊢; omega)

theorem mem (he : EmptyAgain s h) (hi : InvIn s) (h0 : s.totalSize = 0) (hne : s.receivedIndices.Nonempty) :
    h.currentPackageNum ∈ s.receivedIndices := by
  obtain ⟨i, hmem⟩ := hne
  rwa [he.index, ← hi.eq_zero_of_mem h0 hmem]

/-- The totals are set to what they are, and index 0 is taken away and put back. -/
theorem stored_opened {c : Call} (he : EmptyAgain s h) (hi : InvIn s) (h0 : s.totalSize = 0)
    (hne : s.receivedIndices.Nonempty) : stored (opened s h) h c = s := by
  have hset : s.receivedIndices = {0} :=
    Finset.eq_singleton_iff_nonempty_unique_mem.2 ⟨hne, fun i hmem => hi.eq_zero_of_mem h0 hmem⟩
  have hcount := hi.count
  have hbuf := hi.buffer_nil h0
  have hnum := he.packages
  obtain ⟨totalSize, totalPackages, receivedCount, buffer, receivedIndices⟩ := s
  dsimp only at h0 hset hcount hbuf hnum
  subst h0 hset hbuf
  simp [stored, opened, he.size, hnum, he.index, he.length, hcount, overlay]

end EmptyAgain

theorem Unchanging.emptyAgain {h : NetPackageHeader} {memory : Memory} (hu : Unchanging s h memory)
    (h0 : s.totalSize = 0) (hr : ¬ RefusedIn s h memory) : EmptyAgain s h ∧ memory.insert = true := by
  obtain ⟨hfits, hm⟩ := hu.putBack ((not_refusedIn_iff.1 hr).2.resolve_left (not_not.2 h0))
  exact ⟨⟨hu.size, hu.packages, hfits⟩, hm⟩

/-- Such a call throws where `resize` does, or it is accepted; both leave the state as it is. -/
theorem Unchanging.outcome (hu : Unchanging s (headerOf host c.1.packet) c.2) (hi : InvIn s) (h0 : s.totalSize = 0)
    (hne : s.receivedIndices.Nonempty) (hw : WellFormed host c.1.packet) :
    nextIn host s c = s ∧ (accepted c.1 ((addPacket host c.1 c.2).run s) = [] ∨
      accepted c.1 ((addPacket host c.1 c.2).run s) = [c.1] ∧ EmptyAgain s (headerOf host c.1.packet)) := by
  obtain ⟨hsize, -, hcleared⟩ := opened_of_first h0 (headerOf host c.1.packet)
  have ho := addPacket_outcomeIn host s c.1 c.2
  unfold nextIn
  generalize (addPacket host c.1 c.2).run s = r at ho ⊢
  cases ho with
  | tooShort hlen => exact absurd hlen hw.not_tooShort
  | badMark hsof => exact absurd hw.sof hsof
  | refused =>
    refine ⟨?_, .inl rfl⟩
    rw [leftBy, hu.size, hu.packages, ← h0]
  | outOfRange _ hr hf =>
    rw [hsize, hu.size] at hf
    exact absurd (hu.emptyAgain h0 hr).1.fits hf
  | repeated _ _ _ hmem =>
    rw [hcleared] at hmem
    exact absurd hmem (Finset.notMem_empty _)
  | noNode _ hr _ _ hm =>
    rw [(hu.emptyAgain h0 hr).2] at hm
    cases hm
  | stored _ hr =>
    have he := (hu.emptyAgain h0 hr).1
    exact ⟨he.stored_opened hi h0 hne, .inr ⟨rfl, he⟩⟩

theorem nextIn_of_not_wellFormed (hw : ¬ WellFormed host c.1.packet) :
    accepted c.1 ((addPacket host c.1 c.2).run s) = [] ∧ nextIn host s c = s := by
  have ho := addPacket_outcomeIn host s c.1 c.2
  unfold nextIn
  generalize (addPacket host c.1 c.2).run s = r at ho ⊢
  cases ho with
  | tooShort | badMark => exact ⟨rfl, rfl⟩
  | refused hw' | outOfRange hw' | repeated hw' | noNode hw' | stored hw' => exact absurd hw' hw

theorem keeps_of_eq (h : nextIn host s c = s) : Keeps host s c :=
  ⟨congrArg totalSize h, congrArg totalPackages h, by rw [h]⟩

theorem keeps_of_ne (h0 : s.totalSize ≠ 0) : Keeps host s c := by
  have hopened := opened_of_ne (h := headerOf host c.1.packet) h0
  have hkeeps : (nextIn host s c).totalSize = s.totalSize ∧ (nextIn host s c).totalPackages = s.totalPackages ∧
      s.receivedIndices ⊆ (nextIn host s c).receivedIndices := by
    refine nextIn_cases (P := fun s' => s'.totalSize = s.totalSize ∧ s'.totalPackages = s.totalPackages ∧
      s.receivedIndices ⊆ s'.receivedIndices) fun r ho => ?_
    cases ho with
    | tooShort | badMark => exact ⟨rfl, rfl, Finset.Subset.refl _⟩
    | refused _ hr => exact absurd hr.1 h0
    | outOfRange | repeated | noNode => rw [hopened]; exact ⟨rfl, rfl, Finset.Subset.refl _⟩
    | stored => rw [hopened]; exact ⟨rfl, rfl, Finset.subset_insert _ _⟩
  exact ⟨hkeeps.1, hkeeps.2.1, hkeeps.2.2⟩

theorem nextIn_of_first (h0 : s.totalSize = 0) (hw : WellFormed host c.1.packet) :
    (nextIn host s c).totalSize = (headerOf host c.1.packet).totalPayloadSize ∧
      (nextIn host s c).totalPackages = (headerOf host c.1.packet).totalPackageNum := by
  obtain ⟨hsize, hnum, -⟩ := opened_of_first h0 (headerOf host c.1.packet)
  refine nextIn_cases (P := fun s' => s'.totalSize = (headerOf host c.1.packet).totalPayloadSize ∧
    s'.totalPackages = (headerOf host c.1.packet).totalPackageNum) fun r ho => ?_
  cases ho with
  | tooShort hlen => exact absurd hlen hw.not_tooShort
  | badMark hsof => exact absurd hw.sof hsof
  | refused => exact ⟨rfl, rfl⟩
  | outOfRange | repeated | noNode | stored => exact ⟨hsize, hnum⟩

/-- The indices are cleared and none is recorded. -/
theorem nextIn_cleared (h0 : s.totalSize = 0) (hw : WellFormed host c.1.packet)
    (hr : ¬ RefusedIn s (headerOf host c.1.packet) c.2)
    (hno : ¬ (Fits (headerOf host c.1.packet).totalPayloadSize (headerOf host c.1.packet) ∧ c.2.insert = true)) :
    (nextIn host s c).receivedIndices = ∅ := by
  obtain ⟨hsize, -, hcleared⟩ := opened_of_first h0 (headerOf host c.1.packet)
  refine nextIn_cases (P := fun s' => s'.receivedIndices = ∅) fun r ho => ?_
  cases ho with
  | tooShort hlen => exact absurd hlen hw.not_tooShort
  | badMark hsof => exact absurd hw.sof hsof
  | refused _ hr' => exact absurd hr' hr
  | outOfRange | repeated | noNode => exact hcleared
  | stored _ _ hf _ hm =>
    rw [hsize] at hf
    exact absurd ⟨hf, hm⟩ hno

/-- Once an index was received, only the packets that begin a reassembly anew do not keep it. -/
theorem keeps_iff (hi : InvIn s) (hne : s.receivedIndices.Nonempty) :
    Keeps host s c ↔ ¬ Restarts host s c.1.packet c.2 := by
  constructor
  · intro hk hr
    obtain ⟨hsize, hnum⟩ := nextIn_of_first hr.first hr.wellFormed
    rw [hk.totalSize, hr.first] at hsize
    rw [hk.totalPackages] at hnum
    refine hr.differs ⟨hsize.symm, hnum.symm, fun hm => by_contra fun hno => ?_⟩
    have hr' : ¬ RefusedIn s (headerOf host c.1.packet) c.2 :=
      not_refusedIn_iff.2 ⟨fun hr' => hr'.size_ne_zero hsize.symm, .inr hm⟩
    -- `resize` went through, so the indices were cleared, and the call throws before one is recorded
    have hcleared := nextIn_cleared hr.first hr.wellFormed hr' (by rwa [← hsize])
    have hsub := hk.receivedIndices
    rw [hcleared, Finset.subset_empty] at hsub
    exact hne.ne_empty hsub
  · intro hno
    by_cases h0 : s.totalSize = 0
    · by_cases hw : WellFormed host c.1.packet
      · have hu : Unchanging s (headerOf host c.1.packet) c.2 := by_contra fun hu => hno ⟨h0, hne, hw, hu⟩
        exact keeps_of_eq (hu.outcome hi h0 hne hw).1
      · exact keeps_of_eq (nextIn_of_not_wellFormed hw).2
    · exact keeps_of_ne h0

/-! ### The calls accepted so far -/

/-- A property of the accepted calls and the state that every step keeps. -/
theorem run_acceptedCallsIn {P : List Call → NetUnpacker → Prop} {C : NetUnpacker → Call × Memory → Prop}
    (hC : EveryStep (nextIn host) C s calls)
    (hstep : ∀ A s c, P A s → InvIn s → C s c → P (A ++ accepted c.1 ((addPacket host c.1 c.2).run s)) (nextIn host s c))
    (h : P A s) (hi : InvIn s) : P (A ++ acceptedCallsIn host s calls) (run (nextIn host) s calls) := by
  induction calls generalizing A s with
  | nil => rw [acceptedCallsIn, List.append_nil]; exact h
  | cons c calls ih =>
    rw [acceptedCallsIn, ← List.append_assoc]
    exact ih hC.2 (hstep A s c h hi hC.1) (hi.nextIn c)

namespace Begun

theorem nonempty {c : Call} (h : Begun host A s) (hc : c ∈ A) : s.receivedIndices.Nonempty := ⟨_, h.received c hc⟩

/-- A packet accepted before changes nothing. -/
theorem redelivered (h : Begun host A s) (hi : InvIn s) (hno : ¬ Restarts host s c.1.packet c.2) {c' : Call}
    (hc' : c' ∈ A) (heq : c'.packet = c.1.packet) : nextIn host s c = s := by
  have hw := h.wellFormed c' hc'
  have hmem := h.received c' hc'
  have hf := h.fits c' hc'
  rw [indexOf, heq] at hmem
  rw [heq] at hw hf
  by_cases h0 : s.totalSize = 0
  · have hne := h.nonempty hc'
    have hu : Unchanging s (headerOf host c.1.packet) c.2 := by_contra fun hu => hno ⟨h0, hne, hw, hu⟩
    exact (hu.outcome hi h0 hne hw).1
  · have hopened := opened_of_ne (h := headerOf host c.1.packet) h0
    refine nextIn_cases (P := fun s' => s' = s) fun r ho => ?_
    cases ho with
    | tooShort | badMark => rfl
    | refused _ hr => exact absurd hr.1 h0
    | outOfRange | repeated => exact hopened
    | noNode _ _ _ hi | stored _ _ _ hi =>
      rw [hopened] at hi
      exact absurd hmem hi

theorem nil (s : NetUnpacker) : Begun host [] s where
  wellFormed c hc := by simp at hc
  received c hc := by simp at hc
  fits c hc := by simp at hc
  empty _ c hc := by simp at hc

/-- One more call is accepted, which keeps the totals and takes no index away. -/
theorem append {s' : NetUnpacker} {c : Call} (h : Begun host A s) (hsize : s'.totalSize = s.totalSize)
    (hnum : s'.totalPackages = s.totalPackages) (hsub : s.receivedIndices ⊆ s'.receivedIndices)
    (hw : WellFormed host c.packet) (hmem : indexOf host c ∈ s'.receivedIndices)
    (hf : Fits s'.totalSize (headerOf host c.packet))
    (he : s'.totalSize = 0 → EmptyAgain s' (headerOf host c.packet)) : Begun host (A ++ [c]) s' := by
  have hfits : ∀ c ∈ A, Fits s'.totalSize (headerOf host c.packet) := by
    rw [hsize]
    exact h.fits
  have hempty : s'.totalSize = 0 → ∀ c ∈ A, EmptyAgain s' (headerOf host c.packet) := by
    intro h0 c' hc'
    have he' := h.empty (hsize ▸ h0) c' hc'
    exact ⟨he'.size, he'.packages.trans hnum.symm, he'.fits⟩
  exact {
    wellFormed := List.forall_mem_append.2 ⟨h.wellFormed, List.forall_mem_singleton.2 hw⟩
    received := List.forall_mem_append.2 ⟨fun c' hc' => hsub (h.received c' hc'), List.forall_mem_singleton.2 hmem⟩
    fits := List.forall_mem_append.2 ⟨hfits, List.forall_mem_singleton.2 hf⟩
    empty := fun h0 => List.forall_mem_append.2 ⟨hempty h0, List.forall_mem_singleton.2 (he h0)⟩ }

theorem step_of_ne (h : Begun host A s) (h0 : s.totalSize ≠ 0) :
    Begun host (A ++ accepted c.1 ((addPacket host c.1 c.2).run s)) (nextIn host s c) := by
  have hopened := opened_of_ne (h := headerOf host c.1.packet) h0
  have ho := addPacket_outcomeIn host s c.1 c.2
  unfold nextIn
  generalize (addPacket host c.1 c.2).run s = r at ho ⊢
  cases ho with
  | tooShort | badMark => rw [accepted, List.append_nil]; exact h
  | refused _ hr => exact absurd hr.1 h0
  | outOfRange | noNode => rw [accepted, List.append_nil, leftBy, hopened]; exact h
  | repeated hw _ hf hmem =>
    rw [hopened] at hf hmem
    rw [accepted, leftBy, hopened]
    exact h.append rfl rfl (Finset.Subset.refl _) hw hmem hf fun hn => absurd hn h0
  | stored hw _ hf _ =>
    rw [hopened] at hf
    rw [accepted, leftBy, hopened]
    exact h.append rfl rfl (Finset.subset_insert _ _) hw (Finset.mem_insert_self _ _) hf fun hn => absurd hn h0

/-- The first packet, or one after others of which none was accepted. -/
theorem step_of_first (h0 : s.totalSize = 0) :
    Begun host (accepted c.1 ((addPacket host c.1 c.2).run s)) (nextIn host s c) := by
  obtain ⟨htotal, hnum, hcleared⟩ := opened_of_first h0 (headerOf host c.1.packet)
  have ho := addPacket_outcomeIn host s c.1 c.2
  unfold nextIn
  generalize (addPacket host c.1 c.2).run s = r at ho ⊢
  cases ho with
  | tooShort | badMark | refused | outOfRange | noNode => exact .nil _
  | repeated _ _ _ hmem =>
    rw [hcleared] at hmem
    exact absurd hmem (Finset.notMem_empty _)
  | stored hw _ hf _ =>
    refine (Begun.nil (opened s (headerOf host c.1.packet))).append (A := []) rfl rfl (Finset.subset_insert _ _) hw
      (Finset.mem_insert_self _ _) hf fun hn => ?_
    have hsize : (headerOf host c.1.packet).totalPayloadSize = 0 := htotal.symm.trans hn
    rw [htotal, hsize] at hf
    exact ⟨hsize, hnum.symm, hf⟩

theorem step (h : Begun host A s) (hi : InvIn s) (hno : ¬ Restarts host s c.1.packet c.2) :
    Begun host (A ++ accepted c.1 ((addPacket host c.1 c.2).run s)) (nextIn host s c) := by
  by_cases h0 : s.totalSize = 0
  · rcases s.receivedIndices.eq_empty_or_nonempty with hrec | hne
    · obtain rfl : A = [] := by
        refine List.eq_nil_iff_forall_not_mem.2 fun c' hc' => ?_
        exact (h.nonempty hc').ne_empty hrec
      exact step_of_first h0
    · by_cases hw : WellFormed host c.1.packet
      · have hu : Unchanging s (headerOf host c.1.packet) c.2 := by_contra fun hu => hno ⟨h0, hne, hw, hu⟩
        obtain ⟨hnext, hacc | ⟨hacc, he⟩⟩ := hu.outcome hi h0 hne hw
        · rw [hacc, hnext, List.append_nil]
          exact h
        · rw [hacc, hnext]
          exact h.append rfl rfl (Finset.Subset.refl _) hw (he.mem hi h0 hne) (by rw [h0]; exact he.fits) fun _ => he
      · obtain ⟨hacc, hnext⟩ := nextIn_of_not_wellFormed (s := s) hw
        rw [hacc, hnext, List.append_nil]
        exact h
  · exact h.step_of_ne h0

theorem run (h : Begun host A s) (hi : InvIn s)
    (hno : EveryStep (nextIn host) (fun s c => ¬ Restarts host s c.1.packet c.2) s calls) :
    Begun host (A ++ acceptedCallsIn host s calls) (run (nextIn host) s calls) :=
  run_acceptedCallsIn hno (fun _ _ _ h hi hno => h.step hi hno) h hi

end Begun

/-- An index is recorded by an accepted call only. -/
theorem receivedIndices_of_none (calls : List (Call × Memory)) (hacc : acceptedCallsIn host fresh calls = []) :
    (run (nextIn host) fresh calls).receivedIndices = ∅ := by
  refine run_acceptedCallsIn (P := fun A s => A = [] → s.receivedIndices = ∅) (C := fun _ _ => True)
    (everyStep_of_forall fun _ _ _ => trivial) (fun A s c h _ _ hnone => ?_) (A := []) (fun _ => rfl) .fresh hacc
  rw [List.append_eq_nil_iff] at hnone
  have hrec := h hnone.1
  have hacc := hnone.2
  have ho := addPacket_outcomeIn host s c.1 c.2
  unfold nextIn
  generalize (addPacket host c.1 c.2).run s = r at ho hacc ⊢
  cases ho with
  | tooShort | badMark | refused => exact hrec
  | outOfRange | noNode =>
    rw [leftBy, opened_receivedIndices, hrec]
    exact ite_self _
  | repeated | stored => cases hacc

end NetUnpacker

/-- A reassembly once begun goes on, and packets accepted before change nothing, exactly in the runs where
no call restarts it. -/
theorem never_restarted_iff (host : Endian) (calls : List (Call × Memory)) :
    NeverRestarted host calls ↔
      EveryStep (nextIn host) (fun s c => ¬ Restarts host s c.1.packet c.2) fresh calls := by
  constructor
  · intro h
    refine everyStep_iff_forall_split.2 fun pre c post heq hr => ?_
    have hacc : acceptedCallsIn host fresh pre ≠ [] := fun hacc =>
      hr.received.ne_empty (receivedIndices_of_none pre hacc)
    exact (keeps_iff (.run pre) hr.received).1 (h.kept pre c post heq hacc) hr
  · intro hno
    have hbegun : ∀ pre c post, calls = pre ++ c :: post →
        Begun host (acceptedCallsIn host fresh pre) (run (nextIn host) fresh pre) := by
      rintro pre c post rfl
      exact (Begun.nil fresh).run .fresh hno.append_left
    have hstep := everyStep_iff_forall_split.1 hno
    constructor
    · intro pre c post heq hacc
      obtain ⟨c', hc'⟩ := List.exists_mem_of_ne_nil _ hacc
      exact (keeps_iff (.run pre) ((hbegun pre c post heq).nonempty hc')).2 (hstep pre c post heq)
    · rintro pre c post heq ⟨c', hc', hpkt⟩
      exact (hbegun pre c post heq).redelivered (.run pre) (hstep pre c post heq) hc' hpkt

/-- The packet of a message without a byte, which `pack` never sends. -/
def emptyMessage : Call := { packet := wirePacket .little { totalPackageNum := 1 } [] }

/-- It is accepted, and the packet that follows it begins a message of one byte. -/
theorem emptyMessage_restarted : acceptedCallsIn .little fresh [(emptyMessage, {})] = [emptyMessage] ∧
    ¬ NeverRestarted .little [(emptyMessage, {}), ({ packet := packetOfSeven }, {})] := by
  refine ⟨rfl, fun h => ?_⟩
  have hkeeps := h.kept [(emptyMessage, {})] ({ packet := packetOfSeven }, {}) [] rfl (List.cons_ne_nil emptyMessage [])
  exact absurd hkeeps.totalSize (by decide +kernel)

end CcTools
