import CcTools.Indices
import CcTools.Received
import CcTools.Wire

/-!
# When a complete message is what was received

`isComplete` counts indices; nothing compares the lengths of the bodies with their places. The payload
handed out is the bodies one after the other, with no position left out and none written twice, exactly
when the packets that fit the first one's size adjoin (`gapless_iff`).
-/

namespace CcTools
open Runs Tiling

namespace NetUnpacker
variable {host : Endian}

/-- The payload is the bodies first accepted for the indices `0 .. totalPackages - 1`. -/
structure OnlyReceived (host : Endian) (A : List Call) (s : NetUnpacker) : Prop where
  received : ∀ k < s.totalPackages.toNat, ∃ c ∈ A, (indexOf host c).toNat = k
  payload : s.getPayload = .ok ((List.range s.totalPackages.toNat).flatMap (bodyAt host A))
  /-- No byte is left at its zero fill. -/
  filled : ∀ pos < s.totalSize.toNat, ∃ k, InBody host A k pos
  /-- No body is written over another. -/
  apart : ∀ j k pos, InBody host A j pos → InBody host A k pos → j = k

def firstHeader (host : Endian) (calls : List Call) : NetPackageHeader :=
  match calls.find? fun c => WellFormed host c.packet with
  | some c => headerOf host c.packet
  | none => {}

/-- The packets with a place inside the size that the first one announces. -/
def fitting (host : Endian) (calls : List Call) : List Call :=
  calls.filter fun c => WellFormed host c.packet ∧
    Fits (firstHeader host calls).totalPayloadSize (headerOf host c.packet)

/-- The packets that fit adjoin: their indices are below the first one's number of packages, every body
not empty starts where those before it add up to, and together they have the first one's size. -/
structure Adjoins (host : Endian) (calls : List Call) : Prop where
  below : ∀ c ∈ fitting host calls, indexOf host c < (firstHeader host calls).totalPackageNum
  adjoining : Adjoining (· * 1478) (fun k => (bodyAt host (fitting host calls) k).length)
    (firstHeader host calls).totalPackageNum.toNat (firstHeader host calls).totalPayloadSize.toNat

/-! ### The calls accepted -/

section
variable {s : NetUnpacker} {c : Call} {calls : List Call}

/-- Unless `resize` refuses its size, a packet is accepted if it has a place in the size it meets. -/
theorem accepted_eq (hr : ¬ Refused s (headerOf host c.packet)) : accepted c ((addPacket host c).run s) =
    [c].filter fun c' => WellFormed host c'.packet ∧
      Fits (opened s (headerOf host c.packet)).totalSize (headerOf host c'.packet) := by
  have ho := addPacket_outcome host s c
  generalize (addPacket host c).run s = r at ho ⊢
  cases ho with
  | tooShort hlen =>
    have hno : ¬ WellFormed host c.packet := fun hw => hw.not_tooShort hlen
    simp [accepted, hno]
  | badMark _ hsof =>
    have hno : ¬ WellFormed host c.packet := fun hw => hsof hw.sof
    simp [accepted, hno]
  | refused _ hr' => exact absurd hr' hr
  | outOfRange _ _ hf => simp [accepted, hf]
  | repeated hw _ hf => simp [accepted, hw, hf]
  | stored hw _ hf => simp [accepted, hw, hf]

theorem accepted_of_ne (h0 : s.totalSize ≠ 0) : accepted c ((addPacket host c).run s) =
    [c].filter fun c => WellFormed host c.packet ∧ Fits s.totalSize (headerOf host c.packet) := by
  rw [accepted_eq fun hr => h0 hr.1, opened_of_ne h0]

theorem acceptedCalls_of_ne (h0 : s.totalSize ≠ 0) : acceptedCalls host s calls =
    calls.filter fun c => WellFormed host c.packet ∧ Fits s.totalSize (headerOf host c.packet) := by
  induction calls generalizing s with
  | nil => rfl
  | cons c calls ih =>
    have hsize := (next_totals host c h0).1
    rw [acceptedCalls, accepted_of_ne h0, ih (by rw [hsize]; exact h0), hsize, ← List.filter_append]
    rfl

theorem addPacket_of_not_wellFormed (hw : ¬ WellFormed host c.packet) :
    accepted c ((addPacket host c).run s) = [] ∧ next host s c = s := by
  have ho := addPacket_outcome host s c
  unfold next
  generalize (addPacket host c).run s = r at ho ⊢
  cases ho with
  | tooShort => exact ⟨rfl, rfl⟩
  | badMark => exact ⟨rfl, rfl⟩
  | refused hw' => exact absurd hw' hw
  | outOfRange hw' => exact absurd hw' hw
  | repeated hw' => exact absurd hw' hw
  | stored hw' => exact absurd hw' hw

theorem next_of_first (h0 : s.totalSize = 0) (hw : WellFormed host c.packet) :
    (next host s c).totalSize = (headerOf host c.packet).totalPayloadSize ∧
      (next host s c).totalPackages = (headerOf host c.packet).totalPackageNum := by
  have hsize : (opened s (headerOf host c.packet)).totalSize = (headerOf host c.packet).totalPayloadSize := by
    rw [opened_totalSize, if_pos h0]
  have hnum : (opened s (headerOf host c.packet)).totalPackages = (headerOf host c.packet).totalPackageNum := by
    rw [opened_totalPackages, if_pos h0]
  refine next_cases (P := fun s' => s'.totalSize = (headerOf host c.packet).totalPayloadSize ∧
    s'.totalPackages = (headerOf host c.packet).totalPackageNum) fun r ho => ?_
  cases ho with
  | tooShort hlen => exact absurd hlen hw.not_tooShort
  | badMark _ hsof => exact absurd hw.sof hsof
  | refused => exact ⟨rfl, rfl⟩
  | outOfRange => exact ⟨hsize, hnum⟩
  | repeated => exact ⟨hsize, hnum⟩
  | stored => exact ⟨hsize, hnum⟩

theorem firstHeader_of_wellFormed (hw : WellFormed host c.packet) :
    firstHeader host (c :: calls) = headerOf host c.packet := by
  simp [firstHeader, hw]

theorem firstHeader_of_not (hw : ¬ WellFormed host c.packet) :
    firstHeader host (c :: calls) = firstHeader host calls := by
  simp [firstHeader, hw]

theorem wellFormed_of_mem_acceptedCalls (hmem : c ∈ acceptedCalls host s calls) :
    ∃ c ∈ calls, WellFormed host c.packet := by
  induction calls generalizing s with
  | nil => simp [acceptedCalls] at hmem
  | cons c' calls ih =>
    rw [acceptedCalls] at hmem
    by_cases hw : WellFormed host c'.packet
    · exact ⟨c', List.mem_cons_self .., hw⟩
    · rw [(addPacket_of_not_wellFormed hw).1, List.nil_append] at hmem
      obtain ⟨c'', hc'', hw''⟩ := ih hmem
      exact ⟨c'', List.mem_cons_of_mem _ hc'', hw''⟩

theorem run_totals (hsized : ∀ c ∈ calls, Sized host c) (hfirst : ∃ c ∈ calls, WellFormed host c.packet) :
    (run (next host) fresh calls).totalSize = (firstHeader host calls).totalPayloadSize ∧
      (run (next host) fresh calls).totalPackages = (firstHeader host calls).totalPackageNum := by
  induction calls with
  | nil => simp at hfirst
  | cons c calls ih =>
    rw [run_cons]
    by_cases hw : WellFormed host c.packet
    · rw [firstHeader_of_wellFormed hw]
      have hne := (hsized c (List.mem_cons_self ..)).total
      refine run_inv (P := fun s : NetUnpacker => s.totalSize = (headerOf host c.packet).totalPayloadSize ∧
        s.totalPackages = (headerOf host c.packet).totalPackageNum) ?_ (next_of_first rfl hw)
      rintro s ⟨hs, hn⟩ c' -
      obtain ⟨hs', hn'⟩ := next_totals host c' (by rw [hs]; exact hne)
      exact ⟨hs'.trans hs, hn'.trans hn⟩
    · rw [firstHeader_of_not hw, (addPacket_of_not_wellFormed hw).2]
      refine ih (fun c' hc' => hsized c' (List.mem_cons_of_mem _ hc')) ?_
      obtain ⟨c', hc', hw'⟩ := hfirst
      rcases List.mem_cons.1 hc' with rfl | hc'
      · exact absurd hw' hw
      · exact ⟨c', hc', hw'⟩

theorem accepted_of_first (hn : (headerOf host c.packet).totalPayloadSize.toNat ≤ maxSize) :
    accepted c ((addPacket host c).run fresh) =
      [c].filter fun c' => WellFormed host c'.packet ∧
        Fits (headerOf host c.packet).totalPayloadSize (headerOf host c'.packet) := by
  rw [accepted_eq fun hr => absurd hr.2 (Nat.not_lt.2 hn), opened_totalSize]
  rfl

theorem acceptedCalls_eq (hsized : ∀ c ∈ calls, Sized host c)
    (hn : (firstHeader host calls).totalPayloadSize.toNat ≤ maxSize) :
    acceptedCalls host fresh calls = fitting host calls := by
  induction calls with
  | nil => rfl
  | cons c calls ih =>
    rw [acceptedCalls, fitting]
    by_cases hw : WellFormed host c.packet
    · rw [firstHeader_of_wellFormed hw] at hn ⊢
      have hsize := (next_of_first (s := fresh) rfl hw).1
      have hne : (next host fresh c).totalSize ≠ 0 := by
        rw [hsize]
        exact (hsized c (List.mem_cons_self ..)).total
      rw [accepted_of_first hn, acceptedCalls_of_ne hne, hsize, ← List.filter_append]
      rfl
    · rw [firstHeader_of_not hw] at hn ⊢
      obtain ⟨hacc, hnext⟩ := addPacket_of_not_wellFormed (s := fresh) hw
      rw [hacc, hnext, List.nil_append, ih (fun c' hc' => hsized c' (List.mem_cons_of_mem _ hc')) hn,
        List.filter_cons_of_neg (by simp [hw])]
      rfl

end

/-! ### Bodies and places -/

section
variable {A calls : List Call} {s : NetUnpacker} {k pos : Nat}

theorem strictMono_place : StrictMono fun k : Nat => k * 1478 := by
  intro i j hij
  show i * 1478 < j * 1478
  omega

theorem length_bodyAt_lt (host : Endian) (A : List Call) (k : Nat) : (bodyAt host A k).length < 2 ^ 32 := by
  unfold bodyAt
  split
  · rename_i c _
    have hlt := (headerOf host c.packet).currentPayloadSize.toNat_lt
    rw [body, length_slice]
    omega
  · simp

theorem le_maxSize_of_filled (host : Endian) (A : List Call) {n : Nat}
    (hfilled : ∀ pos < n, ∃ k < 2 ^ 32, InBody host A k pos) : n ≤ maxSize := by
  refine Nat.le_of_not_lt fun hn => ?_
  obtain ⟨k, hk, hbody⟩ := hfilled maxSize hn
  have hlen := length_bodyAt_lt host A k
  rw [inBody_iff] at hbody
  unfold maxSize at hbody
  omega

theorem History.inside (h : History host A s) (hsized : ∀ c ∈ A, Sized host c)
    (hk : ∃ c ∈ A, (indexOf host c).toNat = k) : k * 1478 + (bodyAt host A k).length ≤ s.totalSize.toNat := by
  unfold bodyAt
  cases hf : A.find? fun c => (indexOf host c).toNat = k with
  | none =>
    obtain ⟨c, hc, hidx⟩ := hk
    have hno := List.find?_eq_none.1 hf c hc
    simp [hidx] at hno
  | some c =>
    have hmem := List.mem_of_find?_eq_some hf
    have hidx := List.find?_some hf
    simp only [decide_eq_true_eq] at hidx
    have hfits := h.fits c hmem
    show k * 1478 + (body host c).length ≤ s.totalSize.toNat
    rw [length_body (hsized c hmem), ← hidx]
    exact hfits

theorem lt_size_of_inBody (h : InBody host A k pos) : k < 2 ^ 32 := by
  obtain ⟨c, -, rfl, -⟩ := exists_of_inBody h
  exact (indexOf host c).toNat_lt

/-- Where the bodies adjoin, the buffer is their concatenation. -/
theorem History.buffer_eq (h : History host A s) (hi : Inv s) (hn : s.totalSize.toNat ≤ maxSize)
    (hadj : Adjoining (· * 1478) (fun k => (bodyAt host A k).length) s.totalPackages.toNat s.totalSize.toNat)
    (hlt : ∀ c ∈ A, indexOf host c < s.totalPackages) :
    s.buffer = (List.range s.totalPackages.toNat).flatMap (bodyAt host A) := by
  have hlen : ((List.range s.totalPackages.toNat).flatMap (bodyAt host A)).length = s.totalSize.toNat := by
    rw [length_flatMap_range]
    exact hadj.total
  refine List.ext_getElem? fun pos => ?_
  by_cases hpos : pos < s.totalSize.toNat
  · obtain ⟨v, hv⟩ : ∃ v, s.buffer[pos]? = some v := by
      rw [← hi.length_of_le hn] at hpos
      exact ⟨_, List.getElem?_eq_getElem hpos⟩
    rcases h.bytes pos v hv with ⟨-, hno⟩ | ⟨k, hk, hbyte⟩
    · obtain ⟨k, -, hk⟩ := hadj.filled hpos
      exact absurd hk (hno k)
    · obtain ⟨c, hc, hidx, -⟩ := exists_of_inBody hk
      have hkm : k < s.totalPackages.toNat := hidx ▸ UInt32.lt_iff_toNat_lt.1 (hlt c hc)
      rw [inBody_iff] at hk
      -- a body that is not empty starts where the bodies before it end
      have hstart := (hadj.next k hkm).resolve_left (by omega)
      have hget := getElem?_flatMap_range (i := pos - k * 1478) hkm (by omega : _ < (bodyAt host A k).length)
      rw [← hstart, Nat.add_sub_cancel' hk.1] at hget
      rw [hv, hget, hbyte]
  · rw [List.getElem?_eq_none (by rw [hi.length]; split <;> omega), List.getElem?_eq_none (by omega)]

theorem card_le_of_uint32 (R : Finset UInt32) : R.card ≤ 2 ^ 32 := by
  have hsub : R.image UInt32.toNat ⊆ Finset.range (2 ^ 32) := by
    intro n hn
    obtain ⟨i, -, rfl⟩ := Finset.mem_image.1 hn
    exact Finset.mem_range.2 i.toNat_lt
  have hcard := Finset.card_le_card hsub
  rwa [Finset.card_image_of_injective _ fun _ _ => UInt32.toNat_inj.1, Finset.card_range] at hcard

/-- A complete receiver of some packages that has every index below their number has no other. -/
theorem lt_of_complete (hi : Inv s) (hcomplete : s.isComplete = true) (h0 : s.totalPackages ≠ 0)
    (hall : ∀ i < s.totalPackages, i ∈ s.receivedIndices) : ∀ i ∈ s.receivedIndices, i < s.totalPackages := by
  have hle := card_le_of_uint32 s.receivedIndices
  rw [isComplete, beq_iff_eq, hi.count, ← UInt32.toNat_inj, UInt32.toNat_ofNat'] at hcomplete
  have hpos : s.totalPackages.toNat ≠ 0 := fun h => h0 (UInt32.toNat_inj.1 h)
  have hsub : (NetPacker.indicesBelow s.totalPackages).toFinset ⊆ s.receivedIndices :=
    fun i hmem => hall i (mem_indicesBelow.1 (List.mem_toFinset.1 hmem))
  have hcard : (NetPacker.indicesBelow s.totalPackages).toFinset.card = s.totalPackages.toNat := by
    rw [List.toFinset_card_of_nodup (nodup_indicesBelow _), length_indicesBelow]
  have hge := Finset.card_le_card hsub
  have heq := Finset.eq_of_subset_of_card_le hsub (by rw [hcard] at hge ⊢; omega)
  intro i hmem
  rw [← heq] at hmem
  exact mem_indicesBelow.1 (List.mem_toFinset.1 hmem)

theorem mem_of_mem_acceptedCalls {c : Call} (hmem : c ∈ acceptedCalls host s calls) : c ∈ calls := by
  induction calls generalizing s with
  | nil => simp [acceptedCalls] at hmem
  | cons c' calls ih =>
    rw [acceptedCalls, List.mem_append] at hmem
    rcases hmem with hmem | hmem
    · unfold accepted at hmem
      split at hmem
      · rw [List.mem_singleton.1 hmem]
        exact List.mem_cons_self ..
      · simp at hmem
    · exact List.mem_cons_of_mem _ (ih hmem)

/-- The bodies behind the indices below `totalPackages` adjoin, and there are no others. -/
structure AdjoinsIn (host : Endian) (A : List Call) (s : NetUnpacker) : Prop where
  below : ∀ c ∈ A, indexOf host c < s.totalPackages
  adjoining : Adjoining (· * 1478) (fun k => (bodyAt host A k).length) s.totalPackages.toNat s.totalSize.toNat

theorem OnlyReceived.le_maxSize (h : OnlyReceived host A s) : s.totalSize.toNat ≤ maxSize := by
  refine le_maxSize_of_filled host A fun pos hpos => ?_
  obtain ⟨k, hk⟩ := h.filled pos hpos
  exact ⟨k, lt_size_of_inBody hk, hk⟩

theorem AdjoinsIn.le_maxSize (h : AdjoinsIn host A s) : s.totalSize.toNat ≤ maxSize := by
  refine le_maxSize_of_filled host A fun pos hpos => ?_
  obtain ⟨k, hk, hc⟩ := h.adjoining.filled hpos
  exact ⟨k, Nat.lt_trans hk s.totalPackages.toNat_lt, hc⟩

theorem History.adjoinsIn (h : History host A s) (hi : Inv s) (hsized : ∀ c ∈ A, Sized host c)
    (h0 : s.totalSize ≠ 0) (hcomplete : s.isComplete = true) (hr : OnlyReceived host A s) :
    AdjoinsIn host A s := by
  have hm : s.totalPackages ≠ 0 := by
    intro hm
    have hlen := hi.length_of_le hr.le_maxSize
    have hpayload := hr.payload
    rw [getPayload_of_isComplete hcomplete] at hpayload
    rw [Except.ok.inj hpayload, hm] at hlen
    exact h0 (UInt64.toNat_inj.1 hlen.symm)
  have hall : ∀ i < s.totalPackages, i ∈ s.receivedIndices := by
    intro i hlt
    obtain ⟨c, hc, hidx⟩ := hr.received i.toNat (UInt32.lt_iff_toNat_lt.1 hlt)
    exact (h.indices i).2 ⟨c, hc, UInt32.toNat_inj.1 hidx⟩
  have hlt : ∀ c ∈ A, indexOf host c < s.totalPackages :=
    fun c hc => lt_of_complete hi hcomplete hm hall _ ((h.indices _).2 ⟨c, hc, rfl⟩)
  refine ⟨hlt, (filled_apart_iff strictMono_place fun k hk => h.inside hsized (hr.received k hk)).1
    ⟨fun pos hpos => ?_, fun i _ j _ pos => hr.apart i j pos⟩⟩
  obtain ⟨k, hk⟩ := hr.filled pos hpos
  obtain ⟨c, hc, hidx, -⟩ := exists_of_inBody hk
  exact ⟨k, hidx ▸ UInt32.lt_iff_toNat_lt.1 (hlt c hc), hk⟩

theorem History.onlyReceived (h : History host A s) (hi : Inv s) (hcomplete : s.isComplete = true)
    (ha : AdjoinsIn host A s) : OnlyReceived host A s := by
  have hin : ∀ k pos, InBody host A k pos → k < s.totalPackages.toNat := by
    intro k pos hk
    obtain ⟨c, hc, hidx, -⟩ := exists_of_inBody hk
    exact hidx ▸ UInt32.lt_iff_toNat_lt.1 (ha.below c hc)
  have hbelow : ∀ i ∈ s.receivedIndices, i < s.totalPackages := by
    intro i hmem
    obtain ⟨c, hc, rfl⟩ := (h.indices i).1 hmem
    exact ha.below c hc
  refine ⟨fun k hk => ?_, ?_, fun pos hpos => ?_, fun j k pos hj hk => ?_⟩
  · have hk' : (UInt32.ofNat k).toNat = k :=
      UInt32.toNat_ofNat_of_lt' (Nat.lt_trans hk s.totalPackages.toNat_lt)
    have hmem := (isComplete_iff hi.count hbelow).1 hcomplete (UInt32.ofNat k)
      (UInt32.lt_iff_toNat_lt.2 (hk'.symm ▸ hk))
    obtain ⟨c, hc, hidx⟩ := (h.indices _).1 hmem
    exact ⟨c, hc, by rw [hidx, hk']⟩
  · rw [getPayload_of_isComplete hcomplete, h.buffer_eq hi ha.le_maxSize ha.adjoining ha.below]
  · obtain ⟨k, -, hk⟩ := ha.adjoining.filled hpos
    exact ⟨k, hk⟩
  · exact ha.adjoining.apart (hin j pos hj) (hin k pos hk) hj hk

end
end NetUnpacker

open NetUnpacker

/-- A complete run hands out exactly what it received, with no gap and nothing written twice, exactly when
the packets that fit adjoin. -/
theorem gapless_iff (host : Endian) (calls : List Call) (hsized : ∀ c ∈ calls, Sized host c)
    (haccepted : acceptedCalls host fresh calls ≠ [])
    (hcomplete : (run (next host) fresh calls).isComplete = true) :
    OnlyReceived host (acceptedCalls host fresh calls) (run (next host) fresh calls) ↔ Adjoins host calls := by
  have hi : Inv (run (next host) fresh calls) := Inv.run calls
  have hist : History host (acceptedCalls host fresh calls) (run (next host) fresh calls) :=
    History.fresh.run .fresh hsized
  obtain ⟨c, hc⟩ := List.exists_mem_of_ne_nil _ haccepted
  obtain ⟨hsize, hnum⟩ := run_totals hsized (wellFormed_of_mem_acceptedCalls hc)
  have hne : (run (next host) fresh calls).totalSize ≠ 0 := fun h0 => haccepted (hist.none h0)
  constructor
  · intro hr
    have ha := hist.adjoinsIn hi (fun c hc => hsized c (mem_of_mem_acceptedCalls hc)) hne hcomplete hr
    rw [acceptedCalls_eq hsized (hsize ▸ hr.le_maxSize)] at ha
    exact ⟨hnum ▸ ha.below, hnum ▸ hsize ▸ ha.adjoining⟩
  · rintro ⟨hlt, hadj⟩
    have ha : AdjoinsIn host (fitting host calls) (run (next host) fresh calls) :=
      ⟨hnum.symm ▸ hlt, hnum.symm ▸ hsize.symm ▸ hadj⟩
    have heq := acceptedCalls_eq hsized (hsize ▸ ha.le_maxSize)
    rw [heq] at hist ⊢
    exact hist.onlyReceived hi hcomplete ha

/-- The first 1478 bytes of a message of 1479. -/
def firstPart : Call :=
  { packet := wirePacket .little { totalPayloadSize := 1479, totalPackageNum := 2, currentPayloadSize := 1478 }
      (List.replicate 1478 1) }

/-- Its last byte. -/
def lastPart : Call :=
  { packet := wirePacket .little { totalPayloadSize := 1479, totalPackageNum := 2, currentPackageNum := 1,
                                   currentPayloadSize := 1 } [2] }

theorem gapless_iff_two :
    (run (next .little) fresh [lastPart, firstPart, lastPart]).getPayload = .ok (List.replicate 1478 1 ++ [2]) ∧
    ∀ pos < 1479, ∃ k, InBody .little [lastPart, firstPart, lastPart] k pos := by
  have hsized : ∀ c ∈ [lastPart, firstPart, lastPart], Sized .little c := by
    have hfirst : Sized .little firstPart := ⟨by decide +kernel, by decide +kernel⟩
    have hlast : Sized .little lastPart := ⟨by decide +kernel, by decide +kernel⟩
    exact List.forall_mem_cons.2 ⟨hlast, List.forall_mem_cons.2 ⟨hfirst, List.forall_mem_singleton.2 hlast⟩⟩
  have hadj : Adjoins .little [lastPart, firstPart, lastPart] := ⟨by decide +kernel, ⟨by decide +kernel, by decide +kernel⟩⟩
  have hacc : acceptedCalls .little fresh [lastPart, firstPart, lastPart] = [lastPart, firstPart, lastPart] :=
    (acceptedCalls_eq hsized (by decide +kernel)).trans (List.filter_eq_self.2 (by decide +kernel))
  have hr := (gapless_iff .little [lastPart, firstPart, lastPart] hsized (by rw [hacc]; exact List.cons_ne_nil _ _)
    (by decide +kernel)).2 hadj
  rw [hacc] at hr
  have hnum : (run (next .little) fresh [lastPart, firstPart, lastPart]).totalPackages = 2 := by decide +kernel
  have hbodies : (List.range 2).flatMap (bodyAt .little [lastPart, firstPart, lastPart]) = List.replicate 1478 1 ++ [2] := by
    decide +kernel
  have hsize : (run (next .little) fresh [lastPart, firstPart, lastPart]).totalSize = 1479 := by decide +kernel
  have hpayload := hr.payload
  have hfilled := hr.filled
  rw [hnum] at hpayload
  rw [hsize] at hfilled
  exact ⟨hpayload.trans (congrArg Except.ok hbodies), hfilled⟩

/-- One byte of a message of two, announced as its only package. -/
def halfMessage : Call :=
  { packet := wirePacket .little { totalPayloadSize := 2, totalPackageNum := 1, currentPayloadSize := 1 } [7] }

/-- The receiver is complete and hands out a byte nobody sent. -/
theorem halfMessage_gap :
    Sized .little halfMessage ∧ acceptedCalls .little fresh [halfMessage] = [halfMessage] ∧
    (run (next .little) fresh [halfMessage]).isComplete = true ∧
    (run (next .little) fresh [halfMessage]).getPayload = .ok [7, 0] ∧
    ¬ OnlyReceived .little (acceptedCalls .little fresh [halfMessage]) (run (next .little) fresh [halfMessage]) := by
  have hpayload : (run (next .little) fresh [halfMessage]).getPayload = .ok [7, 0] := by decide +kernel
  refine ⟨⟨by decide +kernel, by decide +kernel⟩, rfl, rfl, hpayload, fun hr => ?_⟩
  have hbodies := hr.payload
  rw [hpayload] at hbodies
  exact absurd hbodies (by decide +kernel)

end CcTools
