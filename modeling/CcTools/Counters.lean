import CcTools.UnpackerInv

/-!
# The counters when memory runs out

What the counter and the index set have to do with each other does not depend on the buffer, so it also
survives the calls in which `resize` or the insertion throws for want of memory (`counters_consistent`).
-/

namespace CcTools.NetUnpacker
open Runs

/-- `resize` refuses a first packet, for the size that it announces or for want of memory. -/
def RefusedIn (s : NetUnpacker) (h : NetPackageHeader) (memory : Memory) : Prop :=
  s.totalSize = 0 ∧ (maxSize < h.totalPayloadSize.toNat ∨ memory.resize = false)

/-- Everything a call of `addPacket` in state `s` can come to if memory may run out. -/
inductive OutcomeIn (host : Endian) (s : NetUnpacker) (c : Call) (memory : Memory) :
    EStateM.Result Exception NetUnpacker Unit → Prop
  | tooShort (h : c.packet.length < 22) :
    OutcomeIn host s c memory (.error (.runtimeError "invalid packet size") s)
  | badMark (hsof : (headerOf host c.packet).sof ≠ 0xCE9A) :
    OutcomeIn host s c memory (.error (.runtimeError "invalid packet header") s)
  /-- `totalSize` and `totalPackages` are set already, the old indices are still there. -/
  | refused {e} (hw : WellFormed host c.packet) (hr : RefusedIn s (headerOf host c.packet) memory) :
    OutcomeIn host s c memory (.error e
      { s with totalSize := (headerOf host c.packet).totalPayloadSize
               totalPackages := (headerOf host c.packet).totalPackageNum })
  | outOfRange (hw : WellFormed host c.packet) (hr : ¬ RefusedIn s (headerOf host c.packet) memory)
    (hf : ¬ Fits (opened s (headerOf host c.packet)).totalSize (headerOf host c.packet)) :
    OutcomeIn host s c memory
      (.error (.runtimeError "payload out of range") (opened s (headerOf host c.packet)))
  | repeated (hw : WellFormed host c.packet) (hr : ¬ RefusedIn s (headerOf host c.packet) memory)
    (hf : Fits (opened s (headerOf host c.packet)).totalSize (headerOf host c.packet))
    (hi : (headerOf host c.packet).currentPackageNum ∈
      (opened s (headerOf host c.packet)).receivedIndices) :
    OutcomeIn host s c memory (.ok () (opened s (headerOf host c.packet)))
  /-- Nothing is taken back of what `begin` did. -/
  | noNode (hw : WellFormed host c.packet) (hr : ¬ RefusedIn s (headerOf host c.packet) memory)
    (hf : Fits (opened s (headerOf host c.packet)).totalSize (headerOf host c.packet))
    (hi : (headerOf host c.packet).currentPackageNum ∉
      (opened s (headerOf host c.packet)).receivedIndices) (hm : memory.insert = false) :
    OutcomeIn host s c memory (.error .badAlloc (opened s (headerOf host c.packet)))
  | stored (hw : WellFormed host c.packet) (hr : ¬ RefusedIn s (headerOf host c.packet) memory)
    (hf : Fits (opened s (headerOf host c.packet)).totalSize (headerOf host c.packet))
    (hi : (headerOf host c.packet).currentPackageNum ∉
      (opened s (headerOf host c.packet)).receivedIndices) (hm : memory.insert = true) :
    OutcomeIn host s c memory (.ok ()
      (NetUnpacker.stored (opened s (headerOf host c.packet)) (headerOf host c.packet) c))

section
variable {host : Endian} {s : NetUnpacker} {c : Call} {packet : ByteVector} {memory : Memory} {h : NetPackageHeader}

theorem not_refusedIn_iff :
    ¬ RefusedIn s h memory ↔ ¬ Refused s h ∧ (s.totalSize ≠ 0 ∨ memory.resize = true) := by
  rw [RefusedIn, Refused, and_or_left, not_or, not_and_or (a := s.totalSize = 0) (b := memory.resize = false),
    Bool.not_eq_false]

theorem begin_noBuffer (h0 : s.totalSize = 0) (hm : memory.resize = false)
    (hn : ¬ maxSize < (fromNetwork64 host h.totalPayloadSize).toNat) :
    (begin host h memory).run s = .error .badAlloc
      { s with totalSize := fromNetwork64 host h.totalPayloadSize
               totalPackages := fromNetwork32 host h.totalPackageNum } := by
  simp [begin, resize, h0, hn, hm]

theorem begin_eq (hm : s.totalSize ≠ 0 ∨ memory.resize = true) :
    (begin host h memory).run s = (begin host h).run s := by
  rcases hm with h0 | hm
  · simp [begin, h0]
  · simp only [begin, resize, hm]

theorem prepare_noBuffer (hw : WellFormed host packet) (hr : ¬ Refused s (headerOf host packet))
    (h0 : s.totalSize = 0) (hm : memory.resize = false) :
    (prepare host packet memory).run s = .error .badAlloc
      { s with totalSize := (headerOf host packet).totalPayloadSize
               totalPackages := (headerOf host packet).totalPackageNum } := by
  have hsof : (deserialize host packet).sof = 0xCE9A := hw.sof
  have hlen : ¬ packet.length < headerSize.toNat := hw.not_tooShort
  have hn : ¬ maxSize < (fromNetwork64 host (deserialize host packet).totalPayloadSize).toNat :=
    fun hn => hr ⟨h0, hn⟩
  simp only [prepare, hlen, hsof, ↓reduceIte, ne_eq, not_true_eq_false, EStateM.run_bind,
    begin_noBuffer h0 hm hn]
  rfl

/-- With room for the buffer a call is what it is with memory enough, but that a new index may find
no room. -/
theorem prepare_in (hw : WellFormed host packet) (hr : ¬ RefusedIn s (headerOf host packet) memory) :
    (prepare host packet memory).run s =
      if Fits (opened s (headerOf host packet)).totalSize (headerOf host packet) ∧
          (headerOf host packet).currentPackageNum ∉ (opened s (headerOf host packet)).receivedIndices ∧
          memory.insert = false then
        .error .badAlloc (opened s (headerOf host packet))
      else (prepare host packet).run s := by
  have hsof : (deserialize host packet).sof = 0xCE9A := hw.sof
  have hlen : ¬ packet.length < headerSize.toNat := hw.not_tooShort
  obtain ⟨hr, hm⟩ := not_refusedIn_iff.1 hr
  have hgt := gt_iff_not_fits host packet (opened s (headerOf host packet)).totalSize
  have hidx : fromNetwork32 host (deserialize host packet).currentPackageNum =
      (headerOf host packet).currentPackageNum := rfl
  have hsize : fromNetwork32 host (deserialize host packet).currentPayloadSize =
      (headerOf host packet).currentPayloadSize := rfl
  simp only [prepare, hlen, hsof, ↓reduceIte, ne_eq, not_true_eq_false, EStateM.run_bind, begin_eq hm,
    begin_opened hr, EStateM.run_get, hidx, hsize, hgt]
  by_cases hf : Fits (opened s (headerOf host packet)).totalSize (headerOf host packet)
  · by_cases hi : (headerOf host packet).currentPackageNum ∈ (opened s (headerOf host packet)).receivedIndices
    · simp only [hf, hi, not_true_eq_false, false_and, and_false, ↓reduceIte, EStateM.run_bind, EStateM.run_get]
    · cases hins : memory.insert with
      | true => simp only [hf, hi, not_true_eq_false, Bool.true_eq_false, and_false, ↓reduceIte, Bool.not_true]
      | false =>
        simp only [hf, hi, not_true_eq_false, not_false_eq_true, and_self, ↓reduceIte, EStateM.run_bind,
          EStateM.run_get, Bool.not_false]
        rfl
  · simp only [hf, not_false_eq_true, false_and, ↓reduceIte]
    rfl

theorem addPacket_congr (h : (prepare host c.packet memory).run s = (prepare host c.packet).run s) :
    (addPacket host c memory).run s = (addPacket host c).run s := by
  simp only [addPacket, EStateM.run_bind, h]

theorem addPacket_outcomeIn (host : Endian) (s : NetUnpacker) (c : Call) (memory : Memory) :
    OutcomeIn host s c memory ((addPacket host c memory).run s) := by
  by_cases hlen : c.packet.length < 22
  · simp only [addPacket, EStateM.run_bind, prepare_tooShort hlen]
    exact .tooShort hlen
  by_cases hsof : (headerOf host c.packet).sof ≠ 0xCE9A
  · simp only [addPacket, EStateM.run_bind, prepare_badMark (Nat.not_lt.1 hlen) hsof]
    exact .badMark hsof
  have hw : WellFormed host c.packet := ⟨Nat.not_lt.1 hlen, not_not.1 hsof⟩
  by_cases hr : RefusedIn s (headerOf host c.packet) memory
  · by_cases hsize : Refused s (headerOf host c.packet)
    · simp only [addPacket, EStateM.run_bind, prepare_refused hw hsize]
      exact .refused hw hr
    · have hm : memory.resize = false := hr.2.resolve_left fun hn => hsize ⟨hr.1, hn⟩
      simp only [addPacket, EStateM.run_bind, prepare_noBuffer hw hsize hr.1 hm]
      exact .refused hw hr
  have hr' := (not_refusedIn_iff.1 hr).1
  have hprepare := prepare_in hw hr
  by_cases hf : Fits (opened s (headerOf host c.packet)).totalSize (headerOf host c.packet)
  · by_cases hi : (headerOf host c.packet).currentPackageNum ∈ (opened s (headerOf host c.packet)).receivedIndices
    · rw [if_neg fun h => h.2.1 hi] at hprepare
      rw [addPacket_congr hprepare, addPacket_repeated hw hr' hf hi]
      exact .repeated hw hr hf hi
    · cases hm : memory.insert with
      | true =>
        rw [if_neg fun h => by simp [hm] at h] at hprepare
        rw [addPacket_congr hprepare, addPacket_stored hw hr' hf hi]
        exact .stored hw hr hf hi hm
      | false =>
        rw [if_pos ⟨hf, hi, hm⟩] at hprepare
        simp only [addPacket, EStateM.run_bind, hprepare]
        exact .noNode hw hr hf hi hm
  · rw [if_neg fun h => hf h.1] at hprepare
    rw [addPacket_congr hprepare, addPacket_outOfRange hw hr' hf]
    exact .outOfRange hw hr hf

theorem nextIn_cases {c : Call × Memory} {P : NetUnpacker → Prop} (h : ∀ r, OutcomeIn host s c.1 c.2 r → P (leftBy r)) :
    P (nextIn host s c) :=
  h _ (addPacket_outcomeIn host s c.1 c.2)

end

namespace Counted
variable {host : Endian} {s : NetUnpacker}

theorem nextIn (hc : Counted s) (c : Call × Memory) : Counted (nextIn host s c) := by
  refine nextIn_cases fun r ho => ?_
  cases ho with
  | tooShort | badMark => exact hc
  | refused _ hr => exact hc.totals hr.1 _ _
  | outOfRange | repeated | noNode => exact hc.opened
  | stored _ _ hf hmem => exact hc.opened.stored hf hmem

theorem run (calls : List (Call × Memory)) : Counted (run (NetUnpacker.nextIn host) NetUnpacker.fresh calls) :=
  run_inv (fun _ hc c _ => hc.nextIn c) .fresh

theorem card_le (hc : Counted s) : s.receivedIndices.card ≤ s.totalSize.toNat / 1478 + 1 := by
  have hmaps : ∀ i ∈ s.receivedIndices, i.toNat ∈ Finset.range (s.totalSize.toNat / 1478 + 1) := by
    intro i hmem
    have := hc.range i hmem
    rw [Finset.mem_range]
    omega
  have hinj : Set.InjOn UInt32.toNat s.receivedIndices := fun _ _ _ _ heq => UInt32.toNat_inj.1 heq
  simpa using Finset.card_le_card_of_injOn _ hmaps hinj

end Counted

structure Consistent (s : NetUnpacker) : Prop where
  count : s.receivedCount.toNat = s.receivedIndices.card % 2 ^ 32
  range : ∀ i ∈ s.receivedIndices, i.toNat * 1478 ≤ s.totalSize.toNat
  card : s.receivedIndices.card ≤ s.totalSize.toNat / 1478 + 1
  noWrap : s.totalSize.toNat < 1478 * (2 ^ 32 - 1) → s.receivedCount.toNat = s.receivedIndices.card

/-- Whatever comes, whatever is thrown, and whenever memory runs out. -/
theorem counters_consistent (host : Endian) (calls : List (Call × Memory)) :
    Consistent (run (nextIn host) fresh calls) := by
  have hc : Counted (run (nextIn host) fresh calls) := Counted.run calls
  have hcount : (run (nextIn host) fresh calls).receivedCount.toNat =
      (run (nextIn host) fresh calls).receivedIndices.card % 2 ^ 32 := by
    rw [hc.count, UInt32.toNat_ofNat']
  refine ⟨hcount, hc.range, hc.card_le, fun hn => ?_⟩
  have := hc.card_le
  rw [hcount]
  omega

end CcTools.NetUnpacker
