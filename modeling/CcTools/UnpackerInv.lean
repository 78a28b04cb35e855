import CcTools.AddPacket

/-!
# What holds in every state of a receiver

`Inv` is kept by every `addPacket`, whatever the packet and however the call ends: the counter is the
number of indices modulo `2^32`, the buffer has `totalSize` bytes unless `resize` refused that size,
and every index starts inside `totalSize`.
-/

namespace CcTools.NetUnpacker
open Runs

/-- The part of the invariant that does not speak of the buffer. -/
structure Counted (s : NetUnpacker) : Prop where
  count : s.receivedCount = UInt32.ofNat s.receivedIndices.card
  range : ∀ i ∈ s.receivedIndices, i.toNat * 1478 ≤ s.totalSize.toNat

structure Inv (s : NetUnpacker) : Prop where
  count : s.receivedCount = UInt32.ofNat s.receivedIndices.card
  length : s.buffer.length = if s.totalSize.toNat ≤ maxSize then s.totalSize.toNat else 0
  range : ∀ i ∈ s.receivedIndices, i.toNat * 1478 ≤ s.totalSize.toNat

theorem next_cases {host : Endian} {s : NetUnpacker} {c : Call} {P : NetUnpacker → Prop}
    (h : ∀ r, Outcome host s c r → P (leftBy r)) : P (next host s c) :=
  h _ (addPacket_outcome host s c)

section opened
variable {s : NetUnpacker} {h : NetPackageHeader}

theorem opened_of_ne (hs : s.totalSize ≠ 0) : opened s h = s := by
  simp [opened, hs]

theorem opened_totalSize :
    (opened s h).totalSize = if s.totalSize = 0 then h.totalPayloadSize else s.totalSize := by
  unfold opened; split <;> rfl

theorem opened_totalPackages :
    (opened s h).totalPackages = if s.totalSize = 0 then h.totalPackageNum else s.totalPackages := by
  unfold opened; split <;> rfl

theorem opened_receivedIndices :
    (opened s h).receivedIndices = if s.totalSize = 0 then ∅ else s.receivedIndices := by
  unfold opened; split <;> rfl

theorem Refused.size_ne_zero (hr : Refused s h) : h.totalPayloadSize ≠ 0 := by
  intro h0
  have hn := hr.2
  rw [h0] at hn
  exact absurd hn (by decide)

end opened

namespace Counted
variable {s : NetUnpacker} {c : Call} {h : NetPackageHeader}

theorem fresh : Counted fresh := ⟨rfl, fun i hmem => by simp [NetUnpacker.fresh] at hmem⟩

theorem eq_zero_of_mem (hc : Counted s) (h0 : s.totalSize = 0) {i : UInt32} (hmem : i ∈ s.receivedIndices) :
    i = 0 := by
  have hr := hc.range i hmem
  rw [h0] at hr
  exact UInt32.toNat_inj.1 (by simpa using hr)

/-- Indices kept while `totalSize` is 0 are 0 themselves, so any size may replace it. -/
theorem totals (hc : Counted s) (h0 : s.totalSize = 0) (n : UInt64) (k : UInt32) :
    Counted { s with totalSize := n, totalPackages := k } where
  count := hc.count
  range i hmem := by
    rw [hc.eq_zero_of_mem h0 hmem]
    simp

theorem opened (hc : Counted s) : Counted (opened s h) := by
  by_cases h0 : s.totalSize = 0
  · rw [NetUnpacker.opened, if_pos h0]
    exact ⟨rfl, fun i hmem => by simp at hmem⟩
  · rw [opened_of_ne h0]
    exact hc

theorem stored (hc : Counted s) (hf : Fits s.totalSize h) (hmem : h.currentPackageNum ∉ s.receivedIndices) :
    Counted (stored s h c) where
  count := by
    simp only [NetUnpacker.stored, hc.count, Finset.card_insert_of_notMem hmem, UInt32.ofNat_add]
    rfl
  range i hmem' := by
    rcases Finset.mem_insert.1 hmem' with rfl | hmem'
    · exact Nat.le_trans (Nat.le_add_right ..) hf
    · exact hc.range i hmem'

end Counted

namespace Inv
variable {host : Endian} {s : NetUnpacker} {c : Call} {h : NetPackageHeader}

theorem counted (hi : Inv s) : Counted s := ⟨hi.count, hi.range⟩

theorem of_counted (hc : Counted s)
    (hlen : s.buffer.length = if s.totalSize.toNat ≤ maxSize then s.totalSize.toNat else 0) : Inv s :=
  ⟨hc.count, hlen, hc.range⟩

theorem fresh : Inv fresh := of_counted .fresh rfl

theorem length_of_le (hi : Inv s) (hn : s.totalSize.toNat ≤ maxSize) :
    s.buffer.length = s.totalSize.toNat := by
  rw [hi.length, if_pos hn]

theorem buffer_nil (hi : Inv s) (h0 : s.totalSize = 0) : s.buffer = [] := by
  have hlen := hi.length
  rw [h0] at hlen
  exact List.eq_nil_of_length_eq_zero (by simpa using hlen)

theorem refused (hi : Inv s) (hr : Refused s h) :
    Inv { s with totalSize := h.totalPayloadSize, totalPackages := h.totalPackageNum } := by
  refine of_counted (hi.counted.totals hr.1 _ _) ?_
  simp only [hi.buffer_nil hr.1, List.length_nil, if_neg (Nat.not_le.2 hr.2)]

theorem opened (hi : Inv s) (hr : ¬ Refused s h) : Inv (opened s h) := by
  refine of_counted hi.counted.opened ?_
  by_cases h0 : s.totalSize = 0
  · have hn : h.totalPayloadSize.toNat ≤ maxSize := Nat.le_of_not_lt fun hn => hr ⟨h0, hn⟩
    simp [NetUnpacker.opened, h0, hi.buffer_nil h0, hn]
  · rw [opened_of_ne h0]
    exact hi.length

theorem stored (hi : Inv s) (hf : Fits s.totalSize h) (hmem : h.currentPackageNum ∉ s.receivedIndices) :
    Inv (stored s h c) :=
  of_counted (hi.counted.stored hf hmem) ((length_overlay ..).trans hi.length)

theorem next (hi : Inv s) (c : Call) : Inv (next host s c) := by
  refine next_cases fun r ho => ?_
  cases ho with
  | tooShort => exact hi
  | badMark => exact hi
  | refused _ hr => exact hi.refused hr
  | outOfRange _ hr _ => exact hi.opened hr
  | repeated _ hr _ _ => exact hi.opened hr
  | stored _ hr hf hmem => exact (hi.opened hr).stored hf hmem

theorem run (calls : List Call) : Inv (run (NetUnpacker.next host) NetUnpacker.fresh calls) :=
  run_inv (fun _ hi c _ => hi.next c) .fresh

end Inv

theorem next_totalSize (host : Endian) (s : NetUnpacker) (c : Call) :
    (next host s c).totalSize = s.totalSize ∨ WellFormed host c.packet ∧ s.totalSize = 0 ∧
      (next host s c).totalSize = (headerOf host c.packet).totalPayloadSize := by
  have hopened : ∀ h, (opened s h).totalSize = s.totalSize ∨ s.totalSize = 0 ∧
      (opened s h).totalSize = h.totalPayloadSize := by
    intro h
    by_cases h0 : s.totalSize = 0
    · exact .inr ⟨h0, by rw [opened_totalSize, if_pos h0]⟩
    · exact .inl (by rw [opened_totalSize, if_neg h0])
  refine next_cases (P := fun s' => s'.totalSize = s.totalSize ∨ WellFormed host c.packet ∧ s.totalSize = 0 ∧
    s'.totalSize = (headerOf host c.packet).totalPayloadSize) fun r ho => ?_
  cases ho with
  | tooShort => exact .inl rfl
  | badMark => exact .inl rfl
  | refused hw hr => exact .inr ⟨hw, hr.1, rfl⟩
  | outOfRange hw => exact (hopened _).imp_right fun h => ⟨hw, h⟩
  | repeated hw => exact (hopened _).imp_right fun h => ⟨hw, h⟩
  | stored hw => exact (hopened _).imp_right fun h => ⟨hw, h⟩

theorem next_totals (host : Endian) {s : NetUnpacker} (c : Call) (h0 : s.totalSize ≠ 0) :
    (next host s c).totalSize = s.totalSize ∧ (next host s c).totalPackages = s.totalPackages := by
  refine next_cases (P := fun s' => s'.totalSize = s.totalSize ∧ s'.totalPackages = s.totalPackages) fun r ho => ?_
  have hopened := opened_of_ne (h := headerOf host c.packet) h0
  cases ho with
  | tooShort => exact ⟨rfl, rfl⟩
  | badMark => exact ⟨rfl, rfl⟩
  | refused _ hr => exact absurd hr.1 h0
  | outOfRange => rw [hopened]; exact ⟨rfl, rfl⟩
  | repeated => rw [hopened]; exact ⟨rfl, rfl⟩
  | stored => rw [hopened]; exact ⟨rfl, rfl⟩

end CcTools.NetUnpacker
