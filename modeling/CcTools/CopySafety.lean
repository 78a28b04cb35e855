import CcTools.Reassembly

/-!
# The copy of a packet's body

What the `memcpy` of `addPacket` reads and writes. It reads past the packet exactly for the packets
shorter than their header claims (`reads_inside_iff`), and writes past the buffer only after `resize`
refused a size that `totalSize` had already taken (`writes_inside_iff`).
-/

namespace CcTools
open NetPacker NetUnpacker Runs

namespace NetUnpacker
variable {host : Endian} {s s' : NetUnpacker} {packet : ByteVector} {copy : BodyCopy}

/-- Given `packet` in state `s`, the code executes the `memcpy` `copy`; `s'` is the state it does so in. -/
def Copies (host : Endian) (s : NetUnpacker) (packet : ByteVector) (copy : BodyCopy) (s' : NetUnpacker) : Prop :=
  (prepare host packet).run s = .ok (some copy) s'

def ReadsInside (host : Endian) (s : NetUnpacker) (packet : ByteVector) : Prop :=
  ∀ copy s', Copies host s packet copy s' → headerSize.toNat + copy.currentSize.toNat ≤ packet.length

/-- An executed copy computes its place without wrapping and stays inside the buffer. -/
def WritesInside (host : Endian) (s : NetUnpacker) (packet : ByteVector) : Prop :=
  ∀ copy s', Copies host s packet copy s' →
    (copy.offset + copy.currentSize).toNat = (headerOf host packet).currentPackageNum.toNat * 1478 +
      (headerOf host packet).currentPayloadSize.toNat ∧
    (copy.offset + copy.currentSize).toNat ≤ s'.buffer.length

/-- The packet is copied, and not as an empty piece at the start, though `resize` refused `totalSize`. -/
structure Overruns (host : Endian) (s : NetUnpacker) (packet : ByteVector) : Prop where
  refused : maxSize < s.totalSize.toNat
  wellFormed : WellFormed host packet
  fits : Fits s.totalSize (headerOf host packet)
  unseen : (headerOf host packet).currentPackageNum ∉ s.receivedIndices
  nonempty : 0 < (headerOf host packet).currentPackageNum.toNat * 1478 +
    (headerOf host packet).currentPayloadSize.toNat

theorem copies_iff : Copies host s packet copy s' ↔
    (WellFormed host packet ∧ ¬ Refused s (headerOf host packet) ∧
      Fits (opened s (headerOf host packet)).totalSize (headerOf host packet) ∧
      (headerOf host packet).currentPackageNum ∉ (opened s (headerOf host packet)).receivedIndices) ∧
    copy = ⟨(headerOf host packet).currentPackageNum.toUInt64 * maxPayloadSize,
      (headerOf host packet).currentPayloadSize.toUInt64⟩ ∧
    s' = { opened s (headerOf host packet) with
      receivedIndices := insert (headerOf host packet).currentPackageNum
        (opened s (headerOf host packet)).receivedIndices } := by
  unfold Copies
  by_cases hlen : packet.length < 22
  · rw [prepare_tooShort hlen]
    exact ⟨fun h => by (cases h), fun h => absurd hlen h.1.1.not_tooShort⟩
  by_cases hsof : (headerOf host packet).sof ≠ 0xCE9A
  · rw [prepare_badMark (Nat.not_lt.1 hlen) hsof]
    exact ⟨fun h => by (cases h), fun h => absurd h.1.1.sof hsof⟩
  have hw : WellFormed host packet := ⟨Nat.not_lt.1 hlen, not_not.1 hsof⟩
  by_cases hr : Refused s (headerOf host packet)
  · rw [prepare_refused hw hr]
    exact ⟨fun h => by (cases h), fun h => absurd hr h.1.2.1⟩
  rw [prepare_opened hw hr]
  by_cases hf : Fits (opened s (headerOf host packet)).totalSize (headerOf host packet)
  · by_cases hi : (headerOf host packet).currentPackageNum ∈ (opened s (headerOf host packet)).receivedIndices
    · rw [if_pos hf, if_pos hi]
      exact ⟨fun h => by (cases h), fun h => absurd hi h.1.2.2.2⟩
    · rw [if_pos hf, if_neg hi]
      constructor
      · intro h
        cases h
        exact ⟨⟨hw, hr, hf, hi⟩, rfl, rfl⟩
      · rintro ⟨-, rfl, rfl⟩
        rfl
  · rw [if_neg hf]
    exact ⟨fun h => by (cases h), fun h => absurd h.1.2.2.1 hf⟩

theorem Copies.toNat_end (h : Copies host s packet copy s') :
    (copy.offset + copy.currentSize).toNat = (headerOf host packet).currentPackageNum.toNat * 1478 +
      (headerOf host packet).currentPayloadSize.toNat := by
  obtain ⟨-, rfl, -⟩ := copies_iff.1 h
  exact NetUnpacker.toNat_end _ _

theorem Copies.toNat_currentSize (h : Copies host s packet copy s') :
    copy.currentSize.toNat = (headerOf host packet).currentPayloadSize.toNat := by
  obtain ⟨-, rfl, -⟩ := copies_iff.1 h
  exact UInt32.toNat_toUInt64 _

theorem Copies.buffer_eq (h : Copies host s packet copy s') :
    s'.buffer = (opened s (headerOf host packet)).buffer := by
  obtain ⟨-, -, rfl⟩ := copies_iff.1 h
  rfl

theorem writesInside_iff (hi : Inv s) : WritesInside host s packet ↔ ¬ Overruns host s packet := by
  constructor
  · rintro hin ⟨hn, hw, hf, hmem, hpos⟩
    have h0 : s.totalSize ≠ 0 := by
      intro h0
      rw [h0] at hn
      simp at hn
    have ho := opened_of_ne (h := headerOf host packet) h0
    have hcopy := copies_iff.2 ⟨⟨hw, fun hr => h0 hr.1, ho.symm ▸ hf, ho.symm ▸ hmem⟩, rfl, rfl⟩
    have hlen := (hin _ _ hcopy).2
    rw [hcopy.toNat_end, hcopy.buffer_eq, ho, hi.length, if_neg (Nat.not_le.2 hn)] at hlen
    omega
  · intro hno copy s' hcopy
    refine ⟨hcopy.toNat_end, ?_⟩
    obtain ⟨⟨hw, hr, hf, hmem⟩, -, -⟩ := copies_iff.1 hcopy
    rw [hcopy.toNat_end, hcopy.buffer_eq, (hi.opened hr).length]
    split
    · exact hf
    · rename_i hn
      have h0 : s.totalSize ≠ 0 := by
        intro h0
        rw [opened_totalSize, if_pos h0] at hn
        exact hr ⟨h0, Nat.not_le.1 hn⟩
      rw [opened_of_ne h0] at hn hf hmem
      exact Nat.le_of_not_lt fun hpos => hno ⟨Nat.not_le.1 hn, hw, hf, hmem, hpos⟩

/-- A receiver that awaits `2^43` bytes and holds only the fragment after `i`. -/
theorem reachable_awaiting (host : Endian) (i : UInt32) : ∃ s, Reachable (next host) fresh s ∧
    s.totalSize = 0x80000000000 ∧ i ∉ s.receivedIndices := by
  let hd : NetPackageHeader := { totalPayloadSize := 0x80000000000, currentPackageNum := i + 1 }
  let c : Call := { packet := wirePacket host hd [] }
  have hhd : headerOf host c.packet = hd := headerOf_wirePacket host hd []
  have hw : WellFormed host c.packet := wellFormed_wirePacket host rfl []
  have hr : ¬ Refused fresh hd := fun hr => absurd (show maxSize < 8796093022208 from hr.2) (by decide)
  have hidx := (i + 1).toNat_lt
  have hf : Fits (opened fresh hd).totalSize hd := by
    show (i + 1).toNat * 1478 + 0 ≤ 8796093022208
    omega
  have hadd : (addPacket host c).run fresh = .ok () (stored (opened fresh hd) hd c) := by
    have hmem : hd.currentPackageNum ∉ (opened fresh hd).receivedIndices := Finset.notMem_empty _
    rw [← hhd] at hr hf hmem ⊢
    exact addPacket_stored hw hr hf hmem
  refine ⟨stored (opened fresh hd) hd c, ⟨[c], ?_⟩, rfl, ?_⟩
  · rw [run_cons, run_nil, next, hadd]
    rfl
  · show i ∉ insert (i + 1) ∅
    intro hmem
    simp at hmem

theorem readsInside_of_le (h : WellFormed host packet →
    22 + (headerOf host packet).currentPayloadSize.toNat ≤ packet.length) : ReadsInside host s packet := by
  intro copy s' hcopy
  rw [hcopy.toNat_currentSize]
  exact h (copies_iff.1 hcopy).1.1

end NetUnpacker

/-- A packet is read within its bounds in every reachable state exactly when the header checks stop it
or it is as long as its header claims. -/
theorem reads_inside_iff (host : Endian) (packet : ByteVector) :
    (∀ s, Reachable (next host) fresh s → ReadsInside host s packet) ↔
      (packet.length < 22 ∨ (headerOf host packet).sof ≠ 0xCE9A ∨
        22 + (headerOf host packet).currentPayloadSize.toNat ≤ packet.length) := by
  constructor
  · intro hin
    by_contra hno
    simp only [not_or, Nat.not_lt, not_not, Nat.not_le] at hno
    obtain ⟨hlen, hsof, hshort⟩ := hno
    obtain ⟨s, hreach, hn, hmem⟩ := reachable_awaiting host (headerOf host packet).currentPackageNum
    have h0 : s.totalSize ≠ 0 := by rw [hn]; decide
    have ho := opened_of_ne (h := headerOf host packet) h0
    have hf : Fits s.totalSize (headerOf host packet) := by
      have := (headerOf host packet).currentPackageNum.toNat_lt
      have := (headerOf host packet).currentPayloadSize.toNat_lt
      show _ ≤ s.totalSize.toNat
      rw [hn]
      show _ ≤ 8796093022208
      omega
    have hcopy := copies_iff.2 ⟨⟨⟨hlen, hsof⟩, fun hr => h0 hr.1, ho.symm ▸ hf, ho.symm ▸ hmem⟩, rfl, rfl⟩
    have hread := hin s hreach _ _ hcopy
    rw [hcopy.toNat_currentSize, toNat_headerSize] at hread
    omega
  · intro hor s _
    refine readsInside_of_le fun hw => ?_
    rcases hor with hlen | hsof | hle
    · exact absurd hlen hw.not_tooShort
    · exact absurd hw.sof hsof
    · exact hle

def headerWithoutBody : ByteVector :=
  wirePacket .little { totalPayloadSize := 1, totalPackageNum := 1, currentPayloadSize := 1 } []

theorem headerWithoutBody_overread : ¬ ∀ s, Reachable (next .little) fresh s →
    ReadsInside .little s headerWithoutBody := by
  intro hin
  have hcopy : Copies .little fresh headerWithoutBody ⟨0, 1⟩
      { totalSize := 1, totalPackages := 1, buffer := [0], receivedIndices := {0} } := by rfl
  have hread := hin fresh (reachable_run fresh []) _ _ hcopy
  exact absurd hread (by decide +kernel)

theorem totalSize_le_next {host : Endian} {s : NetUnpacker} (c : Call) (hn : s.totalSize.toNat ≤ maxSize)
    (hr : WellFormed host c.packet → ¬ Refused s (headerOf host c.packet)) :
    (next host s c).totalSize.toNat ≤ maxSize := by
  rcases next_totalSize host s c with he | ⟨hw, h0, he⟩
  · rw [he]; exact hn
  · rw [he]; exact Nat.le_of_not_lt fun hlt => hr hw ⟨h0, hlt⟩

/-- In a run, every executed copy stays inside the buffer exactly when no packet is copied after
`resize` refused the size in `totalSize`; so it does wherever `resize` refuses nothing. -/
theorem writes_inside_iff (host : Endian) (calls : List Call) :
    (EveryStep (next host) (fun s c => WritesInside host s c.packet) fresh calls ↔
      EveryStep (next host) (fun s c => ¬ Overruns host s c.packet) fresh calls) ∧
    (EveryStep (next host) (fun s c => WellFormed host c.packet → ¬ Refused s (headerOf host c.packet))
        fresh calls →
      EveryStep (next host) (fun s c => WritesInside host s c.packet) fresh calls) := by
  have hiff : EveryStep (next host) (fun s c => WritesInside host s c.packet) fresh calls ↔
      EveryStep (next host) (fun s c => ¬ Overruns host s c.packet) fresh calls :=
    everyStep_congr (fun _ hi c => hi.next c) (fun _ hi _ => writesInside_iff hi) .fresh
  refine ⟨hiff, fun hno => hiff.2 ?_⟩
  exact hno.imp (P := fun s => s.totalSize.toNat ≤ maxSize) (fun _ hn c hr => totalSize_le_next c hn hr)
    (fun _ hn _ _ hover => absurd hn (Nat.not_le.2 hover.refused)) (Nat.zero_le _)

def headerOfHugeMessage : ByteVector :=
  wirePacket .little { totalPayloadSize := 0x8000000000000000, totalPackageNum := 1 } []

theorem hugeMessage_overrun : ¬ EveryStep (next .little) (fun s c => WritesInside .little s c.packet) fresh
    [{ packet := headerOfHugeMessage }, { packet := packetOfSeven }] := by
  rintro ⟨-, hin, -⟩
  have hnext : next .little fresh { packet := headerOfHugeMessage } =
      { totalSize := 0x8000000000000000, totalPackages := 1 } := by rfl
  have hcopy : Copies .little { totalSize := 0x8000000000000000, totalPackages := 1 } packetOfSeven ⟨0, 1⟩
      { totalSize := 0x8000000000000000, totalPackages := 1, receivedIndices := {0} } := by rfl
  rw [hnext] at hin
  exact absurd (hin _ _ hcopy).2 (by decide)

end CcTools
