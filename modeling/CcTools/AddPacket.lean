import CcTools.NetUnpacker

/-!
# What one `addPacket` can do

`addPacket_outcome` is the case analysis of the function, guards included, over natural numbers: the
offsets never wrap (`toNat_offset`, `toNat_end`). Everything about the receiver is derived from it.
-/

namespace CcTools

@[simp] theorem toNat_headerSize : headerSize.toNat = 22 := rfl

@[simp] theorem toNat_maxPayloadSize : maxPayloadSize.toNat = 1478 := rfl

namespace Call

theorem read_eq_slice (c : Call) {off n : Nat} (h : off + n ≤ c.packet.length) :
    c.read off n = slice c.packet off n := by
  apply List.ext_getElem?
  intro i
  rw [getElem?_slice]
  split
  · rename_i hi
    have hlt : off + i < c.packet.length := by omega
    simp [read, hi, List.getD_eq_getElem?_getD, List.getElem?_eq_getElem hlt]
  · rename_i hi
    simp [read, hi]

end Call

namespace NetUnpacker

/-- The header of a packet, its numbers in host order. -/
def headerOf (host : Endian) (packet : ByteVector) : NetPackageHeader :=
  let header := deserialize host packet
  { sof := header.sof
    totalPayloadSize := fromNetwork64 host header.totalPayloadSize
    totalPackageNum := fromNetwork32 host header.totalPackageNum
    currentPackageNum := fromNetwork32 host header.currentPackageNum
    currentPayloadSize := fromNetwork32 host header.currentPayloadSize }

/-- The packet passes the two checks made before anything is assigned. -/
structure WellFormed (host : Endian) (packet : ByteVector) : Prop where
  size : headerSize.toNat ≤ packet.length
  sof : (headerOf host packet).sof = 0xCE9A

instance (host : Endian) (packet : ByteVector) : Decidable (WellFormed host packet) :=
  decidable_of_iff (headerSize.toNat ≤ packet.length ∧ (headerOf host packet).sof = 0xCE9A)
    ⟨fun h => ⟨h.1, h.2⟩, fun h => ⟨h.1, h.2⟩⟩

/-- The fragment's place lies inside `totalSize` bytes. -/
def Fits (totalSize : UInt64) (h : NetPackageHeader) : Prop :=
  h.currentPackageNum.toNat * 1478 + h.currentPayloadSize.toNat ≤ totalSize.toNat

instance (totalSize : UInt64) (h : NetPackageHeader) : Decidable (Fits totalSize h) :=
  inferInstanceAs (Decidable (_ ≤ _))

/-- `buffer.resize` refuses the size that a first packet announces. -/
def Refused (s : NetUnpacker) (h : NetPackageHeader) : Prop :=
  s.totalSize = 0 ∧ maxSize < h.totalPayloadSize.toNat

instance (s : NetUnpacker) (h : NetPackageHeader) : Decidable (Refused s h) :=
  inferInstanceAs (Decidable (_ ∧ _))

/-- The state after `begin`, where `resize` goes through. -/
def opened (s : NetUnpacker) (h : NetPackageHeader) : NetUnpacker :=
  if s.totalSize = 0 then
    { totalSize := h.totalPayloadSize
      totalPackages := h.totalPackageNum
      buffer := s.buffer.take h.totalPayloadSize.toNat ++
        List.replicate (h.totalPayloadSize.toNat - s.buffer.length) 0 }
  else s

/-- The state after the body of a new index was copied to its place. -/
def stored (s : NetUnpacker) (h : NetPackageHeader) (c : Call) : NetUnpacker :=
  { s with
    receivedCount := s.receivedCount + 1
    buffer := overlay s.buffer (h.currentPackageNum.toNat * 1478)
      (c.read headerSize.toNat h.currentPayloadSize.toNat)
    receivedIndices := insert h.currentPackageNum s.receivedIndices }

theorem toNat_offset (i : UInt32) : (i.toUInt64 * maxPayloadSize).toNat = i.toNat * 1478 := by
  have := i.toNat_lt
  rw [UInt64.toNat_mul, UInt32.toNat_toUInt64, toNat_maxPayloadSize]
  omega

theorem toNat_end (i n : UInt32) :
    (i.toUInt64 * maxPayloadSize + n.toUInt64).toNat = i.toNat * 1478 + n.toNat := by
  have := i.toNat_lt
  have := n.toNat_lt
  rw [UInt64.toNat_add, toNat_offset, UInt32.toNat_toUInt64]
  omega

section
variable {host : Endian} {s : NetUnpacker} {packet : ByteVector} {memory : Memory}

theorem begin_refused {h : NetPackageHeader} (h0 : s.totalSize = 0)
    (hn : maxSize < (fromNetwork64 host h.totalPayloadSize).toNat) :
    (begin host h memory).run s = .error (.lengthError "vector::_M_default_append")
      { s with totalSize := fromNetwork64 host h.totalPayloadSize
               totalPackages := fromNetwork32 host h.totalPackageNum } := by
  simp [begin, resize, h0, hn]

theorem begin_opened (hr : ¬ Refused s (headerOf host packet)) :
    (begin host (deserialize host packet)).run s = .ok () (opened s (headerOf host packet)) := by
  by_cases h0 : s.totalSize = 0
  · have hn : ¬ maxSize < (fromNetwork64 host (deserialize host packet).totalPayloadSize).toNat :=
      fun hn => hr ⟨h0, hn⟩
    simp [begin, resize, h0, hn, opened, headerOf]
  · simp [begin, h0, opened]

theorem WellFormed.not_tooShort (hw : WellFormed host packet) : ¬ packet.length < 22 := Nat.not_lt.2 hw.size

theorem prepare_tooShort (h : packet.length < 22) :
    (prepare host packet memory).run s = .error (.runtimeError "invalid packet size") s := by
  simp [prepare, h]

theorem prepare_badMark (h : 22 ≤ packet.length) (hsof : (headerOf host packet).sof ≠ 0xCE9A) :
    (prepare host packet memory).run s = .error (.runtimeError "invalid packet header") s := by
  have hsof' : (deserialize host packet).sof ≠ 0xCE9A := hsof
  simp [prepare, Nat.not_lt.2 h, hsof']

theorem prepare_refused (hw : WellFormed host packet) (hr : Refused s (headerOf host packet)) :
    (prepare host packet memory).run s = .error (.lengthError "vector::_M_default_append")
      { s with totalSize := (headerOf host packet).totalPayloadSize
               totalPackages := (headerOf host packet).totalPackageNum } := by
  have hsof : (deserialize host packet).sof = 0xCE9A := hw.sof
  have hlen : ¬ packet.length < headerSize.toNat := hw.not_tooShort
  simp only [prepare, hlen, hsof, ↓reduceIte, ne_eq, not_true_eq_false, EStateM.run_bind,
    begin_refused hr.1 hr.2]
  rfl

theorem gt_iff_not_fits (host : Endian) (packet : ByteVector) (n : UInt64) :
    (headerOf host packet).currentPackageNum.toUInt64 * maxPayloadSize +
        (headerOf host packet).currentPayloadSize.toUInt64 > n ↔ ¬ Fits n (headerOf host packet) := by
  rw [gt_iff_lt, UInt64.lt_iff_toNat_lt, toNat_end, Fits, Nat.not_le]

theorem prepare_opened (hw : WellFormed host packet) (hr : ¬ Refused s (headerOf host packet)) :
    (prepare host packet).run s =
      if Fits (opened s (headerOf host packet)).totalSize (headerOf host packet) then
        if (headerOf host packet).currentPackageNum ∈ (opened s (headerOf host packet)).receivedIndices then
          .ok none (opened s (headerOf host packet))
        else
          .ok (some ⟨(headerOf host packet).currentPackageNum.toUInt64 * maxPayloadSize,
              (headerOf host packet).currentPayloadSize.toUInt64⟩)
            { opened s (headerOf host packet) with
              receivedIndices := insert (headerOf host packet).currentPackageNum
                (opened s (headerOf host packet)).receivedIndices }
      else .error (.runtimeError "payload out of range") (opened s (headerOf host packet)) := by
  have hsof : (deserialize host packet).sof = 0xCE9A := hw.sof
  have hlen : ¬ packet.length < headerSize.toNat := hw.not_tooShort
  have hgt := gt_iff_not_fits host packet (opened s (headerOf host packet)).totalSize
  have hidx : fromNetwork32 host (deserialize host packet).currentPackageNum =
      (headerOf host packet).currentPackageNum := rfl
  have hsize : fromNetwork32 host (deserialize host packet).currentPayloadSize =
      (headerOf host packet).currentPayloadSize := rfl
  simp only [prepare, hlen, hsof, ↓reduceIte, ne_eq, not_true_eq_false, EStateM.run_bind,
    begin_opened hr, EStateM.run_get, hidx, hsize, hgt]
  by_cases hf : Fits (opened s (headerOf host packet)).totalSize (headerOf host packet)
  · simp only [hf, not_true_eq_false, ↓reduceIte, EStateM.run_bind, EStateM.run_get]
    split <;> rfl
  · simp only [hf, not_false_eq_true, ↓reduceIte]
    rfl

end

theorem addPacket_repeated {host : Endian} {s : NetUnpacker} {c : Call} (hw : WellFormed host c.packet)
    (hr : ¬ Refused s (headerOf host c.packet))
    (hf : Fits (opened s (headerOf host c.packet)).totalSize (headerOf host c.packet))
    (hi : (headerOf host c.packet).currentPackageNum ∈
      (opened s (headerOf host c.packet)).receivedIndices) :
    (addPacket host c).run s = .ok () (opened s (headerOf host c.packet)) := by
  simp only [addPacket, EStateM.run_bind, prepare_opened hw hr, hf, hi, ↓reduceIte]
  rfl

theorem addPacket_stored {host : Endian} {s : NetUnpacker} {c : Call} (hw : WellFormed host c.packet)
    (hr : ¬ Refused s (headerOf host c.packet))
    (hf : Fits (opened s (headerOf host c.packet)).totalSize (headerOf host c.packet))
    (hi : (headerOf host c.packet).currentPackageNum ∉
      (opened s (headerOf host c.packet)).receivedIndices) :
    (addPacket host c).run s =
      .ok () (stored (opened s (headerOf host c.packet)) (headerOf host c.packet) c) := by
  simp only [addPacket, EStateM.run_bind, prepare_opened hw hr, hf, hi, ↓reduceIte,
    EStateM.run_modify, toNat_offset, UInt32.toNat_toUInt64]
  rfl

theorem addPacket_outOfRange {host : Endian} {s : NetUnpacker} {c : Call} (hw : WellFormed host c.packet)
    (hr : ¬ Refused s (headerOf host c.packet))
    (hf : ¬ Fits (opened s (headerOf host c.packet)).totalSize (headerOf host c.packet)) :
    (addPacket host c).run s =
      .error (.runtimeError "payload out of range") (opened s (headerOf host c.packet)) := by
  simp only [addPacket, EStateM.run_bind, prepare_opened hw hr, hf, ↓reduceIte]

/-- Everything a call of `addPacket` in state `s` can come to. -/
inductive Outcome (host : Endian) (s : NetUnpacker) (c : Call) :
    EStateM.Result Exception NetUnpacker Unit → Prop
  | tooShort (h : c.packet.length < 22) :
    Outcome host s c (.error (.runtimeError "invalid packet size") s)
  | badMark (h : 22 ≤ c.packet.length) (hsof : (headerOf host c.packet).sof ≠ 0xCE9A) :
    Outcome host s c (.error (.runtimeError "invalid packet header") s)
  /-- `totalSize` and `totalPackages` are set already when `resize` throws. -/
  | refused (hw : WellFormed host c.packet) (hr : Refused s (headerOf host c.packet)) :
    Outcome host s c (.error (.lengthError "vector::_M_default_append")
      { s with totalSize := (headerOf host c.packet).totalPayloadSize
               totalPackages := (headerOf host c.packet).totalPackageNum })
  | outOfRange (hw : WellFormed host c.packet) (hr : ¬ Refused s (headerOf host c.packet))
    (hf : ¬ Fits (opened s (headerOf host c.packet)).totalSize (headerOf host c.packet)) :
    Outcome host s c (.error (.runtimeError "payload out of range") (opened s (headerOf host c.packet)))
  | repeated (hw : WellFormed host c.packet) (hr : ¬ Refused s (headerOf host c.packet))
    (hf : Fits (opened s (headerOf host c.packet)).totalSize (headerOf host c.packet))
    (hi : (headerOf host c.packet).currentPackageNum ∈
      (opened s (headerOf host c.packet)).receivedIndices) :
    Outcome host s c (.ok () (opened s (headerOf host c.packet)))
  | stored (hw : WellFormed host c.packet) (hr : ¬ Refused s (headerOf host c.packet))
    (hf : Fits (opened s (headerOf host c.packet)).totalSize (headerOf host c.packet))
    (hi : (headerOf host c.packet).currentPackageNum ∉
      (opened s (headerOf host c.packet)).receivedIndices) :
    Outcome host s c (.ok ()
      (NetUnpacker.stored (opened s (headerOf host c.packet)) (headerOf host c.packet) c))

theorem addPacket_outcome (host : Endian) (s : NetUnpacker) (c : Call) :
    Outcome host s c ((addPacket host c).run s) := by
  by_cases hlen : c.packet.length < 22
  · simp only [addPacket, EStateM.run_bind, prepare_tooShort hlen]
    exact .tooShort hlen
  by_cases hsof : (headerOf host c.packet).sof ≠ 0xCE9A
  · simp only [addPacket, EStateM.run_bind, prepare_badMark (Nat.not_lt.1 hlen) hsof]
    exact .badMark (Nat.not_lt.1 hlen) hsof
  have hw : WellFormed host c.packet := ⟨Nat.not_lt.1 hlen, not_not.1 hsof⟩
  by_cases hr : Refused s (headerOf host c.packet)
  · simp only [addPacket, EStateM.run_bind, prepare_refused hw hr]
    exact .refused hw hr
  by_cases hf : Fits (opened s (headerOf host c.packet)).totalSize (headerOf host c.packet)
  · by_cases hi : (headerOf host c.packet).currentPackageNum ∈
      (opened s (headerOf host c.packet)).receivedIndices
    · rw [addPacket_repeated hw hr hf hi]
      exact .repeated hw hr hf hi
    · rw [addPacket_stored hw hr hf hi]
      exact .stored hw hr hf hi
  · rw [addPacket_outOfRange hw hr hf]
    exact .outOfRange hw hr hf

end NetUnpacker
end CcTools
