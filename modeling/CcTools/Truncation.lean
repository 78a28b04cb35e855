import CcTools.Layout
import Mathlib.Algebra.Order.BigOperators.Group.List

/-!
# The fragment count in 32 bits

`pack` narrows the number of fragments to the 32 bits of the header field and never looks back.
`pack_drops_nothing_iff`: data is lost, without a word, exactly above `1478 * (2 ^ 32 - 1)` bytes.
-/

namespace CcTools
open NetPacker NetUnpacker

/-- The packets hold the whole payload, and the header of each says how many there are. -/
structure HoldsAll (host : Endian) (payload : ByteVector) (pkts : NetPackages) : Prop where
  count : ∀ packet ∈ pkts, (headerOf host packet).totalPackageNum.toNat = pkts.length
  bodies : pkts.flatMap (·.drop headerSize.toNat) = payload

/-- `pack` throws, or drops nothing. -/
def NeverSilent (host : Endian) (payload : ByteVector) : Prop :=
  ∀ pkts, pack host payload = .ok pkts → HoldsAll host payload pkts

theorem Packable.holdsAll {payload : ByteVector} (h : Packable payload) (host : Endian) :
    HoldsAll host payload (fragments host payload) where
  count packet hmem := by
    obtain ⟨i, hi, rfl⟩ := mem_fragments.1 hmem
    rw [h.headerOf_self hi, length_fragments]
    rfl
  bodies := h.flatMap_fragments host

section
variable (host : Endian) (payload : ByteVector)

/-- However far `i * maxPayloadSize` lies outside, the `if` of the loop caps a body at 1478 bytes. -/
theorem length_body_le (total i : UInt32) :
    ((packFragment host payload total i).drop headerSize.toNat).length ≤ 1478 := by
  unfold packFragment serialize
  simp only [List.length_drop, length_overlay, List.length_replicate]
  generalize UInt64.ofNat payload.length - i.toUInt64 * maxPayloadSize = remaining
  have hcur : (if remaining > maxPayloadSize then maxPayloadSize else remaining).toNat ≤ 1478 := by
    split
    · simp
    · rename_i hle
      rw [gt_iff_lt, UInt64.lt_iff_toNat_lt, toNat_maxPayloadSize] at hle
      omega
  rw [UInt64.toNat_add, toNat_headerSize]
  omega

theorem length_bodies_le :
    ((fragments host payload).flatMap (·.drop headerSize.toNat)).length ≤ 1478 * (2 ^ 32 - 1) := by
  have hlen : (fragments host payload).length ≤ 2 ^ 32 - 1 := by
    have := (totalPackagesOf payload).toNat_lt
    rw [Packable.length_fragments]
    omega
  have hbody : ∀ n ∈ (fragments host payload).map (fun packet => (packet.drop headerSize.toNat).length), n ≤ 1478 := by
    intro n hn
    rcases List.mem_map.1 hn with ⟨packet, hmem, rfl⟩
    rcases List.mem_map.1 hmem with ⟨i, -, rfl⟩
    exact length_body_le host payload _ i
  calc
    ((fragments host payload).flatMap (·.drop headerSize.toNat)).length =
        ((fragments host payload).map fun packet => (packet.drop headerSize.toNat).length).sum := by
      rw [List.length_flatMap]
    _ ≤ (fragments host payload).length * 1478 := by
      simpa using List.sum_le_card_nsmul _ _ hbody
    _ ≤ 1478 * (2 ^ 32 - 1) := by omega

theorem not_neverSilent (h : 1478 * (2 ^ 32 - 1) < payload.length) : ¬ NeverSilent host payload := by
  intro hs
  have hle := length_bodies_le host payload
  rw [(hs _ (pack_eq (by omega))).bodies] at hle
  omega

end

/-- Of the payloads a vector can hold, `pack` keeps those whose fragments 32 bits can count. -/
theorem pack_drops_nothing_iff (host : Endian) (payload : ByteVector) (h0 : 0 < payload.length)
    (hn : payload.length ≤ 2 ^ 63 - 1) :
    NeverSilent host payload ↔ payload.length ≤ 1478 * (2 ^ 32 - 1) := by
  constructor
  · intro hs
    by_contra hlt
    exact not_neverSilent host payload (by omega) hs
  · intro hle pkts hp
    obtain rfl : fragments host payload = pkts := Except.ok.inj ((pack_eq h0).symm.trans hp)
    exact Packable.holdsAll ⟨h0, hle⟩ host

theorem pack_drops_nothing_seven : NeverSilent .little [7] :=
  (pack_drops_nothing_iff .little [7] (by decide) (by decide)).2 (by decide)

/-- One byte more than `2 ^ 32 - 1` full fragments: the count is narrowed to zero. -/
theorem pack_drops_all : ¬ NeverSilent .little (List.replicate (1478 * (2 ^ 32 - 1) + 1) 0) := by
  apply not_neverSilent
  rw [List.length_replicate]
  omega

end CcTools
