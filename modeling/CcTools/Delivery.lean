import CcTools.Fragments
import CcTools.Indices

/-!
# Delivery of one payload

After any packets of `pack payload`, in any order and with any repetition, the receiver is
`snapshot payload R`, where `R` is the set of the indices delivered: a function of that set alone.
-/

namespace CcTools
open NetPacker NetUnpacker Runs

/-- The receiver that got the fragments `R` of `payload`. -/
def snapshot (payload : ByteVector) (R : Finset UInt32) : NetUnpacker where
  totalSize := UInt64.ofNat payload.length
  totalPackages := totalPackagesOf payload
  receivedCount := UInt32.ofNat R.card
  buffer := masked (fun pos => UInt32.ofNat (pos / 1478) ∈ R) 0 payload
  receivedIndices := R

/-- The receiver holds the fragments `R`: none of them before the first packet. -/
def Holds (payload : ByteVector) (R : Finset UInt32) (s : NetUnpacker) : Prop :=
  s = snapshot payload R ∨ R = ∅ ∧ s = fresh

def indexSet (host : Endian) (calls : List Call) : Finset UInt32 :=
  (calls.map fun c => (headerOf host c.packet).currentPackageNum).toFinset

theorem union_indexSet_cons (host : Endian) (R : Finset UInt32) (c : Call) (calls : List Call) :
    R ∪ indexSet host (c :: calls) =
      insert (headerOf host c.packet).currentPackageNum R ∪ indexSet host calls := by
  simp only [indexSet, List.map_cons, List.toFinset_cons, Finset.union_insert, Finset.insert_union]

namespace Packable
variable {host : Endian} {payload : ByteVector} {R : Finset UInt32} {i : UInt32} {c : Call} {s : NetUnpacker}

theorem mem_fragments {packet : ByteVector} : packet ∈ fragments host payload ↔
    ∃ i < totalPackagesOf payload, packFragment host payload (totalPackagesOf payload) i = packet := by
  simp only [fragments, List.mem_map, mem_indicesBelow]

theorem headerOf_self (h : Packable payload) (hi : i < totalPackagesOf payload) :
    headerOf host (packFragment host payload (totalPackagesOf payload) i) = fragmentHeader payload i := by
  rw [h.headerOf_packFragment hi, NetPackageHeader.sofSeen_self]
  rfl

theorem wellFormed (h : Packable payload) (hi : i < totalPackagesOf payload) :
    WellFormed host (packFragment host payload (totalPackagesOf payload) i) where
  size := by rw [h.length_packFragment hi, toNat_headerSize]; omega
  sof := by rw [h.headerOf_self hi]; rfl

theorem size_ne_zero (h : Packable payload) : UInt64.ofNat payload.length ≠ 0 := by
  intro h0
  have hpos := h.pos
  have hsize := h.toNat_size
  rw [h0] at hsize
  exact absurd hsize (Nat.ne_of_lt hpos)

theorem not_refused (h : Packable payload) : ¬ Refused s (fragmentHeader payload i) := by
  rintro ⟨-, hn⟩
  have hle := h.le
  rw [show (fragmentHeader payload i).totalPayloadSize = UInt64.ofNat payload.length from rfl,
    h.toNat_size] at hn
  unfold maxSize at hn
  omega

theorem fits (h : Packable payload) (hi : i < totalPackagesOf payload) :
    Fits (UInt64.ofNat payload.length) (fragmentHeader payload i) := by
  have hlt := h.toNat_offset_lt hi
  unfold Fits
  rw [h.toNat_size, show (fragmentHeader payload i).currentPayloadSize =
    UInt32.ofNat (bodySize payload i.toNat) from rfl, toNat_bodySize,
    show (fragmentHeader payload i).currentPackageNum = i from rfl, bodySize]
  omega

/-- The positions of fragment `i` are those whose quotient by 1478 is `i`. -/
theorem ofNat_div_eq_iff (h : Packable payload) {pos : Nat} (hpos : pos < payload.length) :
    UInt32.ofNat (pos / 1478) = i ↔ i.toNat * 1478 ≤ pos ∧ pos < i.toNat * 1478 + bodySize payload i.toNat := by
  have hle := h.le
  rw [← UInt32.toNat_inj, UInt32.toNat_ofNat_of_lt' (by simp only [UInt32.size]; omega), bodySize]
  omega

theorem opened_fresh (h : Packable payload) :
    opened fresh (fragmentHeader payload i) = snapshot payload ∅ := by
  have hbuf : masked (fun pos => UInt32.ofNat (pos / 1478) ∈ (∅ : Finset UInt32)) 0 payload =
      List.replicate payload.length 0 := masked_none fun pos _ => Finset.notMem_empty _
  simp only [opened, fresh, ↓reduceIte, snapshot, hbuf, fragmentHeader, h.toNat_size]
  simp

theorem opened_snapshot (h : Packable payload) {hd : NetPackageHeader} :
    opened (snapshot payload R) hd = snapshot payload R :=
  opened_of_ne h.size_ne_zero

theorem opened_holds (h : Packable payload) (hs : Holds payload R s) :
    opened s (fragmentHeader payload i) = snapshot payload R := by
  rcases hs with rfl | ⟨rfl, rfl⟩
  · exact h.opened_snapshot
  · exact h.opened_fresh

theorem stored_snapshot (h : Packable payload) (hi : i < totalPackagesOf payload) (hmem : i ∉ R)
    (hc : c.packet = packFragment host payload (totalPackagesOf payload) i) :
    stored (snapshot payload R) (fragmentHeader payload i) c = snapshot payload (insert i R) := by
  have hread : c.read headerSize.toNat (fragmentHeader payload i).currentPayloadSize.toNat =
      slice payload (i.toNat * 1478) (bodySize payload i.toNat) := by
    have hlen : c.packet.length = 22 + bodySize payload i.toNat := by rw [hc, h.length_packFragment hi]
    rw [show (fragmentHeader payload i).currentPayloadSize = UInt32.ofNat (bodySize payload i.toNat) from rfl,
      toNat_bodySize, toNat_headerSize, Call.read_eq_slice c (by omega), hc, h.slice_packFragment hi]
  have hbuf : overlay (masked (fun pos => UInt32.ofNat (pos / 1478) ∈ R) 0 payload) (i.toNat * 1478)
      (slice payload (i.toNat * 1478) (bodySize payload i.toNat)) =
        masked (fun pos => UInt32.ofNat (pos / 1478) ∈ insert i R) 0 payload := by
    rw [overlay_masked]
    refine masked_congr fun pos hpos => ?_
    rw [← h.ofNat_div_eq_iff hpos, Finset.mem_insert, or_comm]
  have hcount : UInt32.ofNat R.card + 1 = UInt32.ofNat (insert i R).card := by
    rw [Finset.card_insert_of_notMem hmem, UInt32.ofNat_add]; rfl
  simp only [stored, hread]
  show NetUnpacker.mk _ _ (UInt32.ofNat R.card + 1) (overlay (masked _ 0 payload) (i.toNat * 1478) _)
    (insert i R) = _
  rw [hbuf, hcount]
  rfl

theorem addPacket_fragment (h : Packable payload) (hi : i < totalPackagesOf payload) (hs : Holds payload R s)
    (hc : c.packet = packFragment host payload (totalPackagesOf payload) i) :
    (addPacket host c).run s = .ok () (snapshot payload (insert i R)) := by
  have hhd : headerOf host c.packet = fragmentHeader payload i := by rw [hc, h.headerOf_self hi]
  have hw : WellFormed host c.packet := hc ▸ h.wellFormed hi
  have hr : ¬ Refused s (headerOf host c.packet) := hhd ▸ h.not_refused
  have ho : opened s (headerOf host c.packet) = snapshot payload R := by rw [hhd, h.opened_holds hs]
  have hf : Fits (opened s (headerOf host c.packet)).totalSize (headerOf host c.packet) := by
    rw [ho, hhd]; exact h.fits hi
  by_cases hmem : i ∈ R
  · have hmem' : (headerOf host c.packet).currentPackageNum ∈
        (opened s (headerOf host c.packet)).receivedIndices := by rw [ho, hhd]; exact hmem
    rw [addPacket_repeated hw hr hf hmem', ho, Finset.insert_eq_of_mem hmem]
  · have hmem' : (headerOf host c.packet).currentPackageNum ∉
        (opened s (headerOf host c.packet)).receivedIndices := by rw [ho, hhd]; exact hmem
    rw [addPacket_stored hw hr hf hmem', ho, hhd, h.stored_snapshot hi hmem hc]

theorem next_fragment (h : Packable payload) (hs : Holds payload R s) (hc : c.packet ∈ fragments host payload) :
    Accepts host s c ∧
      next host s c = snapshot payload (insert (headerOf host c.packet).currentPackageNum R) := by
  obtain ⟨i, hi, hpkt⟩ := mem_fragments.1 hc
  have hadd := h.addPacket_fragment hi hs hpkt.symm
  refine ⟨⟨_, hadd⟩, ?_⟩
  rw [next, hadd, ← hpkt, h.headerOf_self hi]
  rfl

theorem run_fragments (h : Packable payload) (calls : List Call) (hs : Holds payload R s)
    (hc : ∀ c ∈ calls, c.packet ∈ fragments host payload) :
    EveryStep (next host) (Accepts host) s calls ∧
      Holds payload (R ∪ indexSet host calls) (run (next host) s calls) := by
  induction calls generalizing R s with
  | nil => exact ⟨trivial, by simpa [indexSet] using hs⟩
  | cons c calls ih =>
    obtain ⟨hacc, hnext⟩ := h.next_fragment hs (hc c (List.mem_cons_self ..))
    have hrest := ih (.inl hnext) fun c hc' => hc c (List.mem_cons_of_mem _ hc')
    refine ⟨⟨hacc, hrest.1⟩, ?_⟩
    rw [union_indexSet_cons]
    exact hrest.2

end Packable
end CcTools
