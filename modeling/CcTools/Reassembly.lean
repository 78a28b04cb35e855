import CcTools.Delivery
import Mathlib.Algebra.Order.Floor.Div
import Mathlib.GroupTheory.GroupAction.Ring

/-!
# Reassembly of one payload

The receiver as its callers see it after any part of the packets of one payload (`partial_reassembly`),
and the round trip once every packet came at least once (`pack_round_trip`).
-/

namespace CcTools
open NetPacker NetUnpacker Runs

def Delivered (pkts : NetPackages) (calls : List Call) (i : UInt32) : Prop :=
  ∃ c ∈ calls, pkts[i.toNat]? = some c.packet

/-- What the four observers and the buffer show after some packets of `payload` came. -/
structure PartialState (payload : ByteVector) (pkts : NetPackages) (calls : List Call) (s : NetUnpacker) :
    Prop where
  received : ∀ i, i ∈ s.getReceivedIndices ↔ Delivered pkts calls i
  missing_sorted : s.getMissingIndices.Pairwise (· < ·)
  missing : ∀ i, i ∈ s.getMissingIndices ↔ i.toNat < pkts.length ∧ ¬ Delivered pkts calls i
  complete : s.isComplete = true ↔ s.getMissingIndices = []
  throws : (∃ e, s.getPayload = .error e) ↔ s.getMissingIndices ≠ []
  length : s.buffer.length = payload.length
  /-- On the range of a delivered fragment the buffer is the payload. -/
  delivered : ∀ i, Delivered pkts calls i → slice s.buffer (i.toNat * 1478) (bodySize payload i.toNat) =
    slice payload (i.toNat * 1478) (bodySize payload i.toNat)
  /-- Outside these ranges it is zero. -/
  elsewhere : ∀ pos < payload.length,
    (∀ i, Delivered pkts calls i → ¬ (i.toNat * 1478 ≤ pos ∧ pos < i.toNat * 1478 + bodySize payload i.toNat)) →
      s.buffer[pos]? = some 0

namespace Packable
variable {host : Endian} {payload : ByteVector} {R : Finset UInt32} {calls : List Call}

theorem length_fragments : (fragments host payload).length = (totalPackagesOf payload).toNat := by
  rw [fragments, List.length_map, length_indicesBelow]

theorem count_fragments (h : Packable payload) : (fragments host payload).length = payload.length ⌈/⌉ 1478 := by
  rw [length_fragments, h.toNat_totalPackagesOf, Nat.ceilDiv_eq_add_pred_div]
  rfl

theorem getElem?_fragments {i : UInt32} {packet : ByteVector} :
    (fragments host payload)[i.toNat]? = some packet ↔
    i < totalPackagesOf payload ∧ packFragment host payload (totalPackagesOf payload) i = packet := by
  rw [fragments, indicesBelow, List.getElem?_map, List.getElem?_map, UInt32.lt_iff_toNat_lt]
  by_cases hi : i.toNat < (totalPackagesOf payload).toNat
  · rw [List.getElem?_range hi]
    simp [hi]
  · rw [List.getElem?_eq_none (by simpa using hi)]
    simp [hi]

theorem mem_indexSet (h : Packable payload) (hc : ∀ c ∈ calls, c.packet ∈ fragments host payload) {i : UInt32} :
    i ∈ indexSet host calls ↔ Delivered (fragments host payload) calls i := by
  simp only [indexSet, List.mem_toFinset, List.mem_map, Delivered, getElem?_fragments]
  constructor
  · rintro ⟨c, hmem, rfl⟩
    obtain ⟨k, hk, hpkt⟩ := mem_fragments.1 (hc c hmem)
    have hidx : (headerOf host c.packet).currentPackageNum = k := by rw [← hpkt, h.headerOf_self hk]; rfl
    exact ⟨c, hmem, hidx ▸ hk, hidx ▸ hpkt⟩
  · rintro ⟨c, hmem, hi, hpkt⟩
    exact ⟨c, hmem, by rw [← hpkt, h.headerOf_self hi]; rfl⟩

theorem lt_of_mem_indexSet (h : Packable payload) (hc : ∀ c ∈ calls, c.packet ∈ fragments host payload) :
    ∀ i ∈ indexSet host calls, i < totalPackagesOf payload := by
  intro i hi
  obtain ⟨c, -, hget⟩ := (h.mem_indexSet hc).1 hi
  exact (getElem?_fragments.1 hget).1

theorem run_eq_snapshot (h : Packable payload) (hne : calls ≠ [])
    (hc : ∀ c ∈ calls, c.packet ∈ fragments host payload) :
    run (next host) fresh calls = snapshot payload (indexSet host calls) := by
  have hrun := (h.run_fragments calls (.inr ⟨rfl, rfl⟩) hc).2
  rw [Finset.empty_union] at hrun
  rcases hrun with hrun | ⟨hempty, -⟩
  · exact hrun
  · cases calls with
    | nil => exact absurd rfl hne
    | cons c calls => simp [indexSet] at hempty

theorem snapshot_isComplete_iff (hR : ∀ i ∈ R, i < totalPackagesOf payload) :
    (snapshot payload R).isComplete = true ↔ ∀ i < totalPackagesOf payload, i ∈ R :=
  isComplete_iff (s := snapshot payload R) rfl hR

theorem snapshot_getPayload (h : Packable payload) (hR : ∀ i ∈ R, i < totalPackagesOf payload)
    (hall : ∀ i < totalPackagesOf payload, i ∈ R) : (snapshot payload R).getPayload = .ok payload := by
  rw [getPayload_of_isComplete ((snapshot_isComplete_iff hR).2 hall)]
  show Except.ok (masked (fun pos => UInt32.ofNat (pos / 1478) ∈ R) 0 payload) = _
  rw [masked_all]
  intro pos hpos
  have hle := h.le
  have hdiv : pos / 1478 < UInt32.size := by simp only [UInt32.size]; omega
  refine hall _ (h.lt_totalPackagesOf.2 ?_)
  rw [UInt32.toNat_ofNat_of_lt' hdiv]
  omega

theorem slice_snapshot (h : Packable payload) {i : UInt32} (hi : i ∈ R) :
    slice (snapshot payload R).buffer (i.toNat * 1478) (bodySize payload i.toNat) =
      slice payload (i.toNat * 1478) (bodySize payload i.toNat) := by
  apply List.ext_getElem?
  intro k
  rw [getElem?_slice, getElem?_slice]
  split
  · rename_i hk
    have hpos : i.toNat * 1478 + k < payload.length := by unfold bodySize at hk; omega
    show (masked (fun pos => UInt32.ofNat (pos / 1478) ∈ R) 0 payload)[i.toNat * 1478 + k]? = _
    have hdiv : UInt32.ofNat ((i.toNat * 1478 + k) / 1478) = i := (h.ofNat_div_eq_iff hpos).2 ⟨by omega, by omega⟩
    rw [getElem?_masked, hdiv, if_pos hi]
  · rfl

theorem snapshot_elsewhere (h : Packable payload) {pos : Nat} (hpos : pos < payload.length)
    (hR : ∀ i ∈ R, ¬ (i.toNat * 1478 ≤ pos ∧ pos < i.toNat * 1478 + bodySize payload i.toNat)) :
    (snapshot payload R).buffer[pos]? = some 0 := by
  show (masked (fun pos => UInt32.ofNat (pos / 1478) ∈ R) 0 payload)[pos]? = _
  rw [getElem?_masked, if_neg, if_pos hpos]
  exact fun hmem => hR _ hmem ((h.ofNat_div_eq_iff hpos).1 rfl)

theorem partialState (h : Packable payload) (hne : calls ≠ [])
    (hc : ∀ c ∈ calls, c.packet ∈ fragments host payload) :
    PartialState payload (fragments host payload) calls (run (next host) fresh calls) := by
  have hlt := h.lt_of_mem_indexSet hc
  rw [h.run_eq_snapshot hne hc]
  have hcomplete : (snapshot payload (indexSet host calls)).isComplete = true ↔
      (snapshot payload (indexSet host calls)).getMissingIndices = [] := by
    rw [snapshot_isComplete_iff hlt, getMissingIndices_eq_nil]
    rfl
  refine ⟨fun i => h.mem_indexSet hc, pairwise_getMissingIndices _, fun i => ?_, hcomplete, ?_, length_masked,
    fun i hi => h.slice_snapshot ((h.mem_indexSet hc).2 hi), fun pos hpos hno =>
      h.snapshot_elsewhere hpos fun i hi => hno i ((h.mem_indexSet hc).1 hi)⟩
  · rw [mem_getMissingIndices, ← h.mem_indexSet hc, length_fragments, ← UInt32.lt_iff_toNat_lt]
    rfl
  · rw [getPayload_error_iff, ← Bool.not_eq_true, not_congr hcomplete]

theorem zero_mem (h : Packable payload) (hall : ∀ i < totalPackagesOf payload, i ∈ R) : R ≠ ∅ := by
  rintro rfl
  simpa using hall 0 h.zero_lt_totalPackagesOf

theorem payload_of_holds {s : NetUnpacker} (h : Packable payload) (hs : Holds payload R s)
    (hR : ∀ i ∈ R, i < totalPackagesOf payload) (hall : ∀ i < totalPackagesOf payload, i ∈ R) :
    s.isComplete = true ∧ s.getPayload = .ok payload := by
  rcases hs with rfl | ⟨hempty, -⟩
  · exact ⟨(snapshot_isComplete_iff hR).2 hall, h.snapshot_getPayload hR hall⟩
  · exact absurd hempty (h.zero_mem hall)

theorem mem_indexSet_of_all (h : Packable payload) (hc : ∀ c ∈ calls, c.packet ∈ fragments host payload)
    (hall : ∀ p ∈ fragments host payload, ∃ c ∈ calls, c.packet = p) :
    ∀ i < totalPackagesOf payload, i ∈ indexSet host calls := by
  intro i hi
  obtain ⟨c, hcall, hpkt⟩ := hall _ (mem_fragments.2 ⟨i, hi, rfl⟩)
  exact (h.mem_indexSet hc).2 ⟨c, hcall, getElem?_fragments.2 ⟨hi, hpkt.symm⟩⟩

theorem reassembled (h : Packable payload) (hc : ∀ c ∈ calls, c.packet ∈ fragments host payload)
    (hall : ∀ p ∈ fragments host payload, ∃ c ∈ calls, c.packet = p) :
    EveryStep (next host) (Accepts host) fresh calls ∧
      (run (next host) fresh calls).isComplete = true ∧
      (run (next host) fresh calls).getPayload = .ok payload := by
  obtain ⟨hacc, hholds⟩ := h.run_fragments calls (.inr ⟨rfl, rfl⟩) hc
  rw [Finset.empty_union] at hholds
  exact ⟨hacc, h.payload_of_holds hholds (h.lt_of_mem_indexSet hc) (h.mem_indexSet_of_all hc hall)⟩

end Packable

/-- Any packets of one payload, in any order and with any repetition: what the receiver shows is
determined by the set of the fragments among them. -/
theorem partial_reassembly (host : Endian) {payload : ByteVector} (h : Packable payload) :
    ∃ pkts, pack host payload = .ok pkts ∧ pkts.length = payload.length ⌈/⌉ 1478 ∧
      ∀ calls : List Call, calls ≠ [] → (∀ c ∈ calls, c.packet ∈ pkts) →
        PartialState payload pkts calls (run (next host) fresh calls) ∧
        ∀ calls' : List Call, calls' ≠ [] → (∀ c ∈ calls', c.packet ∈ pkts) →
          (∀ i, Delivered pkts calls' i ↔ Delivered pkts calls i) →
          run (next host) fresh calls' = run (next host) fresh calls := by
  refine ⟨fragments host payload, pack_eq h.pos, h.count_fragments, fun calls hne hc => ⟨h.partialState hne hc, ?_⟩⟩
  intro calls' hne' hc' hsame
  have hset : indexSet host calls' = indexSet host calls := by
    ext i
    rw [h.mem_indexSet hc', h.mem_indexSet hc, hsame]
  rw [h.run_eq_snapshot hne' hc', h.run_eq_snapshot hne hc, hset]

def packetOfSeven : ByteVector :=
  [0x9A, 0xCE, 0, 0, 0, 0, 0, 0, 0, 1, 0, 0, 0, 1, 0, 0, 0, 0, 0, 0, 0, 1, 7]

theorem pack_seven : pack .little [7] = .ok [packetOfSeven] := by decide +kernel

theorem packable_seven : Packable [7] := ⟨by decide, by decide⟩

/-- A payload of two fragments, the second of them one byte long. -/
def onesAfterTwo : ByteVector := List.replicate 1479 1

theorem packable_onesAfterTwo : Packable onesAfterTwo := by
  unfold onesAfterTwo
  exact ⟨by rw [List.length_replicate]; decide, by rw [List.length_replicate]; decide⟩

theorem totalPackagesOf_onesAfterTwo : totalPackagesOf onesAfterTwo = 2 := by decide +kernel

theorem pack_onesAfterTwo : pack .little onesAfterTwo =
    .ok [packFragment .little onesAfterTwo 2 0, packFragment .little onesAfterTwo 2 1] := by
  rw [pack_eq packable_onesAfterTwo.pos, fragments, totalPackagesOf_onesAfterTwo]
  rfl

/-- The last fragment came three times, the first one is missing. -/
theorem partial_reassembly_two :
    (∀ i, i ∈ (run (next .little) fresh [⟨packFragment .little onesAfterTwo 2 1, fun _ => 0⟩]).getMissingIndices ↔ i = 0) ∧
    run (next .little) fresh [⟨packFragment .little onesAfterTwo 2 1, fun _ => 1⟩,
        ⟨packFragment .little onesAfterTwo 2 1, fun _ => 2⟩] =
      run (next .little) fresh [⟨packFragment .little onesAfterTwo 2 1, fun _ => 0⟩] := by
  obtain ⟨pkts, hp, -, hrun⟩ := partial_reassembly .little packable_onesAfterTwo
  obtain rfl := Except.ok.inj (pack_onesAfterTwo.symm.trans hp)
  obtain ⟨hstate, hsame⟩ := hrun [⟨packFragment .little onesAfterTwo 2 1, fun _ => 0⟩] (by simp) (by simp)
  refine ⟨fun i => ?_, hsame _ (by simp) (by simp) fun i => by simp [Delivered]⟩
  have hne : packFragment .little onesAfterTwo 2 0 ≠ packFragment .little onesAfterTwo 2 1 := by decide +kernel
  rw [hstate.missing i, ← UInt32.toNat_inj]
  constructor
  · rintro ⟨hlt, hno⟩
    by_contra h0
    have hone : i.toNat = 1 := by
      have hlt' : i.toNat < 2 := hlt
      have h0' : i.toNat ≠ 0 := h0
      omega
    exact hno ⟨_, List.mem_singleton_self _, by rw [hone]; rfl⟩
  · intro hi
    rw [Delivered, hi]
    refine ⟨Nat.zero_lt_two, ?_⟩
    rintro ⟨c, hc, hget⟩
    rw [List.mem_singleton.1 hc] at hget
    exact hne (Option.some.inj hget)

/-- Every packet at least once, in any order: no call throws and the payload is back. -/
theorem pack_round_trip (host : Endian) {payload : ByteVector} (h : Packable payload) :
    ∃ pkts, pack host payload = .ok pkts ∧
      ∀ calls : List Call, (∀ c ∈ calls, c.packet ∈ pkts) → (∀ p ∈ pkts, ∃ c ∈ calls, c.packet = p) →
        EveryStep (next host) (Accepts host) fresh calls ∧
        (run (next host) fresh calls).isComplete = true ∧
        (run (next host) fresh calls).getPayload = .ok payload :=
  ⟨fragments host payload, pack_eq h.pos, fun _ hc hall => h.reassembled hc hall⟩

theorem pack_round_trip_two :
    (run (next .little) fresh [⟨packFragment .little onesAfterTwo 2 1, fun _ => 0⟩,
      ⟨packFragment .little onesAfterTwo 2 0, fun _ => 1⟩, ⟨packFragment .little onesAfterTwo 2 1, fun _ => 2⟩]).getPayload =
      .ok onesAfterTwo := by
  obtain ⟨pkts, hp, hrun⟩ := pack_round_trip .little packable_onesAfterTwo
  obtain rfl := Except.ok.inj (pack_onesAfterTwo.symm.trans hp)
  exact (hrun _ (by simp) (by simp)).2.2

end CcTools
