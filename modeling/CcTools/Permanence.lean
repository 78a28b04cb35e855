import CcTools.Counters
import CcTools.Reassembly

/-!
# What comes after a payload is complete

Once every fragment was delivered, no packet writes to the buffer any more (`Settled`). Only an empty
fragment behind the last one still counts, which has a place exactly if the payload ends where a fragment
does (`complete_stays_iff`).
-/

namespace CcTools
open NetPacker NetUnpacker Runs

/-- Every fragment was delivered; other indices start no later than the payload ends. -/
def Settled (payload : ByteVector) (s : NetUnpacker) : Prop :=
  ∃ R : Finset UInt32, s = snapshot payload R ∧ (∀ i < totalPackagesOf payload, i ∈ R) ∧
    ∀ i ∈ R, i.toNat * 1478 ≤ payload.length

namespace Packable
variable {host : Endian} {payload : ByteVector} {R : Finset UInt32} {s : NetUnpacker} {c : Call} {calls : List Call}

theorem snapshot_buffer (h : Packable payload) (hall : ∀ i < totalPackagesOf payload, i ∈ R) :
    (snapshot payload R).buffer = payload := by
  refine masked_all fun pos hpos => hall _ (h.lt_totalPackagesOf.2 ?_)
  have hle := h.le
  rw [UInt32.toNat_ofNat_of_lt' (by simp only [UInt32.size]; omega)]
  omega

/-- A packet that is stored behind the last fragment has no body. -/
theorem settled_stored (h : Packable payload) (hall : ∀ i < totalPackagesOf payload, i ∈ R)
    (hR : ∀ i ∈ R, i.toNat * 1478 ≤ payload.length) {hd : NetPackageHeader}
    (hf : Fits (snapshot payload R).totalSize hd) (hmem : hd.currentPackageNum ∉ R) :
    Settled payload (stored (snapshot payload R) hd c) := by
  have hge : ¬ hd.currentPackageNum < totalPackagesOf payload := fun hlt => hmem (hall _ hlt)
  have hfits : hd.currentPackageNum.toNat * 1478 + hd.currentPayloadSize.toNat ≤ payload.length := by
    rw [← h.toNat_size]
    exact hf
  rw [h.lt_totalPackagesOf] at hge
  have hzero : hd.currentPayloadSize.toNat = 0 := by omega
  refine ⟨insert hd.currentPackageNum R, ?_, fun i hi => Finset.mem_insert_of_mem (hall i hi), fun i hi => ?_⟩
  · have hcount : UInt32.ofNat R.card + 1 = UInt32.ofNat (insert hd.currentPackageNum R).card := by
      rw [Finset.card_insert_of_notMem hmem, UInt32.ofNat_add]
      rfl
    have hbuf : overlay (snapshot payload R).buffer (hd.currentPackageNum.toNat * 1478)
        (c.read headerSize.toNat 0) = (snapshot payload (insert hd.currentPackageNum R)).buffer := by
      rw [h.snapshot_buffer fun i hi => Finset.mem_insert_of_mem (hall i hi), h.snapshot_buffer hall]
      exact overlay_nil ..
    rw [stored, hzero, hbuf]
    show NetUnpacker.mk _ _ (UInt32.ofNat R.card + 1) _ _ = _
    rw [hcount]
    rfl
  · rcases Finset.mem_insert.1 hi with rfl | hi
    · exact Nat.le_trans (Nat.le_add_right ..) hfits
    · exact hR i hi

theorem settled_nextIn (h : Packable payload) (hs : Settled payload s) (c : Call × Memory) :
    Settled payload (nextIn host s c) := by
  obtain ⟨R, rfl, hall, hR⟩ := hs
  have hself : Settled payload (snapshot payload R) := ⟨R, rfl, hall, hR⟩
  have hopened : opened (snapshot payload R) (headerOf host c.1.packet) = snapshot payload R := h.opened_snapshot
  refine nextIn_cases fun r ho => ?_
  cases ho with
  | tooShort | badMark => exact hself
  | refused _ hr => exact absurd hr.1 h.size_ne_zero
  | outOfRange | repeated | noNode =>
    rw [hopened]
    exact hself
  | stored _ _ hf hmem =>
    rw [hopened] at hf hmem ⊢
    exact h.settled_stored hall hR hf hmem

theorem settled_run (h : Packable payload) (hs : Settled payload s) (later : List (Call × Memory)) :
    Settled payload (run (nextIn host) s later) :=
  run_inv (fun _ hs c _ => h.settled_nextIn hs c) hs

theorem settled_of_delivered (h : Packable payload) (hc : ∀ c ∈ calls, c.packet ∈ fragments host payload)
    (hall : ∀ p ∈ fragments host payload, ∃ c ∈ calls, c.packet = p) :
    Settled payload (run (next host) fresh calls) := by
  have hin := h.mem_indexSet_of_all hc hall
  have hne : calls ≠ [] := by
    rintro rfl
    exact h.zero_mem hin rfl
  refine ⟨indexSet host calls, h.run_eq_snapshot hne hc, hin, fun i hi => ?_⟩
  exact Nat.le_of_lt (h.lt_totalPackagesOf.1 (h.lt_of_mem_indexSet hc i hi))

/-- The empty fragment behind the last one. -/
def afterLast (host : Endian) (payload : ByteVector) : Call where
  packet := wirePacket host
    { totalPayloadSize := UInt64.ofNat payload.length
      totalPackageNum := totalPackagesOf payload
      currentPackageNum := totalPackagesOf payload } []

theorem settled_isComplete (hs : Settled payload s) (hnd : ¬ 1478 ∣ payload.length) (h : Packable payload) :
    s.isComplete = true := by
  obtain ⟨R, rfl, hall, hR⟩ := hs
  refine (snapshot_isComplete_iff fun i hi => h.lt_totalPackagesOf.2 ?_).2 hall
  have hle := hR i hi
  have hne : i.toNat * 1478 ≠ payload.length := fun he => hnd ⟨i.toNat, by omega⟩
  omega

/-- A payload that ends with a full fragment leaves room for an empty one. -/
theorem next_afterLast (h : Packable payload) (hd : 1478 ∣ payload.length)
    (hR : ∀ i, i ∈ R ↔ i < totalPackagesOf payload) :
    (next host (snapshot payload R) (afterLast host payload)).isComplete = false := by
  have hhd : headerOf host (afterLast host payload).packet = _ := headerOf_wirePacket ..
  have hw : WellFormed host (afterLast host payload).packet := wellFormed_wirePacket host rfl []
  have hopened : ∀ hd, opened (snapshot payload R) hd = snapshot payload R := fun _ => h.opened_snapshot
  have hf : Fits (opened (snapshot payload R) (headerOf host (afterLast host payload).packet)).totalSize
      (headerOf host (afterLast host payload).packet) := by
    have hnum := h.toNat_totalPackagesOf
    obtain ⟨k, hk⟩ := hd
    rw [hopened, hhd, Fits]
    show (totalPackagesOf payload).toNat * 1478 + 0 ≤ (UInt64.ofNat payload.length).toNat
    rw [h.toNat_size]
    omega
  have hmem : (headerOf host (afterLast host payload).packet).currentPackageNum ∉
      (opened (snapshot payload R) (headerOf host (afterLast host payload).packet)).receivedIndices := by
    rw [hopened, hhd]
    exact fun hmem => UInt32.lt_irrefl _ ((hR _).1 hmem)
  have hcard : R.card = (totalPackagesOf payload).toNat :=
    (card_eq_iff_of_lt fun i hi => (hR i).1 hi).2.2 fun i hi => (hR i).2 hi
  rw [next, addPacket_stored hw (fun hr => h.size_ne_zero hr.1) hf hmem, hopened]
  show (UInt32.ofNat R.card + 1 == totalPackagesOf payload) = false
  rw [hcard, UInt32.ofNat_toNat, beq_eq_false_iff_ne]
  intro he
  have hn := congrArg UInt32.toNat he
  rw [UInt32.toNat_add] at hn
  have := (totalPackagesOf payload).toNat_lt
  simp only [UInt32.reduceToNat] at hn
  omega

end Packable

/-- After all packets of a payload, in any order and with any repetition, whatever arrives then and
wherever memory runs out: the buffer stays the payload. It can also be read unless the payload ends with a
full fragment. -/
theorem complete_stays_iff (host : Endian) {payload : ByteVector} (h : Packable payload) :
    ∃ pkts, pack host payload = .ok pkts ∧
      ∀ calls : List Call, (∀ c ∈ calls, c.packet ∈ pkts) → (∀ p ∈ pkts, ∃ c ∈ calls, c.packet = p) →
        (∀ later, (run (nextIn host) (run (next host) fresh calls) later).buffer = payload) ∧
        ((∀ later, (run (nextIn host) (run (next host) fresh calls) later).getPayload = .ok payload) ↔
          ¬ 1478 ∣ payload.length) := by
  refine ⟨fragments host payload, pack_eq h.pos, fun calls hc hall => ?_⟩
  have hs := h.settled_of_delivered hc hall
  have hbuf : ∀ later, (run (nextIn host) (run (next host) fresh calls) later).buffer = payload := by
    intro later
    obtain ⟨R, hR, hin, -⟩ := h.settled_run hs later
    rw [hR, h.snapshot_buffer hin]
  refine ⟨hbuf, fun hget hd => ?_, fun hnd later => ?_⟩
  · have hin := h.mem_indexSet_of_all hc hall
    have hrun : run (next host) fresh calls = snapshot payload (indexSet host calls) := by
      refine h.run_eq_snapshot ?_ hc
      rintro rfl
      exact h.zero_mem hin rfl
    have hafter : (next host (snapshot payload (indexSet host calls)) (Packable.afterLast host payload)).isComplete = false :=
      h.next_afterLast hd fun i => ⟨fun hi => h.lt_of_mem_indexSet hc i hi, fun hi => hin i hi⟩
    have herr := getPayload_error_iff.2 hafter
    have hone := hget [(Packable.afterLast host payload, {})]
    rw [hrun] at hone
    obtain ⟨e, he⟩ := herr
    cases he.symm.trans hone
  · rw [getPayload_of_isComplete (Packable.settled_isComplete (h.settled_run hs later) hnd h), hbuf]

theorem complete_stays_seven :
    (run (nextIn .little) (run (next .little) fresh [{ packet := packetOfSeven }])
      [({ packet := packFragment .little [8, 9] 1 0 }, {}), ({ packet := [] }, {})]).getPayload = .ok [7] := by
  obtain ⟨pkts, hp, hrun⟩ := complete_stays_iff .little packable_seven
  obtain rfl : [packetOfSeven] = pkts := Except.ok.inj (pack_seven.symm.trans hp)
  exact (hrun [{ packet := packetOfSeven }] (by simp) (by simp)).2.2 (by decide) _

/-- After some packets of a payload, more of them complete it exactly if they contain the fragments that
`getMissingIndices` names. -/
theorem resend_completes_iff (host : Endian) {payload : ByteVector} (h : Packable payload) :
    ∃ pkts, pack host payload = .ok pkts ∧ pkts.length = payload.length ⌈/⌉ 1478 ∧
      ∀ calls more : List Call, calls ≠ [] → (∀ c ∈ calls ++ more, c.packet ∈ pkts) →
        ((run (next host) fresh (calls ++ more)).getPayload = .ok payload ↔
          ∀ i ∈ (run (next host) fresh calls).getMissingIndices, Delivered pkts more i) := by
  refine ⟨fragments host payload, pack_eq h.pos, h.count_fragments, fun calls more hne hc => ?_⟩
  have hcalls : ∀ c ∈ calls, c.packet ∈ fragments host payload := fun c hm => hc c (List.mem_append_left _ hm)
  have hmore : ∀ c ∈ more, c.packet ∈ fragments host payload := fun c hm => hc c (List.mem_append_right _ hm)
  have hne' : calls ++ more ≠ [] := List.append_ne_nil_of_left_ne_nil hne more
  have hlt := h.lt_of_mem_indexSet hc
  have hset : indexSet host (calls ++ more) = indexSet host calls ∪ indexSet host more := by
    rw [indexSet, List.map_append, List.toFinset_append]
    rfl
  rw [h.run_eq_snapshot hne' hc, h.run_eq_snapshot hne hcalls]
  constructor
  · intro hget i hi
    have hcomplete : (snapshot payload (indexSet host (calls ++ more))).isComplete = true := by
      by_contra hno
      obtain ⟨e, he⟩ := getPayload_error_iff.2 (Bool.not_eq_true _ ▸ hno)
      cases he.symm.trans hget
    obtain ⟨hlti, hnot⟩ := mem_getMissingIndices.1 hi
    have hin := (Packable.snapshot_isComplete_iff hlt).1 hcomplete i hlti
    rw [hset, Finset.mem_union] at hin
    exact (h.mem_indexSet hmore).1 (hin.resolve_left hnot)
  · intro hmissing
    refine h.snapshot_getPayload hlt fun i hi => ?_
    rw [hset, Finset.mem_union]
    by_cases hin : i ∈ indexSet host calls
    · exact .inl hin
    · exact .inr ((h.mem_indexSet hmore).2 (hmissing i (mem_getMissingIndices.2 ⟨hi, hin⟩)))

/-- The last fragment came twice; what is resent is both fragments. -/
theorem resend_completes_two :
    (run (next .little) fresh ([⟨packFragment .little onesAfterTwo 2 1, fun _ => 0⟩,
        ⟨packFragment .little onesAfterTwo 2 1, fun _ => 1⟩] ++
      [⟨packFragment .little onesAfterTwo 2 1, fun _ => 2⟩,
        ⟨packFragment .little onesAfterTwo 2 0, fun _ => 3⟩])).getPayload = .ok onesAfterTwo := by
  obtain ⟨pkts, hp, -, hrun⟩ := resend_completes_iff .little packable_onesAfterTwo
  obtain rfl := Except.ok.inj (pack_onesAfterTwo.symm.trans hp)
  refine (hrun [⟨packFragment .little onesAfterTwo 2 1, fun _ => 0⟩, ⟨packFragment .little onesAfterTwo 2 1, fun _ => 1⟩]
    [⟨packFragment .little onesAfterTwo 2 1, fun _ => 2⟩, ⟨packFragment .little onesAfterTwo 2 0, fun _ => 3⟩]
    (by simp) (by simp)).2 ?_
  have hmissing : (run (next .little) fresh [⟨packFragment .little onesAfterTwo 2 1, fun _ => 0⟩,
      ⟨packFragment .little onesAfterTwo 2 1, fun _ => 1⟩]).getMissingIndices = [0] := by
    decide +kernel
  rw [hmissing]
  intro i hi
  rw [List.mem_singleton.1 hi]
  exact ⟨_, List.mem_cons_of_mem _ (List.mem_singleton_self _), rfl⟩

end CcTools
