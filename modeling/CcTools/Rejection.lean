import CcTools.Reassembly

/-!
# Calls that throw

The first two checks of `addPacket` come before any assignment; the refusal of `resize` and the range
check come after `begin`. `rejection_iff` says in which states a throwing call leaves a trace, and
that honest packets survive any number of throwing calls that leave none.
-/

namespace CcTools
open NetPacker NetUnpacker Runs

namespace NetUnpacker
variable {host : Endian} {s : NetUnpacker} {c : Call}

/-- If the call throws, the receiver is as it was. -/
def RejectsCleanly (host : Endian) (s : NetUnpacker) (c : Call) : Prop :=
  ∀ e s', (addPacket host c).run s = .error e s' → s' = s

/-- A first packet whose totals are taken over and differ from those in place, but whose fragment is
refused. -/
structure Taints (host : Endian) (s : NetUnpacker) (packet : ByteVector) : Prop where
  wellFormed : WellFormed host packet
  first : s.totalSize = 0
  refused : maxSize < (headerOf host packet).totalPayloadSize.toNat ∨
    ¬ Fits (headerOf host packet).totalPayloadSize (headerOf host packet)
  differs : ¬ ((headerOf host packet).totalPayloadSize = 0 ∧
    (headerOf host packet).totalPackageNum = s.totalPackages ∧ s.receivedIndices = ∅)

theorem opened_eq_self_iff {h : NetPackageHeader} (hi : Inv s) (h0 : s.totalSize = 0) :
    opened s h = s ↔ h.totalPayloadSize = 0 ∧ h.totalPackageNum = s.totalPackages ∧ s.receivedIndices = ∅ := by
  constructor
  · intro he
    have hsize := congrArg NetUnpacker.totalSize he
    have hnum := congrArg NetUnpacker.totalPackages he
    have hset := congrArg NetUnpacker.receivedIndices he
    rw [opened_totalSize, if_pos h0, h0] at hsize
    rw [opened_totalPackages, if_pos h0] at hnum
    rw [opened_receivedIndices, if_pos h0] at hset
    exact ⟨hsize, hnum, hset.symm⟩
  · rintro ⟨hsize, hnum, hset⟩
    have hcount := hi.count
    have hbuf := hi.buffer_nil h0
    obtain ⟨totalSize, totalPackages, receivedCount, buffer, receivedIndices⟩ := s
    dsimp only at h0 hnum hset hcount hbuf
    subst h0 hset hbuf
    simp only [opened, ↓reduceIte, hsize, hnum, hcount]
    rfl

theorem rejectsCleanly_iff (hi : Inv s) : RejectsCleanly host s c ↔ ¬ Taints host s c.packet := by
  have ho := addPacket_outcome host s c
  unfold RejectsCleanly
  generalize (addPacket host c).run s = r at ho ⊢
  cases ho with
  | tooShort hlen =>
    exact ⟨fun _ ht => ht.wellFormed.not_tooShort hlen, fun _ e s' he => by cases he; rfl⟩
  | badMark _ hsof => exact ⟨fun _ ht => hsof ht.wellFormed.sof, fun _ e s' he => by cases he; rfl⟩
  | refused hw hr =>
    refine ⟨fun hclean => ?_, fun hno => absurd ⟨hw, hr.1, .inl hr.2, fun hd => ?_⟩ hno⟩
    · have hsize := congrArg NetUnpacker.totalSize (hclean _ _ rfl)
      exact absurd (hsize.trans hr.1) hr.size_ne_zero
    · exact hr.size_ne_zero hd.1
  | outOfRange hw hr hf =>
    by_cases h0 : s.totalSize = 0
    · rw [opened_totalSize, if_pos h0] at hf
      constructor
      · intro hclean ht
        exact ht.differs ((opened_eq_self_iff hi h0).1 (hclean _ _ rfl))
      · intro hno e s' he
        cases he
        exact (opened_eq_self_iff hi h0).2 (by_contra fun hd => hno ⟨hw, h0, .inr hf, hd⟩)
    · refine ⟨fun _ ht => h0 ht.first, fun _ e s' he => ?_⟩
      cases he
      exact opened_of_ne h0
  | repeated hw hr hf _ | stored hw hr hf _ =>
    refine ⟨fun _ ht => ?_, fun _ e s' he => by cases he⟩
    rw [opened_totalSize, if_pos ht.first] at hf
    rcases ht.refused with hn | hn
    · exact hr ⟨ht.first, hn⟩
    · exact hn hf

end NetUnpacker

theorem Packable.not_taints {host : Endian} {payload packet : ByteVector} (h : Packable payload) {s : NetUnpacker}
    (hmem : packet ∈ fragments host payload) : ¬ Taints host s packet := by
  obtain ⟨i, hi, rfl⟩ := mem_fragments.1 hmem
  intro ht
  have hrefused := ht.refused
  rw [h.headerOf_self hi] at hrefused
  rcases hrefused with hn | hf
  · exact h.not_refused (s := fresh) ⟨rfl, hn⟩
  · exact hf (h.fits hi)

theorem Packable.run_interleaved {host : Endian} {payload : ByteVector} (h : Packable payload) (calls : List Call)
    {R : Finset UInt32} {s : NetUnpacker} (hs : Holds payload R s)
    (hstep : EveryStep (next host) (fun s c => c.packet ∈ fragments host payload ∨ next host s c = s) s calls) :
    Holds payload (R ∪ indexSet host (calls.filter (·.packet ∈ fragments host payload)))
      (run (next host) s calls) := by
  induction calls generalizing R s with
  | nil => simpa [indexSet] using hs
  | cons c calls ih =>
    obtain ⟨hc, hrest⟩ := hstep
    by_cases hmem : c.packet ∈ fragments host payload
    · have hnext := (h.next_fragment hs hmem).2
      rw [List.filter_cons_of_pos (by simpa using hmem), union_indexSet_cons]
      exact ih (.inl hnext) hrest
    · have hsame := hc.resolve_left hmem
      rw [List.filter_cons_of_neg (by simpa using hmem)]
      rw [hsame] at hrest
      show Holds payload _ (run (next host) (next host s c) calls)
      rw [hsame]
      exact ih hs hrest

/-- A throwing call leaves a trace exactly when it taints the receiver; without such calls, the packets
of a payload survive any rejected ones among them. -/
theorem rejection_iff (host : Endian) (calls : List Call) :
    (EveryStep (next host) (RejectsCleanly host) fresh calls ↔
      EveryStep (next host) (fun s c => ¬ Taints host s c.packet) fresh calls) ∧
    ∀ payload, Packable payload → ∃ pkts, pack host payload = .ok pkts ∧
      (EveryStep (next host) (fun s c => ¬ Taints host s c.packet) fresh calls →
        EveryStep (next host) (fun s c => c.packet ∈ pkts ∨ Throws host s c) fresh calls →
        (∀ p ∈ pkts, ∃ c ∈ calls, c.packet = p) →
          (run (next host) fresh calls).isComplete = true ∧
          (run (next host) fresh calls).getPayload = .ok payload) := by
  have hiff : EveryStep (next host) (RejectsCleanly host) fresh calls ↔
      EveryStep (next host) (fun s c => ¬ Taints host s c.packet) fresh calls :=
    everyStep_congr (fun _ hi c => hi.next c) (fun _ hi _ => rejectsCleanly_iff hi) .fresh
  refine ⟨hiff, fun payload h => ⟨fragments host payload, pack_eq h.pos, fun hclean hmixed hall => ?_⟩⟩
  have hstep : EveryStep (next host) (fun s c => c.packet ∈ fragments host payload ∨ next host s c = s)
      fresh calls := by
    refine ((hiff.2 hclean).and hmixed).imp (P := fun _ => True) (fun _ _ _ _ => trivial) ?_ trivial
    rintro s - c ⟨hc, hmem | ⟨e, s', hs'⟩⟩
    · exact .inl hmem
    · refine .inr ?_
      rw [next, hs']
      exact hc e s' hs'
  have hholds := h.run_interleaved calls (.inr ⟨rfl, rfl⟩) hstep
  rw [Finset.empty_union] at hholds
  have hc : ∀ c ∈ calls.filter (·.packet ∈ fragments host payload), c.packet ∈ fragments host payload :=
    fun c hc => by simpa using (List.mem_filter.1 hc).2
  refine h.payload_of_holds hholds (h.lt_of_mem_indexSet hc) (h.mem_indexSet_of_all hc fun p hp => ?_)
  obtain ⟨c, hcall, rfl⟩ := hall p hp
  exact ⟨c, List.mem_filter.2 ⟨hcall, by simpa using hp⟩, rfl⟩

/-- A packet without a header comes between the two fragments. -/
theorem rejection_iff_two :
    (addPacket .little { packet := [] }).run (next .little fresh { packet := packFragment .little onesAfterTwo 2 1 }) =
      .error (.runtimeError "invalid packet size")
        (next .little fresh { packet := packFragment .little onesAfterTwo 2 1 }) ∧
    (run (next .little) fresh [{ packet := packFragment .little onesAfterTwo 2 1 }, { packet := [] },
      { packet := packFragment .little onesAfterTwo 2 0 }]).getPayload = .ok onesAfterTwo := by
  obtain ⟨pkts, hp, hrun⟩ := (rejection_iff .little [{ packet := packFragment .little onesAfterTwo 2 1 },
    { packet := [] }, { packet := packFragment .little onesAfterTwo 2 0 }]).2 onesAfterTwo packable_onesAfterTwo
  obtain rfl := Except.ok.inj (pack_onesAfterTwo.symm.trans hp)
  have hthrow : ∀ s, (addPacket .little { packet := [] }).run s = .error (.runtimeError "invalid packet size") s :=
    fun _ => rfl
  have hfragment : ∀ i < 2, ∀ s, ¬ Taints .little s (packFragment .little onesAfterTwo 2 i) := by
    intro i hi s
    refine packable_onesAfterTwo.not_taints (Packable.mem_fragments.2 ⟨i, ?_, ?_⟩)
    · rwa [totalPackagesOf_onesAfterTwo]
    · rw [totalPackagesOf_onesAfterTwo]
  refine ⟨hthrow _, (hrun ⟨hfragment 1 (by decide) _, fun ht => ht.wellFormed.not_tooShort (by decide),
    hfragment 0 (by decide) _, trivial⟩ ⟨.inl (by simp), .inr ⟨_, _, hthrow _⟩, .inl (by simp), trivial⟩
    (by simp)).2⟩

def sixOfFive : ByteVector :=
  wirePacket .little { totalPayloadSize := 5, totalPackageNum := 9, currentPayloadSize := 6 } [0, 0, 0, 0, 0, 0]

/-- It throws at a fresh receiver, which takes over its totals all the same and then loses the payload
`7` delivered to it. -/
theorem sixOfFive_taints :
    (addPacket .little { packet := sixOfFive }).run fresh = .error (.runtimeError "payload out of range")
      { totalSize := 5, totalPackages := 9, buffer := [0, 0, 0, 0, 0] } ∧
    ¬ EveryStep (next .little) (RejectsCleanly .little) fresh [{ packet := sixOfFive }] ∧
    (run (next .little) fresh [{ packet := sixOfFive }, { packet := packetOfSeven }]).getPayload =
      .error (.runtimeError "payload is not complete") := by
  have hadd : (addPacket .little { packet := sixOfFive }).run fresh =
      .error (.runtimeError "payload out of range")
        { totalSize := 5, totalPackages := 9, buffer := [0, 0, 0, 0, 0] } := by rfl
  refine ⟨hadd, fun hclean => ?_, rfl⟩
  exact absurd (congrArg totalSize (hclean.1 _ _ hadd)) (by decide)

end CcTools
