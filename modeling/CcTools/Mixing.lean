import CcTools.Reassembly

/-!
# Packets of two payloads at one receiver

A header carries the totals of its message, but `addPacket` reads them from the first packet only. The
messages stay apart exactly when every packet of the other one falls outside the size of the first
(`unmixed_iff`).
-/

namespace CcTools
open NetPacker NetUnpacker Runs

namespace NetUnpacker
variable {host : Endian} {s : NetUnpacker} {c : Call}

/-- An accepted packet carries the totals the receiver works with. -/
def CarriesTotals (host : Endian) (s : NetUnpacker) (c : Call) : Prop :=
  Accepts host s c → (headerOf host c.packet).totalPayloadSize = (next host s c).totalSize ∧
    (headerOf host c.packet).totalPackageNum = (next host s c).totalPackages

def ReturnsOneOf (p q : ByteVector) (s : NetUnpacker) : Prop :=
  s.isComplete = true → s.getPayload = .ok p ∨ s.getPayload = .ok q

structure SameTotals (host : Endian) (c₀ c : Call) : Prop where
  size : (headerOf host c.packet).totalPayloadSize = (headerOf host c₀.packet).totalPayloadSize
  packages : (headerOf host c.packet).totalPackageNum = (headerOf host c₀.packet).totalPackageNum

theorem accepts_of_fits (h0 : s.totalSize ≠ 0) (hw : WellFormed host c.packet)
    (hf : Fits s.totalSize (headerOf host c.packet)) : Accepts host s c := by
  have hopened := opened_of_ne (h := headerOf host c.packet) h0
  rw [← hopened] at hf
  by_cases hmem : (headerOf host c.packet).currentPackageNum ∈
      (opened s (headerOf host c.packet)).receivedIndices
  · exact ⟨_, addPacket_repeated hw (fun hr => h0 hr.1) hf hmem⟩
  · exact ⟨_, addPacket_stored hw (fun hr => h0 hr.1) hf hmem⟩

end NetUnpacker

namespace Packable
variable {host : Endian} {p q : ByteVector} {R : Finset UInt32} {s : NetUnpacker} {c c₀ : Call} {rest : List Call}

theorem totals_of_mem (h : Packable p) (hc : c.packet ∈ fragments host p) :
    (headerOf host c.packet).totalPayloadSize = UInt64.ofNat p.length ∧
      (headerOf host c.packet).totalPackageNum = totalPackagesOf p := by
  obtain ⟨i, hi, hpkt⟩ := mem_fragments.1 hc
  rw [← hpkt, h.headerOf_self hi]
  exact ⟨rfl, rfl⟩

theorem wellFormed_of_mem (h : Packable p) (hc : c.packet ∈ fragments host p) : WellFormed host c.packet := by
  obtain ⟨i, hi, hpkt⟩ := mem_fragments.1 hc
  exact hpkt ▸ h.wellFormed hi

theorem lt_of_mem (h : Packable p) (hc : c.packet ∈ fragments host p) :
    (headerOf host c.packet).currentPackageNum < totalPackagesOf p := by
  obtain ⟨i, hi, hpkt⟩ := mem_fragments.1 hc
  rw [← hpkt, h.headerOf_self hi]
  exact hi

theorem addPacket_misfit (h : Packable p) (hw : WellFormed host c.packet)
    (hf : ¬ Fits (UInt64.ofNat p.length) (headerOf host c.packet)) :
    (addPacket host c).run (snapshot p R) = .error (.runtimeError "payload out of range") (snapshot p R) := by
  have hopened : opened (snapshot p R) (headerOf host c.packet) = snapshot p R := h.opened_snapshot
  rw [addPacket_outOfRange hw (fun hr => h.size_ne_zero hr.1) (by rw [hopened]; exact hf), hopened]

def Receives (p : ByteVector) (s : NetUnpacker) : Prop :=
  ∃ R : Finset UInt32, (∀ i ∈ R, i < totalPackagesOf p) ∧ s = snapshot p R

theorem receives_next (h : Packable p) (hR : ∀ i ∈ R, i < totalPackagesOf p) (hs : Holds p R s)
    (hc : c.packet ∈ fragments host p) : Receives p (next host s c) := by
  refine ⟨insert (headerOf host c.packet).currentPackageNum R, fun i hi => ?_, (h.next_fragment hs hc).2⟩
  rcases Finset.mem_insert.1 hi with rfl | hi
  · exact h.lt_of_mem hc
  · exact hR i hi

theorem carriesTotals_fragment (h : Packable p) (hs : Holds p R s) (hc : c.packet ∈ fragments host p) :
    CarriesTotals host s c := by
  intro _
  rw [(h.next_fragment hs hc).2]
  exact h.totals_of_mem hc

theorem unmixed (h : Packable p) (h₀ : c₀.packet ∈ fragments host p)
    (hrest : ∀ c ∈ rest, c.packet ∈ fragments host p ∨
      WellFormed host c.packet ∧ ¬ Fits (UInt64.ofNat p.length) (headerOf host c.packet)) :
    EveryStep (next host) (CarriesTotals host) fresh (c₀ :: rest) ∧
      EveryState (next host) (fun s => s.isComplete = true → s.getPayload = .ok p) (next host fresh c₀) rest := by
  have hfirst : Receives p (next host fresh c₀) :=
    h.receives_next (R := ∅) (fun i hi => by simp at hi) (.inr ⟨rfl, rfl⟩) h₀
  have hkeep : ∀ s, Receives p s → ∀ c ∈ rest, Receives p (next host s c) := by
    rintro s ⟨R, hR, rfl⟩ c hc
    rcases hrest c hc with hmem | ⟨hw, hf⟩
    · exact h.receives_next hR (.inl rfl) hmem
    · refine ⟨R, hR, ?_⟩
      rw [next, h.addPacket_misfit hw hf]
      rfl
  refine ⟨⟨h.carriesTotals_fragment (R := ∅) (.inr ⟨rfl, rfl⟩) h₀,
    everyStep_of_inv hkeep ?_ hfirst⟩, everyState_of_inv hkeep ?_ hfirst⟩
  · rintro s ⟨R, hR, rfl⟩ c hc
    rcases hrest c hc with hmem | ⟨hw, hf⟩
    · exact h.carriesTotals_fragment (.inl rfl) hmem
    · rintro ⟨s', hs'⟩
      rw [h.addPacket_misfit hw hf] at hs'
      cases hs'
  · rintro s ⟨R, hR, rfl⟩ hcomplete
    exact h.snapshot_getPayload hR ((snapshot_isComplete_iff hR).1 hcomplete)

theorem sameTotals_or_misfit (h : Packable p) (h₀ : c₀.packet ∈ fragments host p)
    (hw : ∀ c ∈ rest, WellFormed host c.packet)
    (hrun : EveryStep (next host) (CarriesTotals host) (next host fresh c₀) rest) :
    ∀ c ∈ rest, SameTotals host c₀ c ∨
      ¬ Fits (headerOf host c₀.packet).totalPayloadSize (headerOf host c.packet) := by
  obtain ⟨hsize, hnum⟩ := h.totals_of_mem h₀
  have hne : (headerOf host c₀.packet).totalPayloadSize ≠ 0 := hsize ▸ h.size_ne_zero
  refine hrun.forall_mem (P := fun s => s.totalSize = (headerOf host c₀.packet).totalPayloadSize ∧
    s.totalPackages = (headerOf host c₀.packet).totalPackageNum) ?_ ?_ ?_
  · rintro s ⟨hs, hn⟩ c
    obtain ⟨hs', hn'⟩ := next_totals host c (by rw [hs]; exact hne)
    exact ⟨hs'.trans hs, hn'.trans hn⟩
  · rintro s ⟨hs, hn⟩ c hc hcarries
    by_cases hf : Fits (headerOf host c₀.packet).totalPayloadSize (headerOf host c.packet)
    · have h0 : s.totalSize ≠ 0 := by rw [hs]; exact hne
      obtain ⟨hs', hn'⟩ := next_totals host c h0
      obtain ⟨he, he'⟩ := hcarries (accepts_of_fits h0 (hw c hc) (by rw [hs]; exact hf))
      exact .inl ⟨he.trans (hs'.trans hs), he'.trans (hn'.trans hn)⟩
    · exact .inr hf
  · rw [(h.next_fragment (R := ∅) (.inr ⟨rfl, rfl⟩) h₀).2, hsize, hnum]
    exact ⟨rfl, rfl⟩

theorem unmixed_of_first (hp : Packable p) (hq : Packable q) (hne : p.length ≠ q.length)
    (h₀ : c₀.packet ∈ fragments host p)
    (hrest : ∀ c ∈ rest, c.packet ∈ fragments host p ∨ c.packet ∈ fragments host q)
    (hcond : ∀ c ∈ rest, SameTotals host c₀ c ∨
      ¬ Fits (headerOf host c₀.packet).totalPayloadSize (headerOf host c.packet)) :
    EveryStep (next host) (CarriesTotals host) fresh (c₀ :: rest) ∧
      EveryState (next host) (fun s => s.isComplete = true → s.getPayload = .ok p) (next host fresh c₀) rest := by
  have hsize₀ := (hp.totals_of_mem h₀).1
  refine hp.unmixed h₀ fun c hc => ?_
  rcases hrest c hc with hmem | hmem
  · exact .inl hmem
  · rcases hcond c hc with hsame | hmisfit
    · have hsize := hsame.size
      rw [hsize₀, (hq.totals_of_mem hmem).1] at hsize
      refine absurd ?_ hne
      rw [← hp.toNat_size, ← hq.toNat_size, hsize]
    · exact .inr ⟨hq.wellFormed_of_mem hmem, hsize₀ ▸ hmisfit⟩

end Packable

/-- Two payloads of different sizes, their packets fed in any selection and order: accepted packets carry
the adopted totals and a complete receiver returns one of the two, exactly when every packet after the
first carries the totals of the first or has no place in a message of that size. -/
theorem unmixed_iff (host : Endian) {p q : ByteVector} (hp : Packable p) (hq : Packable q)
    (hne : p.length ≠ q.length) :
    ∃ pkts qkts, pack host p = .ok pkts ∧ pack host q = .ok qkts ∧
      ∀ (c₀ : Call) (rest : List Call), (∀ c ∈ c₀ :: rest, c.packet ∈ pkts ∨ c.packet ∈ qkts) →
        (EveryStep (next host) (CarriesTotals host) fresh (c₀ :: rest) ∧
            EveryState (next host) (ReturnsOneOf p q) (next host fresh c₀) rest ↔
          ∀ c ∈ rest, SameTotals host c₀ c ∨
            ¬ Fits (headerOf host c₀.packet).totalPayloadSize (headerOf host c.packet)) := by
  refine ⟨fragments host p, fragments host q, pack_eq hp.pos, pack_eq hq.pos, fun c₀ rest hdrawn => ?_⟩
  have h₀ := hdrawn c₀ (List.mem_cons_self ..)
  have hrest : ∀ c ∈ rest, c.packet ∈ fragments host p ∨ c.packet ∈ fragments host q :=
    fun c hc => hdrawn c (List.mem_cons_of_mem _ hc)
  have hw : ∀ c ∈ rest, WellFormed host c.packet := by
    intro c hc
    rcases hrest c hc with hmem | hmem
    · exact hp.wellFormed_of_mem hmem
    · exact hq.wellFormed_of_mem hmem
  constructor
  · rintro ⟨⟨-, hrun⟩, -⟩
    rcases h₀ with h₀ | h₀
    · exact hp.sameTotals_or_misfit h₀ hw hrun
    · exact hq.sameTotals_or_misfit h₀ hw hrun
  · intro hcond
    rcases h₀ with h₀ | h₀
    · obtain ⟨hstep, hstate⟩ := hp.unmixed_of_first hq hne h₀ hrest hcond
      exact ⟨hstep, hstate.imp fun s hs hcomplete => .inl (hs hcomplete)⟩
    · obtain ⟨hstep, hstate⟩ := hq.unmixed_of_first hp hne.symm h₀ (fun c hc => (hrest c hc).symm) hcond
      exact ⟨hstep, hstate.imp fun s hs hcomplete => .inr (hs hcomplete)⟩

theorem packable_eightNine : Packable [8, 9] := ⟨by decide, by decide⟩

theorem unmixed_iff_seven : ∃ c : Call, pack .little [8, 9] = .ok [c.packet] ∧
    EveryState (next .little) (ReturnsOneOf [7] [8, 9]) (next .little fresh { packet := packetOfSeven }) [c] := by
  obtain ⟨pkts, qkts, hp, hq, hiff⟩ := unmixed_iff .little packable_seven packable_eightNine (by decide)
  obtain rfl : [packetOfSeven] = pkts := Except.ok.inj (pack_seven.symm.trans hp)
  have hpack : pack .little [8, 9] = .ok [packFragment .little [8, 9] 1 0] := by rfl
  obtain rfl : [packFragment .little [8, 9] 1 0] = qkts := Except.ok.inj (hpack.symm.trans hq)
  refine ⟨{ packet := packFragment .little [8, 9] 1 0 }, hpack, ((hiff { packet := packetOfSeven }
    [{ packet := packFragment .little [8, 9] 1 0 }] (by simp)).2 ?_).2⟩
  intro c hc
  rw [List.mem_singleton.1 hc]
  exact .inr (by decide +kernel)

def mixedCalls : List Call :=
  [{ packet := packFragment .little onesAfterTwo 2 1 }, { packet := packFragment .little [2] 1 0 }]

theorem mixedCalls_mixed :
    pack .little onesAfterTwo = .ok [packFragment .little onesAfterTwo 2 0, packFragment .little onesAfterTwo 2 1] ∧
    pack .little [2] = .ok [packFragment .little [2] 1 0] ∧
    (run (next .little) fresh mixedCalls).getReceivedIndices = {0, 1} ∧
    (run (next .little) fresh mixedCalls).isComplete = true ∧
    (run (next .little) fresh mixedCalls).getPayload ≠ .ok onesAfterTwo ∧
    (run (next .little) fresh mixedCalls).getPayload ≠ .ok [2] := by
  refine ⟨pack_onesAfterTwo, ?_, ?_, ?_, ?_, ?_⟩ <;> decide +kernel

end CcTools
