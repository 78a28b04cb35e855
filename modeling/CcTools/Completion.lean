import CcTools.Counters
import CcTools.Indices
import CcTools.Wire

/-!
# When the two completion reports agree

`isComplete` counts, `getMissingIndices` looks every index below `totalPackages` up. They agree in
every state of a run, wherever memory runs out in it, exactly when no recorded index reaches
`totalPackages`, a comparison that `addPacket` does not make (`completion_iff`).
-/

namespace CcTools
open Runs

namespace NetUnpacker
variable {host : Endian} {s : NetUnpacker}

structure Agrees (s : NetUnpacker) : Prop where
  complete : s.isComplete = true ↔ s.getMissingIndices = []
  lt : ∀ i ∈ s.getReceivedIndices, i < s.totalPackages

/-- The total size against which a packet is checked in state `s`: its own if it is the first. -/
def sizeFor (s : NetUnpacker) (h : NetPackageHeader) : UInt64 :=
  if s.totalSize = 0 then h.totalPayloadSize else s.totalSize

def packagesFor (s : NetUnpacker) (h : NetPackageHeader) : UInt32 :=
  if s.totalSize = 0 then h.totalPackageNum else s.totalPackages

/-- An index that would be recorded is below the number of packages; where `resize` refuses a first
packet, the number it leaves behind is above the indices held. -/
structure IndexInRange (host : Endian) (s : NetUnpacker) (packet : ByteVector) (memory : Memory) : Prop where
  refused : WellFormed host packet → RefusedIn s (headerOf host packet) memory →
    ∀ i ∈ s.receivedIndices, i < (headerOf host packet).totalPackageNum
  recorded : WellFormed host packet → ¬ RefusedIn s (headerOf host packet) memory →
    Fits (sizeFor s (headerOf host packet)) (headerOf host packet) → memory.insert = true →
      (headerOf host packet).currentPackageNum < packagesFor s (headerOf host packet)

theorem agrees_iff (hc : Counted s) : Agrees s ↔ ∀ i ∈ s.receivedIndices, i < s.totalPackages := by
  refine ⟨fun ha => ha.lt, fun hlt => ⟨?_, hlt⟩⟩
  rw [isComplete_iff hc.count hlt, getMissingIndices_eq_nil]

theorem lt_opened (hlt : ∀ i ∈ s.receivedIndices, i < s.totalPackages) (h : NetPackageHeader) :
    ∀ i ∈ (opened s h).receivedIndices, i < (opened s h).totalPackages := by
  by_cases h0 : s.totalSize = 0
  · rw [opened_receivedIndices, if_pos h0]
    intro i hmem
    simp at hmem
  · rwa [opened_of_ne h0]

theorem agrees_nextIn_iff (hc : Counted s) (ha : Agrees s) (c : Call × Memory) :
    Agrees (nextIn host s c) ↔ IndexInRange host s c.1.packet c.2 := by
  rw [agrees_iff (hc.nextIn c)]
  have hlt := (agrees_iff hc).1 ha
  have hopened := lt_opened hlt (headerOf host c.1.packet)
  have hsize : (opened s (headerOf host c.1.packet)).totalSize = sizeFor s (headerOf host c.1.packet) :=
    opened_totalSize
  have hnum : (opened s (headerOf host c.1.packet)).totalPackages = packagesFor s (headerOf host c.1.packet) :=
    opened_totalPackages
  have ho := addPacket_outcomeIn host s c.1 c.2
  unfold nextIn
  generalize (addPacket host c.1 c.2).run s = r at ho ⊢
  cases ho with
  | tooShort hlen =>
    have hno : ¬ WellFormed host c.1.packet := fun hw => hw.not_tooShort hlen
    exact ⟨fun _ => ⟨fun hw => absurd hw hno, fun hw => absurd hw hno⟩, fun _ => hlt⟩
  | badMark hsof =>
    have hno : ¬ WellFormed host c.1.packet := fun hw => hsof hw.sof
    exact ⟨fun _ => ⟨fun hw => absurd hw hno, fun hw => absurd hw hno⟩, fun _ => hlt⟩
  | refused hw hr => exact ⟨fun h => ⟨fun _ _ => h, fun _ hno => absurd hr hno⟩, fun h => h.refused hw hr⟩
  | outOfRange _ hr hf =>
    rw [hsize] at hf
    exact ⟨fun _ => ⟨fun _ hr' => absurd hr' hr, fun _ _ hf' => absurd hf' hf⟩, fun _ => hopened⟩
  | repeated _ hr _ hmem =>
    refine ⟨fun _ => ⟨fun _ hr' => absurd hr' hr, fun _ _ _ _ => ?_⟩, fun _ => hopened⟩
    rw [← hnum]
    exact hopened _ hmem
  | noNode _ hr _ _ hm =>
    refine ⟨fun _ => ⟨fun _ hr' => absurd hr' hr, fun _ _ _ hm' => ?_⟩, fun _ => hopened⟩
    rw [hm] at hm'
    cases hm'
  | stored hw hr hf _ hm =>
    rw [hsize] at hf
    constructor
    · intro h
      refine ⟨fun _ hr' => absurd hr' hr, fun _ _ _ _ => ?_⟩
      rw [← hnum]
      exact h _ (Finset.mem_insert_self ..)
    · intro h i hmem
      rcases Finset.mem_insert.1 hmem with rfl | hmem
      · exact hnum ▸ h.recorded hw hr hf hm
      · exact hopened i hmem

theorem agrees_fresh : Agrees fresh := ⟨by decide, fun i hmem => by simp [getReceivedIndices, fresh] at hmem⟩

end NetUnpacker

open NetUnpacker

/-- In a run, the two reports agree in every state exactly when every packet is in range. -/
theorem completion_iff (host : Endian) (calls : List (Call × Memory)) :
    EveryState (nextIn host) Agrees fresh calls ↔
      EveryStep (nextIn host) (fun s c => IndexInRange host s c.1.packet c.2) fresh calls :=
  everyState_iff_everyStep (J := Counted) (fun _ hc c => hc.nextIn c) (fun _ hc ha c => agrees_nextIn_iff hc ha c)
    .fresh agrees_fresh

/-- The empty fragment 1 of a message that has one package. -/
def surplusFragment : ByteVector :=
  wirePacket .little { totalPayloadSize := 1478, totalPackageNum := 1, currentPackageNum := 1 } []

theorem surplusFragment_disagrees :
    ¬ EveryState (nextIn .little) Agrees fresh [({ packet := surplusFragment }, {})] ∧
    (nextIn .little fresh ({ packet := surplusFragment }, {})).isComplete = true ∧
    (nextIn .little fresh ({ packet := surplusFragment }, {})).getMissingIndices = [0] := by
  have hcomplete : (nextIn .little fresh ({ packet := surplusFragment }, {})).isComplete = true := by rfl
  have hmissing : (nextIn .little fresh ({ packet := surplusFragment }, {})).getMissingIndices = [0] := by rfl
  refine ⟨fun hagree => ?_, hcomplete, hmissing⟩
  have hnil := hagree.2.complete.1 hcomplete
  rw [hmissing] at hnil
  cases hnil

end CcTools
