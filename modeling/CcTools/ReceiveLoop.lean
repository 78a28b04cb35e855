import CcTools.Reassembly

/-!
# Receiving until complete

The client that calls `addPacket` while `isComplete` is false. Zero of zero fragments is complete, so the
loop never gets to its first packet (`receive_loop_never`); with the test behind the first packet it stops
where it should (`receive_loop_tested_behind`).
-/

namespace CcTools
open NetPacker NetUnpacker Runs

/-- `while (!isComplete()) addPacket(next packet)`: the receiver, and what is left of the stream. -/
def receiveLoop (host : Endian) (s : NetUnpacker) (stream : List Call) : NetUnpacker × List Call :=
  runUntil (next host) isComplete s stream

/-- `do addPacket(next packet) while (!isComplete())`. -/
def receiveAtLeastOne (host : Endian) (s : NetUnpacker) : List Call → NetUnpacker × List Call
  | [] => (s, [])
  | c :: stream => receiveLoop host (next host s c) stream

def AllIn (pkts : NetPackages) (calls : List Call) : Prop := ∀ p ∈ pkts, ∃ c ∈ calls, c.packet = p

/-- The loop stopped behind the packet that completed the set, and the payload is there. -/
def StopsAtLast (pkts : NetPackages) (payload : ByteVector) (stream : List Call) (r : NetUnpacker × List Call) :
    Prop :=
  ∃ before last rest, stream = before ++ last :: rest ∧ ¬ AllIn pkts before ∧ AllIn pkts (before ++ [last]) ∧
    r.2 = rest ∧ r.1.getPayload = .ok payload

namespace Packable
variable {host : Endian} {payload : ByteVector} {calls : List Call}

theorem allIn_of_complete (h : Packable payload) (hne : calls ≠ [])
    (hc : ∀ c ∈ calls, c.packet ∈ fragments host payload)
    (hcomplete : (run (next host) fresh calls).isComplete = true) : AllIn (fragments host payload) calls := by
  rw [h.run_eq_snapshot hne hc, snapshot_isComplete_iff (h.lt_of_mem_indexSet hc)] at hcomplete
  intro p hp
  obtain ⟨i, hi, rfl⟩ := mem_fragments.1 hp
  obtain ⟨c, hmem, hget⟩ := (h.mem_indexSet hc).1 (hcomplete i hi)
  exact ⟨c, hmem, (getElem?_fragments.1 hget).2.symm⟩

theorem not_allIn_nil (h : Packable payload) : ¬ AllIn (fragments host payload) [] := by
  intro hall
  obtain ⟨c, hc, -⟩ := hall _ (mem_fragments.2 ⟨0, h.zero_lt_totalPackagesOf, rfl⟩)
  simp at hc

/-- From the first packet on, the receiver is complete exactly when all packets came. -/
theorem receiveAtLeastOne_stops (h : Packable payload) {c₀ : Call} {stream : List Call}
    (hc : ∀ c ∈ c₀ :: stream, c.packet ∈ fragments host payload)
    (hall : AllIn (fragments host payload) (c₀ :: stream)) :
    StopsAtLast (fragments host payload) payload (c₀ :: stream) (receiveAtLeastOne host fresh (c₀ :: stream)) := by
  obtain ⟨pre, rest, rfl, hrun, hstop, hbefore⟩ :=
    runUntil_split (next host) isComplete (next host fresh c₀) stream
  have hpre : ∀ c ∈ c₀ :: pre, c.packet ∈ fragments host payload := by
    intro c hmem
    exact hc c (List.mem_append_left rest hmem)
  have hcomplete : (run (next host) fresh (c₀ :: pre)).isComplete = true := by
    rcases hstop with rfl | hstop
    · rw [List.append_nil] at hall
      exact (h.reassembled hpre hall).2.1
    · exact hstop
  have hdone : AllIn (fragments host payload) (c₀ :: pre) := h.allIn_of_complete (List.cons_ne_nil _ _) hpre hcomplete
  have hpayload := (h.reassembled hpre hdone).2.2
  show StopsAtLast _ payload _ (runUntil (next host) isComplete (next host fresh c₀) (pre ++ rest))
  rw [hrun]
  rcases List.eq_nil_or_concat' pre with rfl | ⟨q, last, rfl⟩
  · exact ⟨[], c₀, rest, rfl, h.not_allIn_nil, hdone, rfl, hpayload⟩
  · refine ⟨c₀ :: q, last, rest, by simp, fun hq => ?_, by simpa using hdone, rfl, hpayload⟩
    have hno := hbefore q last [] (by simp)
    have hq' : ∀ c ∈ c₀ :: q, c.packet ∈ fragments host payload := by
      intro c hmem
      exact hpre c (List.mem_append_left [last] hmem)
    have hyes : (run (next host) fresh (c₀ :: q)).isComplete = true := (h.reassembled hq' hq).2.1
    rw [run_cons, hno] at hyes
    cases hyes

end Packable

/-- The test in front: whatever the payload and the stream, no packet is taken and the payload handed out
is empty. -/
theorem receive_loop_never (host : Endian) {payload : ByteVector} (h : Packable payload) :
    ∃ pkts, pack host payload = .ok pkts ∧
      ∀ stream : List Call, (∀ c ∈ stream, c.packet ∈ pkts) → AllIn pkts stream →
        receiveLoop host fresh stream = (fresh, stream) ∧ fresh.getPayload = .ok [] ∧
        ¬ StopsAtLast pkts payload stream (receiveLoop host fresh stream) := by
  refine ⟨fragments host payload, pack_eq h.pos, fun stream _ _ => ?_⟩
  have hloop : receiveLoop host fresh stream = (fresh, stream) := runUntil_of_stop rfl
  refine ⟨hloop, rfl, ?_⟩
  rintro ⟨-, -, -, -, -, -, -, hpayload⟩
  rw [hloop] at hpayload
  have hnil : [] = payload := Except.ok.inj hpayload
  have hpos := h.pos
  rw [← hnil] at hpos
  exact absurd hpos (Nat.lt_irrefl 0)

theorem receive_loop_never_seven :
    receiveLoop .little fresh [⟨packetOfSeven, fun _ => 0⟩] = (fresh, [⟨packetOfSeven, fun _ => 0⟩]) := by
  obtain ⟨pkts, hp, hrun⟩ := receive_loop_never .little packable_seven
  obtain rfl : [packetOfSeven] = pkts := Except.ok.inj (pack_seven.symm.trans hp)
  exact (hrun _ (by simp) (by simp [AllIn])).1

theorem sevenStream_not_received : pack .little [7] = .ok [packetOfSeven] ∧
    AllIn [packetOfSeven] [⟨packetOfSeven, fun _ => 0⟩] ∧
    (receiveLoop .little fresh [⟨packetOfSeven, fun _ => 0⟩]).1.getPayload = .ok [] ∧
    ¬ StopsAtLast [packetOfSeven] [7] [⟨packetOfSeven, fun _ => 0⟩]
      (receiveLoop .little fresh [⟨packetOfSeven, fun _ => 0⟩]) := by
  refine ⟨pack_seven, by simp [AllIn], rfl, ?_⟩
  rintro ⟨-, -, -, -, -, -, -, hpayload⟩
  exact absurd (Except.ok.inj hpayload) (List.cons_ne_nil 7 []).symm

/-- The test behind: the loop stops with the last distinct packet. -/
theorem receive_loop_tested_behind (host : Endian) {payload : ByteVector} (h : Packable payload) :
    ∃ pkts, pack host payload = .ok pkts ∧
      ∀ stream : List Call, (∀ c ∈ stream, c.packet ∈ pkts) → AllIn pkts stream →
        StopsAtLast pkts payload stream (receiveAtLeastOne host fresh stream) := by
  refine ⟨fragments host payload, pack_eq h.pos, fun stream hc hall => ?_⟩
  cases stream with
  | nil => exact absurd hall h.not_allIn_nil
  | cons c₀ stream => exact h.receiveAtLeastOne_stops hc hall

end CcTools
