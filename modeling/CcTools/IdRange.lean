import CcTools.AllocatorRuns
import CcTools.PeakLoad

/-!
# IDs at the end of the `int` range

Nothing stops `nextId++` at `INT_MAX`. `ids_in_range_iff` says how many IDs may be live before the
increment overflows; it runs ahead of the ID returned, so `INT_MAX` itself is never handed out.
-/

namespace CcTools.IdAllocator
open Runs

variable {startId : Int} {s : IdAllocator} {op : Op}

/-- The call does not overflow, and an ID it returns is not below `startId`. -/
structure InRange (startId : Int) (s : IdAllocator) (op : Op) : Prop where
  noOverflow : ∀ s', (op.call true).run s ≠ .error .overflow s'
  start_le : ∀ id s', (op.call true).run s = .ok (some id) s' → startId ≤ id

/-- Fewer IDs are live than there are `int` values from `startId` to before `INT_MAX`. -/
def HasRoom (startId : Int) (s : IdAllocator) (op : Op) : Prop :=
  op = .allocate → (s.allocated.card : Int) < intMax - startId

/-- What holds of every state, overflow or not: an overflowing call is not followed any further. -/
def InvInt (startId : Int) (s : IdAllocator) : Prop := Inv startId s ∧ s.nextId ≤ intMax

theorem InvInt.next (h : InvInt startId s) (op : Op) : InvInt startId (next true s op) := by
  obtain ⟨hi, hle⟩ := h
  generalize hm : true = memory
  refine next_cases fun r ho => ?_
  cases ho with
  | reused htop => exact ⟨hi.reuse htop, hle⟩
  | extended htop hmax =>
    refine ⟨hi.extend htop, ?_⟩
    dsimp only [leftBy]
    omega
  | exhausted | ignored => exact ⟨hi, hle⟩
  | freed hmem => exact ⟨hi.free hmem, hle⟩
  | reuseFailed | extendFailed | freeFailed => cases hm

/-- No ID is left exactly when all those before `INT_MAX` are live. -/
theorem exhausted_iff (h : InvInt startId s) :
    s.freeIds.top? = none ∧ s.nextId = intMax ↔ intMax - startId ≤ (s.allocated.card : Int) := by
  obtain ⟨hi, hle⟩ := h
  constructor
  · rintro ⟨htop, hmax⟩
    have hcard := hi.card_eq htop
    omega
  · intro hfull
    have hcard := hi.card_le
    cases htop : s.freeIds.top? with
    | none => exact ⟨rfl, by omega⟩
    | some i =>
      -- a free ID below `INT_MAX` would be one more
      have hcard' := (hi.reuse htop).card_le
      have hnew := Finset.card_insert_of_notMem (hi.isLeast_top htop).1.2
      dsimp only at hcard'
      omega

theorem returned_range {id : Int} {s' : IdAllocator} (h : InvInt startId s)
    (he : (op.call true).run s = .ok (some id) s') : startId ≤ id ∧ id < intMax := by
  obtain ⟨hi, hle⟩ := h
  have ho := call_outcome s true op
  rw [he] at ho
  cases ho with
  | reused htop =>
    obtain ⟨hstart, hlt⟩ := (hi.issued id).1 (.inl (MinQueue.top_mem htop))
    exact ⟨hstart, Int.lt_of_lt_of_le hlt hle⟩
  | extended _ hmax =>
    have hstart := hi.start_le
    omega

theorem inRange_iff (h : InvInt startId s) : InRange startId s op ↔ HasRoom startId s op := by
  constructor
  · rintro hin rfl
    by_contra hfull
    obtain ⟨htop, hmax⟩ := (exhausted_iff h).2 (Int.not_lt.1 hfull)
    exact hin.noOverflow s (call_exhausted true htop hmax)
  · intro hroom
    refine ⟨fun s' he => ?_, fun id s' he => (returned_range h he).1⟩
    have ho := call_outcome s true op
    rw [he] at ho
    cases ho with
    | exhausted htop hmax => exact Int.not_lt.2 ((exhausted_iff h).1 ⟨htop, hmax⟩) (hroom rfl)

/-- In any run from any `startId`, the increment does not overflow and IDs are not below `startId`, as long as
each allocation finds fewer than `INT_MAX - startId` IDs live. -/
theorem ids_in_range_iff (startId : Int32) (ops : List Op) :
    EveryStep (next true) (InRange startId.toInt) (construct startId.toInt) ops ↔
      EveryStep (next true) (HasRoom startId.toInt) (construct startId.toInt) ops :=
  everyStep_congr (J := InvInt startId.toInt) (fun _ h op => h.next op) (fun _ h _ => inRange_iff h)
    ⟨.construct _, startId.toInt_le⟩

/-- The first allocation overflows. -/
theorem startAtIntMax_overflows : Int32.maxValue.toInt = intMax ∧
    ¬ EveryStep (next true) (InRange Int32.maxValue.toInt) (construct Int32.maxValue.toInt) [.allocate] := by
  refine ⟨by decide, fun h => ?_⟩
  exact h.1.noOverflow _ (call_exhausted true rfl (by decide))

end CcTools.IdAllocator
