import CcTools.IdRefinement
import CcTools.Lib.Runs

/-!
# Runs of an allocator whose calls may fail

A caller that catches `std::bad_alloc` goes on with what the call left behind. `call_outcome` lists
everything a call can come to; the IDs that fall out of the two containers on the way are never seen again
(`no_id_lost_iff`).
-/

namespace CcTools.IdAllocator
open Runs

inductive Op where
  | allocate
  | release (id : Int)
deriving DecidableEq, Repr

/-- The call, and the ID it returns if it returns one. -/
def Op.call (memory : Bool) : Op → AllocM (Option Int)
  | .allocate => do
    let id ← IdAllocator.allocate memory
    return some id
  | .release id => do
    IdAllocator.release memory id
    return none

def leftBy : EStateM.Result Failure IdAllocator (Option Int) → IdAllocator
  | .ok _ s => s
  | .error _ s => s

def next (memory : Bool) (s : IdAllocator) (op : Op) : IdAllocator := leftBy ((op.call memory).run s)

variable {startId : Int} {s : IdAllocator} {memory : Bool} {op : Op}

inductive Outcome (s : IdAllocator) : Bool → Op → EStateM.Result Failure IdAllocator (Option Int) → Prop
  | reused {i : Int} (htop : s.freeIds.top? = some i) : Outcome s true .allocate
      (.ok (some i) { s with freeIds := s.freeIds.pop, allocated := insert i s.allocated })
  | extended (htop : s.freeIds.top? = none) (hmax : s.nextId ≠ intMax) : Outcome s true .allocate
      (.ok (some s.nextId) { s with nextId := s.nextId + 1, allocated := insert s.nextId s.allocated })
  | exhausted {memory : Bool} (htop : s.freeIds.top? = none) (hmax : s.nextId = intMax) :
    Outcome s memory .allocate (.error .overflow s)
  /-- The top is popped when the insertion fails, or else `nextId` is past the ID. -/
  | reuseFailed {i : Int} (htop : s.freeIds.top? = some i) : Outcome s false .allocate
      (.error .badAlloc { s with freeIds := s.freeIds.pop })
  | extendFailed (htop : s.freeIds.top? = none) (hmax : s.nextId ≠ intMax) : Outcome s false .allocate
      (.error .badAlloc { s with nextId := s.nextId + 1 })
  | freed {id : Int} (hmem : id ∈ s.allocated) : Outcome s true (.release id)
      (.ok none { s with freeIds := s.freeIds.push id, allocated := s.allocated.erase id })
  /-- The ID is erased when the push fails. -/
  | freeFailed {id : Int} (hmem : id ∈ s.allocated) : Outcome s false (.release id)
      (.error .badAlloc { s with allocated := s.allocated.erase id })
  | ignored {memory : Bool} {id : Int} (hmem : id ∉ s.allocated) : Outcome s memory (.release id) (.ok none s)

theorem call_exhausted (memory : Bool) (htop : s.freeIds.top? = none) (hmax : s.nextId = intMax) :
    (Op.allocate.call memory).run s = .error .overflow s := by
  simp only [Op.call, EStateM.run_bind, allocate_run, htop, hmax, ↓reduceIte]

theorem call_extended (htop : s.freeIds.top? = none) (hmax : s.nextId ≠ intMax) : (Op.allocate.call true).run s =
    .ok (some s.nextId) { s with nextId := s.nextId + 1, allocated := insert s.nextId s.allocated } := by
  simp only [Op.call, EStateM.run_bind, allocate_run, htop, hmax, ↓reduceIte]
  rfl

theorem call_outcome (s : IdAllocator) (memory : Bool) (op : Op) :
    Outcome s memory op ((op.call memory).run s) := by
  cases op with
  | allocate =>
    cases htop : s.freeIds.top? with
    | some i =>
      simp only [Op.call, EStateM.run_bind, allocate_run, htop]
      cases memory with
      | true => exact .reused htop
      | false => exact .reuseFailed htop
    | none =>
      by_cases hmax : s.nextId = intMax
      · rw [call_exhausted memory htop hmax]
        exact .exhausted htop hmax
      · simp only [Op.call, EStateM.run_bind, allocate_run, htop, hmax, ↓reduceIte]
        cases memory with
        | true => exact .extended htop hmax
        | false => exact .extendFailed htop hmax
  | release id =>
    by_cases hmem : id ∈ s.allocated
    · simp only [Op.call, EStateM.run_bind, release_run, hmem, ↓reduceIte]
      cases memory with
      | true => exact .freed hmem
      | false => exact .freeFailed hmem
    · simp only [Op.call, EStateM.run_bind, release_run, hmem, ↓reduceIte]
      exact .ignored hmem

theorem next_cases {P : IdAllocator → Prop} (h : ∀ r, Outcome s memory op r → P (leftBy r)) :
    P (next memory s op) :=
  h _ (call_outcome s memory op)

/-- A call that does not return throws, and leaves everything as it was. -/
def Intact (s : IdAllocator) (op : Op) (memory : Bool) : Prop :=
  ∀ e s', (op.call memory).run s = .error e s' → e = .badAlloc ∧ s' = s

/-- The container that the call has to enlarge does not get the memory, or no ID is left. -/
def Fails (s : IdAllocator) (memory : Bool) : Op → Prop
  | .allocate => memory = false ∨ s.freeIds.top? = none ∧ s.nextId = intMax
  | .release id => memory = false ∧ id ∈ s.allocated

theorem pop_ne_self {i : Int} (htop : s.freeIds.top? = some i) : s.freeIds.pop ≠ s.freeIds := by
  intro heq
  have hlist := MinQueue.toList_of_top?_some htop
  rw [heq] at hlist
  exact List.cons_ne_self i _ hlist.symm

theorem intact_iff : Intact s op memory ↔ ¬ Fails s memory op := by
  have ho := call_outcome s memory op
  unfold Intact
  generalize (op.call memory).run s = r at ho ⊢
  cases ho with
  | reused htop =>
    refine ⟨fun _ hf => ?_, fun _ e s' he => by cases he⟩
    rcases hf with hf | ⟨hf, -⟩
    · cases hf
    · rw [htop] at hf
      cases hf
  | extended _ hmax =>
    refine ⟨fun _ hf => ?_, fun _ e s' he => by cases he⟩
    rcases hf with hf | ⟨-, hf⟩
    · cases hf
    · exact hmax hf
  | exhausted htop hmax =>
    refine ⟨fun h => ?_, fun hno => absurd (.inr ⟨htop, hmax⟩) hno⟩
    cases (h _ _ rfl).1
  | reuseFailed htop =>
    refine ⟨fun h => ?_, fun hno => absurd (.inl rfl) hno⟩
    exact absurd (congrArg freeIds (h _ _ rfl).2) (pop_ne_self htop)
  | extendFailed =>
    refine ⟨fun h => ?_, fun hno => absurd (.inl rfl) hno⟩
    have hnext := congrArg nextId (h _ _ rfl).2
    dsimp only at hnext
    omega
  | freed =>
    refine ⟨fun _ hf => ?_, fun _ e s' he => by cases he⟩
    cases hf.1
  | freeFailed hmem =>
    refine ⟨fun h => ?_, fun hno => absurd ⟨rfl, hmem⟩ hno⟩
    have herase := congrArg allocated (h _ _ rfl).2
    exact absurd hmem (herase ▸ Finset.notMem_erase _ _)
  | ignored hmem => exact ⟨fun _ hf => hmem hf.2, fun _ e s' he => by cases he⟩

theorem Inv.next (h : Inv startId s) (hno : ¬ Fails s memory op) : Inv startId (next memory s op) := by
  refine next_cases fun r ho => ?_
  cases ho with
  | reused htop => exact h.reuse htop
  | extended htop => exact h.extend htop
  | exhausted | ignored => exact h
  | reuseFailed | extendFailed => exact absurd (.inl rfl) hno
  | freed hmem => exact h.free hmem
  | freeFailed hmem => exact absurd ⟨rfl, hmem⟩ hno

def Parted (startId : Int) (s : IdAllocator) : Prop :=
  ∀ i, startId ≤ i → i < s.nextId → Xor (i ∈ s.allocated) (i ∈ s.freeIds.toList)

theorem Inv.parted (h : Inv startId s) : Parted startId s := by
  intro i hstart hnext
  rcases (h.issued i).2 ⟨hstart, hnext⟩ with hmem | hmem
  · exact .inr ⟨hmem, h.apart i hmem⟩
  · exact .inl ⟨hmem, fun hfree => h.apart i hfree hmem⟩

/-- Requests beside what the containers get, one after the other. -/
def step (s : IdAllocator) (r : Op × Bool) : IdAllocator := IdAllocator.next r.2 s r.1

structure NoIdLost (startId : Int) (requests : List (Op × Bool)) : Prop where
  parted : EveryState step (Parted startId) (construct startId) requests
  intact : EveryStep step (fun s r => Intact s r.1 r.2) (construct startId) requests

/-- No ID is lost exactly in the runs where no container operation fails. -/
theorem no_id_lost_iff (startId : Int) (requests : List (Op × Bool)) :
    NoIdLost startId requests ↔ EveryStep step (fun s r => ¬ Fails s r.2 r.1) (construct startId) requests := by
  have hiff : EveryStep step (fun s r => Intact s r.1 r.2) (construct startId) requests ↔
      EveryStep step (fun s r => ¬ Fails s r.2 r.1) (construct startId) requests :=
    everyStep_congr (J := fun _ => True) (fun _ _ _ => trivial) (fun _ _ _ => intact_iff) trivial
  refine ⟨fun h => hiff.1 h.intact, fun hno => ⟨?_, hiff.2 hno⟩⟩
  exact (hno.everyState (fun _ h _ hno => h.next hno) (Inv.construct startId)).imp fun _ h => h.parted

/-- ID 0 is released, but the queue gets no memory: it is in neither container, and releasing it again does
not help. -/
theorem releasedId_lost : ¬ NoIdLost 0 [(.allocate, true), (.release 0, false)] ∧
    ¬ Parted 0 (run step (construct 0) [(.allocate, true), (.release 0, false), (.release 0, true)]) := by
  constructor
  · intro h
    have hsame := (h.intact.2.1 .badAlloc _ rfl).2
    exact absurd (congrArg allocated hsame) (by decide)
  · intro h
    rcases h 0 (by decide) (by decide) with ⟨hmem, -⟩ | ⟨hmem, -⟩
    · exact absurd hmem (by decide)
    · exact absurd hmem (by decide)

end CcTools.IdAllocator
