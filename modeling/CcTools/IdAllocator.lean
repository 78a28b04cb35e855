import CcTools.Lib.LeastFree
import CcTools.Lib.MinQueue

/-!
# `IdAllocator`

The allocator of `utils/IdAllocator.cpp`. Each call holds `mutex_` from its first line to its last, so
the calls of any number of clients follow one another. A container that has to grow may throw
`std::bad_alloc`, which leaves the container as it was but not what the call did before.
-/

namespace CcTools

def intMax : Int := 2147483647

structure IdAllocator where
  nextId : Int
  freeIds : MinQueue Int := .empty
  allocated : Finset Int := ∅

namespace IdAllocator

/-- How a call can fail to return: `std::bad_alloc`, or `++` on `INT_MAX`, after which the language
promises nothing. -/
inductive Failure where
  | badAlloc
  | overflow
deriving DecidableEq, Repr

abbrev AllocM := EStateM Failure IdAllocator

def construct (startId : optParam Int 0) : IdAllocator := { nextId := startId }

def postIncrement : AllocM Int := do
  let id := (← get).nextId
  if id = intMax then
    throw .overflow
  modify fun s => { s with nextId := id + 1 }
  return id

/-- `allocated_.insert(id)`, where `memory` says whether the set gets the memory it asks for. -/
def insertAllocated (memory : Bool) (id : Int) : AllocM Unit := do
  if !memory then
    throw .badAlloc
  modify fun s => { s with allocated := insert id s.allocated }

def pushFree (memory : Bool) (id : Int) : AllocM Unit := do
  if !memory then
    throw .badAlloc
  modify fun s => { s with freeIds := s.freeIds.push id }

def allocate (memory : Bool) : AllocM Int := do
  let id ← match (← get).freeIds.top? with
    | some id => do
      modify fun s => { s with freeIds := s.freeIds.pop }
      pure id
    | none => postIncrement
  insertAllocated memory id
  return id

def release (memory : Bool) (id : Int) : AllocM Unit := do
  if id ∈ (← get).allocated then
    modify fun s => { s with allocated := s.allocated.erase id }
    pushFree memory id

variable {s s' : IdAllocator} {i : Int}

theorem allocate_run (s : IdAllocator) (memory : Bool) : (allocate memory).run s =
    match s.freeIds.top? with
    | some id =>
      if memory then .ok id { s with freeIds := s.freeIds.pop, allocated := insert id s.allocated }
      else .error .badAlloc { s with freeIds := s.freeIds.pop }
    | none =>
      if s.nextId = intMax then .error .overflow s
      else if memory then .ok s.nextId { s with nextId := s.nextId + 1, allocated := insert s.nextId s.allocated }
      else .error .badAlloc { s with nextId := s.nextId + 1 } := by
  cases htop : s.freeIds.top? with
  | some id =>
    simp only [allocate, EStateM.run_bind, EStateM.run_get, htop]
    cases memory <;> rfl
  | none =>
    simp only [allocate, EStateM.run_bind, EStateM.run_get, htop, postIncrement]
    by_cases hmax : s.nextId = intMax
    · simp only [hmax, ↓reduceIte]
      rfl
    · simp only [hmax, ↓reduceIte]
      cases memory <;> rfl

theorem release_run (s : IdAllocator) (memory : Bool) (id : Int) : (release memory id).run s =
    if id ∈ s.allocated then
      if memory then .ok () { s with freeIds := s.freeIds.push id, allocated := s.allocated.erase id }
      else .error .badAlloc { s with allocated := s.allocated.erase id }
    else .ok () s := by
  by_cases hmem : id ∈ s.allocated
  · simp only [release, EStateM.run_bind, EStateM.run_get, hmem, ↓reduceIte]
    cases memory <;> rfl
  · simp only [release, EStateM.run_bind, EStateM.run_get, hmem, ↓reduceIte]
    rfl

/-! ### Calls that get their memory -/

theorem allocate_cases (h : (allocate true).run s = .ok i s') :
    (s.freeIds.top? = some i ∧ s' = { s with freeIds := s.freeIds.pop, allocated := insert i s.allocated }) ∨
    (s.freeIds.top? = none ∧ i = s.nextId ∧
      s' = { s with nextId := s.nextId + 1, allocated := insert s.nextId s.allocated }) := by
  rw [allocate_run] at h
  cases htop : s.freeIds.top? with
  | some id =>
    rw [htop] at h
    cases h
    exact .inl ⟨rfl, rfl⟩
  | none =>
    rw [htop] at h
    dsimp only at h
    split at h
    · cases h
    · cases h
      exact .inr ⟨rfl, rfl, rfl⟩

theorem release_cases {id : Int} (h : (release true id).run s = .ok () s') :
    (id ∈ s.allocated ∧ s' = { s with freeIds := s.freeIds.push id, allocated := s.allocated.erase id }) ∨
    (id ∉ s.allocated ∧ s' = s) := by
  rw [release_run] at h
  split at h
  · cases h
    exact .inl ⟨‹_›, rfl⟩
  · cases h
    exact .inr ⟨‹_›, rfl⟩

theorem allocate_returns_iff :
    (∃ i s', (allocate true).run s = .ok i s') ↔ ¬ (s.freeIds.top? = none ∧ s.nextId = intMax) := by
  rw [allocate_run]
  cases s.freeIds.top? with
  | some id => simp
  | none =>
    by_cases hmax : s.nextId = intMax
    · simp [hmax]
    · simp [hmax]

theorem release_returns (s : IdAllocator) (id : Int) : ∃ s', (release true id).run s = .ok () s' := by
  rw [release_run]
  split
  · exact ⟨_, rfl⟩
  · exact ⟨_, rfl⟩

end IdAllocator
end CcTools
