import CcTools.IdAllocator

/-!
# The allocator hands out the least free ID

The free and the live IDs part the range from `startId` to `nextId` (`Inv`), so the top of the heap, or
else `nextId`, is the least ID that is not live. A run of the allocator is a run of the specification
`LeastFree.Step` with the same events (`simulates`, `refines_leastFree`).
-/

namespace CcTools.IdAllocator
open LeastFree

/-- One call by one client that returns: what it did is the event. -/
inductive Step {κ : Type*} (s : IdAllocator) : Event κ Int → IdAllocator → Prop
  | allocate {k : κ} {i : Int} {s' : IdAllocator} (h : (allocate true).run s = .ok i s') : Step s (.take k i) s'
  | release {k : κ} {i : Int} {s' : IdAllocator} (h : (release true i).run s = .ok () s') : Step s (.give k i) s'

structure Inv (startId : Int) (s : IdAllocator) : Prop where
  start_le : startId ≤ s.nextId
  issued : ∀ i, i ∈ s.freeIds.toList ∨ i ∈ s.allocated ↔ startId ≤ i ∧ i < s.nextId
  apart : ∀ i ∈ s.freeIds.toList, i ∉ s.allocated
  nodup : s.freeIds.toList.Nodup

variable {κ : Type*} {startId : Int} {s s' : IdAllocator} {i : Int}

namespace Inv

theorem construct (startId : Int) : Inv startId (construct startId) where
  start_le := Int.le_refl _
  issued i := by
    simp only [IdAllocator.construct, MinQueue.toList_empty, List.not_mem_nil, Finset.notMem_empty, false_or,
      false_iff]
    omega
  apart i hi := by simp [IdAllocator.construct] at hi
  nodup := List.nodup_nil

theorem isLeast_top (h : Inv startId s) (htop : s.freeIds.top? = some i) :
    IsLeast (Free startId s.allocated) i := by
  have hmem := MinQueue.top_mem htop
  refine ⟨⟨((h.issued i).1 (.inl hmem)).1, h.apart i hmem⟩, ?_⟩
  rintro j ⟨hstart, hfree⟩
  by_cases hj : j < s.nextId
  · exact MinQueue.top_le htop (((h.issued j).2 ⟨hstart, hj⟩).resolve_right hfree)
  · have hi := ((h.issued i).1 (.inl hmem)).2
    omega

theorem isLeast_nextId (h : Inv startId s) (htop : s.freeIds.top? = none) :
    IsLeast (Free startId s.allocated) s.nextId := by
  have hempty := MinQueue.toList_of_top?_none htop
  refine ⟨⟨h.start_le, fun hmem => ?_⟩, ?_⟩
  · have hlt := ((h.issued s.nextId).1 (.inr hmem)).2
    omega
  · rintro j ⟨hstart, hfree⟩
    refine Int.not_lt.1 fun hj => ?_
    rcases (h.issued j).2 ⟨hstart, hj⟩ with hmem | hmem
    · rw [hempty] at hmem
      simp at hmem
    · exact hfree hmem

theorem reuse (h : Inv startId s) (htop : s.freeIds.top? = some i) :
    Inv startId { s with freeIds := s.freeIds.pop, allocated := insert i s.allocated } where
  start_le := h.start_le
  issued j := by
    rw [← h.issued j, MinQueue.mem_pop htop h.nodup, Finset.mem_insert]
    have hmem := MinQueue.top_mem htop
    constructor
    · rintro (⟨hj, -⟩ | rfl | hj)
      · exact .inl hj
      · exact .inl hmem
      · exact .inr hj
    · rintro (hj | hj)
      · by_cases hji : j = i
        · exact .inr (.inl hji)
        · exact .inl ⟨hj, hji⟩
      · exact .inr (.inr hj)
  apart j hj := by
    obtain ⟨hj, hne⟩ := (MinQueue.mem_pop htop h.nodup).1 hj
    rw [Finset.mem_insert]
    rintro (rfl | hj')
    · exact hne rfl
    · exact h.apart j hj hj'
  nodup := MinQueue.nodup_pop h.nodup

theorem extend (h : Inv startId s) (htop : s.freeIds.top? = none) :
    Inv startId { s with nextId := s.nextId + 1, allocated := insert s.nextId s.allocated } where
  start_le := Int.le_trans h.start_le (Int.le_add_one (Int.le_refl _))
  issued j := by
    have hstart := h.start_le
    have hissued := h.issued j
    rw [Finset.mem_insert, or_left_comm, hissued]
    dsimp only
    omega
  apart j hj := by
    dsimp only at hj
    rw [MinQueue.toList_of_top?_none htop] at hj
    simp at hj
  nodup := h.nodup

theorem free (h : Inv startId s) (hi : i ∈ s.allocated) :
    Inv startId { s with freeIds := s.freeIds.push i, allocated := s.allocated.erase i } where
  start_le := h.start_le
  issued j := by
    rw [← h.issued j, MinQueue.mem_push, Finset.mem_erase]
    constructor
    · rintro ((rfl | hj) | ⟨-, hj⟩)
      · exact .inr hi
      · exact .inl hj
      · exact .inr hj
    · rintro (hj | hj)
      · exact .inl (.inr hj)
      · by_cases hji : j = i
        · exact .inl (.inl hji)
        · exact .inr ⟨hji, hj⟩
  apart j hj := by
    rw [Finset.mem_erase]
    rintro ⟨hne, hj'⟩
    rcases MinQueue.mem_push.1 hj with rfl | hj
    · exact hne rfl
    · exact h.apart j hj hj'
  nodup := MinQueue.nodup_push h.nodup fun hmem => h.apart i hmem hi

end Inv

def Shows (startId : Int) (s : IdAllocator) (held : Finset Int) : Prop :=
  Inv startId s ∧ s.allocated = held

theorem simulates (κ : Type*) (startId : Int) :
    Trace.Simulates (@Step κ) (LeastFree.Step startId) (Shows startId) := by
  rintro s held e s' ⟨hi, rfl⟩ hstep
  cases hstep with
  | allocate h =>
    rcases allocate_cases h with ⟨htop, rfl⟩ | ⟨htop, rfl, rfl⟩
    · exact ⟨_, .take (hi.isLeast_top htop), hi.reuse htop, rfl⟩
    · exact ⟨_, .take (hi.isLeast_nextId htop), hi.extend htop, rfl⟩
  | @release k i s' h =>
    rcases release_cases h with ⟨hmem, rfl⟩ | ⟨hmem, rfl⟩
    · exact ⟨_, .give, hi.free hmem, rfl⟩
    · -- nobody holds the ID: neither side changes
      refine ⟨_, .give, hi, ?_⟩
      rw [Finset.erase_eq_of_notMem hmem]

theorem shows_live {events : List (Event κ Int)} (h : Trace Step (construct startId) events s) :
    Trace (LeastFree.Step startId) ∅ events (live events) ∧ Shows startId s (live events) := by
  obtain ⟨held, htrace, hshows⟩ := Trace.simulate (simulates κ startId) h ⟨.construct startId, rfl⟩
  obtain rfl : held = live events := eq_foldl_of_trace htrace
  exact ⟨htrace, hshows⟩

/-- What the events of a run and the state after it say of the assignment of IDs. -/
structure AssignsLeast (startId : Int) (events : List (Event κ Int)) (s : IdAllocator) : Prop where
  refines : Trace (LeastFree.Step startId) ∅ events (live events)
  least : ∀ pre k i post, events = pre ++ .take k i :: post → IsLeast {j | startId ≤ j ∧ j ∉ live pre} i
  /-- An ID allocated twice was released in between. -/
  exclusive : ∀ pre k i mid k' post, events = pre ++ .take k i :: (mid ++ .take k' i :: post) →
    ∃ k'', Event.give k'' i ∈ mid
  allocated : s.allocated = live events
  nodup : s.freeIds.toList.Nodup
  free_not_live : ∀ i ∈ s.freeIds.toList, i ∉ live events
  allocates : (∃ i s', (allocate true).run s = .ok i s') ↔ ¬ (s.freeIds.toList = [] ∧ s.nextId = intMax)
  releases : ∀ id, ∃ s', (release true id).run s = .ok () s'

/-- Every run of allocations and releases, by any clients in any order, refines the specification. -/
theorem refines_leastFree (startId : Int) {events : List (Event κ Int)}
    (h : Trace Step (construct startId) events s) : AssignsLeast startId events s := by
  obtain ⟨htrace, hi, hheld⟩ := shows_live h
  refine ⟨htrace, ?_, ?_, hheld, hi.nodup, fun i hmem => hheld ▸ hi.apart i hmem, ?_, release_returns s⟩
  · rintro pre k i post rfl
    exact isLeast_of_trace htrace
  · rintro pre k i mid k' post rfl
    exact given_between htrace
  · rw [allocate_returns_iff, MinQueue.top?, List.head?_eq_none_iff]

/-- Two clients: 5 and 6 are allocated, 5 is released twice and 99 without having been allocated, and 5
comes back next. -/
theorem refines_leastFree_five : IsLeast {j : Int | 5 ≤ j ∧
    j ∉ live [Event.take true 5, .take false 6, .give true 5, .give false 5, .give false 99]} 5 := by
  have h : Trace Step (construct 5) ([Event.take true 5, .take false 6, .give true 5, .give false 5,
      .give false 99] ++ [.take false 5])
      { nextId := 7, allocated := {5, 6} } := by
    refine .cons (.allocate rfl) (.cons (.allocate rfl) (.cons (.release rfl) (.cons (.release rfl)
      (.cons (.release rfl) (.cons (.allocate ?_) (.nil _))))))
    rfl
  exact (refines_leastFree 5 h).least _ false 5 [] rfl

end CcTools.IdAllocator
