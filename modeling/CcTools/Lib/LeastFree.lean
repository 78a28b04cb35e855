import CcTools.Lib.Trace
import Mathlib.Data.Finset.Card
import Mathlib.Order.Bounds.Basic

/-!
# Handing out the least free name

The specification of an allocator of names from `start` on: taking gives the least name that is not
live, giving back makes a name free again, whoever does it and whether or not it was live. The live
names are a function of what happened before (`live`).
-/

namespace LeastFree

inductive Event (κ α : Type*) where
  | take (client : κ) (id : α)
  | give (client : κ) (id : α)

section
variable {κ α : Type*} [LinearOrder α]

def after (held : Finset α) : Event κ α → Finset α
  | .take _ i => insert i held
  | .give _ i => held.erase i

def live (events : List (Event κ α)) : Finset α := events.foldl after ∅

/-- How many names were live at once, after each part of the history. -/
def Loads (events : List (Event κ α)) : Set Nat := {n | ∃ pre, pre <+: events ∧ (live pre).card = n}

def Free (start : α) (held : Finset α) : Set α := {i | start ≤ i ∧ i ∉ held}

inductive Step (start : α) : Finset α → Event κ α → Finset α → Prop
  | take {held : Finset α} {k : κ} {i : α} (h : IsLeast (Free start held) i) :
    Step start held (.take k i) (insert i held)
  | give {held : Finset α} {k : κ} {i : α} : Step start held (.give k i) (held.erase i)

variable {start i : α} {held held' : Finset α} {k : κ} {events pre mid post : List (Event κ α)}

theorem Step.eq_after {e : Event κ α} (h : Step start held e held') : held' = after held e := by
  cases h <;> rfl

theorem eq_foldl_of_trace (h : Trace (Step start) held events held') : held' = events.foldl after held := by
  induction h with
  | nil => rfl
  | cons hstep _ ih => rw [List.foldl_cons, ih, hstep.eq_after]

/-- Whatever was done before, the name taken is the least one free. -/
theorem isLeast_of_trace (h : Trace (Step start) ∅ (pre ++ .take k i :: post) held) :
    IsLeast (Free start (live pre)) i := by
  obtain ⟨m, hpre, hrest⟩ := h.split
  obtain rfl : m = live pre := eq_foldl_of_trace hpre
  cases hrest with
  | cons hstep _ =>
    cases hstep with
    | take hleast => exact hleast

theorem live_concat (e : Event κ α) : live (events ++ [e]) = after (live events) e := List.foldl_concat ..

theorem loads_nil : Loads ([] : List (Event κ α)) = {0} := by
  ext n
  simp [Loads, live, eq_comm]

theorem loads_concat (e : Event κ α) : Loads (events ++ [e]) = insert (after (live events) e).card (Loads events) := by
  ext n
  simp only [Loads, Set.mem_ofPred_eq, Set.mem_insert_iff, List.prefix_concat_iff, ← live_concat]
  constructor
  · rintro ⟨pre, rfl | hpre, rfl⟩
    · exact .inl rfl
    · exact .inr ⟨pre, hpre, rfl⟩
  · rintro (rfl | ⟨pre, hpre, rfl⟩)
    · exact ⟨_, .inl rfl, rfl⟩
    · exact ⟨pre, .inr hpre, rfl⟩

theorem mem_foldl_after (hi : i ∈ held) (hmid : ∀ k : κ, Event.give k i ∉ mid) :
    i ∈ mid.foldl after held := by
  induction mid generalizing held with
  | nil => exact hi
  | cons e mid ih =>
    refine ih ?_ fun k hk => hmid k (List.mem_cons_of_mem _ hk)
    cases e with
    | take k' j => exact Finset.mem_insert_of_mem hi
    | give k' j =>
      refine Finset.mem_erase.2 ⟨?_, hi⟩
      rintro rfl
      exact hmid k' (List.mem_cons_self ..)

/-- A name taken twice was given back in between: no two clients hold it at once. -/
theorem given_between {k' : κ}
    (h : Trace (Step start) ∅ (pre ++ .take k i :: (mid ++ .take k' i :: post)) held) :
    ∃ k'', Event.give k'' i ∈ mid := by
  by_contra hno
  rw [not_exists] at hno
  rw [← List.cons_append, ← List.append_assoc] at h
  refine (isLeast_of_trace h).1.2 ?_
  rw [live, List.foldl_append, List.foldl_cons]
  exact mem_foldl_after (Finset.mem_insert_self ..) hno

end
end LeastFree
