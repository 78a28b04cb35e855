import Mathlib.Data.List.Sort

/-!
# Priority queues with the least element on top

A queue is the sorted list of its elements, duplicates included: what its operations can tell apart.
-/

structure MinQueue (α : Type*) [LinearOrder α] where
  toList : List α
  sorted : toList.Pairwise (· ≤ ·)

namespace MinQueue
variable {α : Type*} [LinearOrder α]

def empty : MinQueue α := ⟨[], .nil⟩

def push (q : MinQueue α) (a : α) : MinQueue α :=
  ⟨q.toList.orderedInsert (· ≤ ·) a, q.sorted.orderedInsert a _⟩

def top? (q : MinQueue α) : Option α := q.toList.head?

def pop (q : MinQueue α) : MinQueue α := ⟨q.toList.tail, q.sorted.tail⟩

variable {q : MinQueue α} {a b : α}

@[simp] theorem toList_empty : (empty : MinQueue α).toList = [] := rfl

theorem mem_push : b ∈ (q.push a).toList ↔ b = a ∨ b ∈ q.toList := List.mem_orderedInsert _

theorem nodup_push (h : q.toList.Nodup) (ha : a ∉ q.toList) : (q.push a).toList.Nodup :=
  (List.perm_orderedInsert _ a q.toList).nodup_iff.2 (List.nodup_cons.2 ⟨ha, h⟩)

theorem toList_of_top?_none (h : q.top? = none) : q.toList = [] := List.head?_eq_none_iff.1 h

theorem toList_of_top?_some (h : q.top? = some a) : q.toList = a :: q.pop.toList :=
  (List.cons_head?_tail h).symm

theorem mem_pop (h : q.top? = some a) (hn : q.toList.Nodup) : b ∈ q.pop.toList ↔ b ∈ q.toList ∧ b ≠ a := by
  have hl := toList_of_top?_some h
  rw [hl] at hn
  rw [hl, List.mem_cons]
  constructor
  · intro hb
    refine ⟨.inr hb, ?_⟩
    rintro rfl
    exact (List.nodup_cons.1 hn).1 hb
  · rintro ⟨rfl | hb, hne⟩
    · exact absurd rfl hne
    · exact hb

theorem top_mem (h : q.top? = some a) : a ∈ q.toList := by
  rw [toList_of_top?_some h]
  exact List.mem_cons_self ..

theorem top_le (h : q.top? = some a) (hb : b ∈ q.toList) : a ≤ b := by
  have hs := q.sorted
  rw [toList_of_top?_some h] at hs hb
  rcases List.mem_cons.1 hb with rfl | hb
  · exact le_refl b
  · exact (List.pairwise_cons.1 hs).1 b hb

theorem nodup_pop (h : q.toList.Nodup) : q.pop.toList.Nodup := h.tail

end MinQueue
