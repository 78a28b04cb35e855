import CcTools.IdRefinement
import Mathlib.Data.Int.Interval

/-!
# `nextId` is the high-water mark

A fresh ID is taken only when every ID below it is live, so `nextId` is as far from `startId` as there were
live IDs at once, and no further (`nextId_eq_peak`).
-/

namespace CcTools.IdAllocator
open LeastFree

variable {κ : Type*} {startId : Int} {s : IdAllocator} {events : List (Event κ Int)}

namespace Inv

theorem card_le (h : Inv startId s) : startId + s.allocated.card ≤ s.nextId := by
  have hsub : s.allocated ⊆ Finset.Ico startId s.nextId := by
    intro i hi
    rw [Finset.mem_Ico]
    exact (h.issued i).1 (.inr hi)
  have hcard := Finset.card_le_card hsub
  have hstart := h.start_le
  rw [Int.card_Ico] at hcard
  omega

/-- Without a free ID all those below `nextId` are live. -/
theorem card_eq (h : Inv startId s) (htop : s.freeIds.top? = none) : startId + s.allocated.card = s.nextId := by
  have heq : s.allocated = Finset.Ico startId s.nextId := by
    ext i
    rw [Finset.mem_Ico, ← h.issued i, MinQueue.toList_of_top?_none htop]
    simp
  have hstart := h.start_le
  rw [heq, Int.card_Ico]
  omega

end Inv

theorem exists_peak (h : Trace Step (construct startId) events s) :
    ∃ n : Nat, IsGreatest (Loads events) n ∧ s.nextId = startId + n := by
  induction events using List.reverseRecOn generalizing s with
  | nil =>
    cases h
    exact ⟨0, by rw [loads_nil]; exact isGreatest_singleton, (Int.add_zero startId).symm⟩
  | append_singleton events e ih =>
    obtain ⟨m, hm, hstep⟩ := h.split_last
    obtain ⟨n, hn, hnext⟩ := ih hm
    obtain ⟨-, hi, hheld⟩ := shows_live hm
    obtain ⟨-, hi', hheld'⟩ := shows_live h
    have hins := hn.insert (after (live events) e).card
    rw [← loads_concat, ← live_concat, ← hheld'] at hins
    have hcard := hi.card_le
    have hcard' := hi'.card_le
    refine ⟨_, hins, ?_⟩
    cases hstep with
    | allocate hcall =>
      rcases allocate_cases hcall with ⟨htop, rfl⟩ | ⟨htop, rfl, rfl⟩
      · -- reuse: `nextId` stays, and so does the peak
        dsimp only at hcard' ⊢
        omega
      · have hfull := hi.card_eq htop
        have hfull' := Finset.card_insert_of_notMem (hi.isLeast_nextId htop).1.2
        dsimp only at hcard' ⊢
        omega
    | release hcall =>
      rcases release_cases hcall with ⟨hmem, rfl⟩ | ⟨hmem, rfl⟩
      · dsimp only at hcard' ⊢
        omega
      · omega

structure PeakLoad (startId : Int) (events : List (Event κ Int)) (s : IdAllocator) : Prop where
  peak : ∃ n : Nat, IsGreatest (Loads events) n ∧ s.nextId = startId + n
  /-- An ID returned is below the peak up to then. -/
  below : ∀ pre k i post, events = pre ++ .take k i :: post →
    ∃ n : Nat, IsGreatest (Loads (pre ++ [.take k i])) n ∧ i < startId + n

/-- In every run `nextId` is `startId` plus the greatest number of IDs that were live at once. -/
theorem nextId_eq_peak (startId : Int) (h : Trace Step (construct startId) events s) :
    PeakLoad startId events s := by
  refine ⟨exists_peak h, ?_⟩
  rintro pre k i post rfl
  rw [← List.singleton_append, ← List.append_assoc] at h
  obtain ⟨m, hm, -⟩ := h.split
  obtain ⟨n, hn, hnext⟩ := exists_peak hm
  obtain ⟨-, hi, hheld⟩ := shows_live hm
  have hmem : i ∈ m.allocated := by
    rw [hheld, live_concat]
    exact Finset.mem_insert_self _ _
  refine ⟨n, hn, ?_⟩
  rw [← hnext]
  exact ((hi.issued i).1 (.inr hmem)).2

/-- Three allocations, of which two were live at once. -/
theorem nextId_eq_peak_two : IsGreatest
    (Loads [Event.take true (5 : Int), .take false 6, .give true 5, .give false 99, .take true 5]) 2 := by
  have h : Trace Step (construct 5) [Event.take true 5, .take false 6, .give true 5, .give false 99, .take true 5]
      { nextId := 7, allocated := {5, 6} } := by
    refine .cons (.allocate rfl) (.cons (.allocate rfl) (.cons (.release rfl) (.cons (.release rfl)
      (.cons (.allocate ?_) (.nil _)))))
    rfl
  obtain ⟨n, hn, hnext⟩ := (nextId_eq_peak 5 h).peak
  obtain rfl : n = 2 := by
    dsimp only at hnext
    omega
  exact hn

end CcTools.IdAllocator
