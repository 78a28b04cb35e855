import CcTools.UnpackerInv

/-!
# The two completion reports

`getMissingIndices` and `isComplete` in terms of the set of received indices, for a receiver whose
counter is the size of that set and whose indices lie below `totalPackages`.
-/

namespace CcTools
open NetPacker

theorem mem_indicesBelow {i n : UInt32} : i ∈ indicesBelow n ↔ i < n := by
  simp only [indicesBelow, List.mem_map, List.mem_range, UInt32.lt_iff_toNat_lt]
  constructor
  · rintro ⟨k, hk, rfl⟩
    have := n.toNat_lt
    rwa [UInt32.toNat_ofNat_of_lt' (Nat.lt_trans hk this)]
  · intro hi
    exact ⟨i.toNat, hi, UInt32.ofNat_toNat⟩

theorem map_toNat_indicesBelow (n : UInt32) : (indicesBelow n).map UInt32.toNat = List.range n.toNat := by
  rw [indicesBelow, List.map_map]
  calc
    (List.range n.toNat).map (UInt32.toNat ∘ UInt32.ofNat) = (List.range n.toNat).map id :=
      List.map_congr_left fun k hk =>
        UInt32.toNat_ofNat_of_lt' (Nat.lt_trans (List.mem_range.1 hk) n.toNat_lt)
    _ = List.range n.toNat := List.map_id _

theorem pairwise_indicesBelow (n : UInt32) : (indicesBelow n).Pairwise (· < ·) := by
  have hrange : (List.range n.toNat).Pairwise (· < ·) := List.pairwise_lt_range
  rw [← map_toNat_indicesBelow, List.pairwise_map] at hrange
  exact hrange.imp UInt32.lt_iff_toNat_lt.2

theorem length_indicesBelow (n : UInt32) : (indicesBelow n).length = n.toNat := by
  simp [indicesBelow]

theorem nodup_indicesBelow (n : UInt32) : (indicesBelow n).Nodup :=
  (pairwise_indicesBelow n).imp fun h => UInt32.ne_of_lt h

theorem card_eq_iff_of_lt {R : Finset UInt32} {n : UInt32} (h : ∀ i ∈ R, i < n) :
    R.card ≤ n.toNat ∧ (R.card = n.toNat ↔ ∀ i < n, i ∈ R) := by
  have hsub : R ⊆ (indicesBelow n).toFinset := fun i hi =>
    List.mem_toFinset.2 (mem_indicesBelow.2 (h i hi))
  have hcard : (indicesBelow n).toFinset.card = n.toNat := by
    rw [List.toFinset_card_of_nodup (nodup_indicesBelow n), length_indicesBelow]
  refine ⟨hcard ▸ Finset.card_le_card hsub, fun he i hi => ?_, fun hall => ?_⟩
  · rw [Finset.eq_of_subset_of_card_le hsub (by rw [hcard, he])]
    exact List.mem_toFinset.2 (mem_indicesBelow.2 hi)
  · rw [← hcard]
    congr 1
    exact Finset.Subset.antisymm hsub fun i hi => hall i (mem_indicesBelow.1 (List.mem_toFinset.1 hi))

namespace NetUnpacker
variable {s : NetUnpacker}

theorem getMissingIndices_eq (s : NetUnpacker) :
    s.getMissingIndices = (indicesBelow s.totalPackages).filter (· ∉ s.receivedIndices) := by
  have hfun : (fun (missing : List UInt32) i => if i ∈ s.receivedIndices then missing else missing ++ [i]) =
      fun missing i => missing ++ if i ∈ s.receivedIndices then [] else [i] := by
    funext missing i
    split <;> simp
  rw [getMissingIndices, hfun, ← List.flatMap_eq_foldl]
  induction indicesBelow s.totalPackages with
  | nil => rfl
  | cons i l ih => by_cases hi : i ∈ s.receivedIndices <;> simp [hi, ih]

theorem mem_getMissingIndices {i : UInt32} :
    i ∈ s.getMissingIndices ↔ i < s.totalPackages ∧ i ∉ s.receivedIndices := by
  rw [getMissingIndices_eq, List.mem_filter, mem_indicesBelow, decide_eq_true_iff]

theorem pairwise_getMissingIndices (s : NetUnpacker) : s.getMissingIndices.Pairwise (· < ·) := by
  rw [getMissingIndices_eq]
  exact (pairwise_indicesBelow _).filter _

theorem getMissingIndices_eq_nil :
    s.getMissingIndices = [] ↔ ∀ i < s.totalPackages, i ∈ s.receivedIndices := by
  rw [List.eq_nil_iff_forall_not_mem]
  simp only [mem_getMissingIndices, not_and, not_not]

/-- With every index below `totalPackages`, the counter is right about completeness. -/
theorem isComplete_iff (hcount : s.receivedCount = UInt32.ofNat s.receivedIndices.card)
    (hlt : ∀ i ∈ s.receivedIndices, i < s.totalPackages) :
    s.isComplete = true ↔ ∀ i < s.totalPackages, i ∈ s.receivedIndices := by
  obtain ⟨hle, hiff⟩ := card_eq_iff_of_lt hlt
  have hsize := s.totalPackages.toNat_lt
  rw [isComplete, beq_iff_eq, hcount, ← hiff, ← UInt32.toNat_inj,
    UInt32.toNat_ofNat_of_lt' (Nat.lt_of_le_of_lt hle hsize)]

theorem getPayload_error_iff : (∃ e, s.getPayload = .error e) ↔ s.isComplete = false := by
  unfold getPayload
  cases s.isComplete <;> simp [throw, throwThe, MonadExceptOf.throw, pure, Except.pure]

theorem getPayload_of_isComplete (h : s.isComplete = true) : s.getPayload = .ok s.buffer := by
  rw [getPayload, h]; rfl

end NetUnpacker
end CcTools
