import CcTools.IdRange

/-!
# What a client can observe of the allocator

Everything the allocator answers follows from the set of the live IDs, and not from the calls that made them live
(`history_independent`). A row of allocations takes the least free IDs in ascending order (`allocations_ascend`).
-/

namespace CcTools.IdAllocator
open Runs LeastFree

/-- How the call ends, without the state it leaves. -/
def answer (s : IdAllocator) (op : Op) : Except Failure (Option Int) :=
  match (op.call true).run s with
  | .ok r _ => .ok r
  | .error e _ => .error e

def answers (s : IdAllocator) (ops : List Op) : List (Except Failure (Option Int)) := outputs (next true) answer s ops

variable {startId : Int} {s t : IdAllocator} {op : Op} {i : Int}

/-- The same IDs are live. -/
structure Alike (startId : Int) (s t : IdAllocator) : Prop where
  left : InvInt startId s
  right : InvInt startId t
  allocated : s.allocated = t.allocated

theorem answer_full (h : InvInt startId s) (hfull : intMax - startId ≤ (s.allocated.card : Int)) :
    answer s .allocate = .error .overflow ∧ (next true s .allocate).allocated = s.allocated := by
  obtain ⟨htop, hmax⟩ := (exhausted_iff h).2 hfull
  rw [answer, next, call_exhausted true htop hmax]
  exact ⟨rfl, rfl⟩

/-- With an ID left, an allocation takes the least free one. -/
theorem answer_least (h : InvInt startId s) (hroom : (s.allocated.card : Int) < intMax - startId) :
    ∃ i, IsLeast (Free startId s.allocated) i ∧ answer s .allocate = .ok (some i) ∧
      (next true s .allocate).allocated = insert i s.allocated := by
  have ho := call_outcome s true .allocate
  unfold answer next
  generalize (Op.allocate.call true).run s = r at ho ⊢
  cases ho with
  | @reused i htop => exact ⟨i, h.1.isLeast_top htop, rfl, rfl⟩
  | extended htop => exact ⟨s.nextId, h.1.isLeast_nextId htop, rfl, rfl⟩
  | exhausted htop hmax => exact absurd ((exhausted_iff h).1 ⟨htop, hmax⟩) (not_le.2 hroom)

theorem answer_release (s : IdAllocator) (id : Int) :
    answer s (.release id) = .ok none ∧ (next true s (.release id)).allocated = s.allocated.erase id := by
  have ho := call_outcome s true (.release id)
  unfold answer next
  generalize ((Op.release id).call true).run s = r at ho ⊢
  cases ho with
  | freed => exact ⟨rfl, rfl⟩
  | ignored hmem => exact ⟨rfl, (Finset.erase_eq_of_notMem hmem).symm⟩

theorem Alike.call (h : Alike startId s t) (op : Op) :
    answer s op = answer t op ∧ (next true s op).allocated = (next true t op).allocated := by
  cases op with
  | allocate =>
    by_cases hfull : intMax - startId ≤ (s.allocated.card : Int)
    · obtain ⟨hans, hnext⟩ := answer_full h.left hfull
      obtain ⟨hans', hnext'⟩ := answer_full h.right (h.allocated ▸ hfull)
      exact ⟨hans.trans hans'.symm, by rw [hnext, hnext', h.allocated]⟩
    · obtain ⟨i, hi, hans, hnext⟩ := answer_least h.left (not_le.1 hfull)
      obtain ⟨j, hj, hans', hnext'⟩ := answer_least h.right (h.allocated ▸ not_le.1 hfull)
      rw [← h.allocated] at hj
      obtain rfl := hi.unique hj
      exact ⟨hans.trans hans'.symm, by rw [hnext, hnext', h.allocated]⟩
  | release id =>
    obtain ⟨hans, hnext⟩ := answer_release s id
    obtain ⟨hans', hnext'⟩ := answer_release t id
    exact ⟨hans.trans hans'.symm, by rw [hnext, hnext', h.allocated]⟩

theorem Alike.next (h : Alike startId s t) (op : Op) : Alike startId (next true s op) (next true t op) :=
  ⟨h.left.next op, h.right.next op, (h.call op).2⟩

theorem invInt_run (startId : Int32) (ops : List Op) :
    InvInt startId.toInt (run (next true) (construct startId.toInt) ops) :=
  run_inv (fun _ h op _ => h.next op) ⟨.construct _, startId.toInt_le⟩

/-- Two histories after which the same IDs are live cannot be told apart by any further calls, the overflow at the
end of the `int` range included. -/
theorem history_independent (startId : Int32) (ops ops' : List Op)
    (h : (run (next true) (construct startId.toInt) ops).allocated =
      (run (next true) (construct startId.toInt) ops').allocated) (more : List Op) :
    answers (run (next true) (construct startId.toInt) ops) more =
      answers (run (next true) (construct startId.toInt) ops') more :=
  outputs_congr (R := Alike startId.toInt) (fun _ _ h op => (h.call op).1) (fun _ _ h op => h.next op)
    ⟨invInt_run startId ops, invInt_run startId ops', h⟩ more

/-- Three allocations and the release of the last two, or one allocation. -/
theorem history_independent_one :
    answers (run (next true) (construct 0) [.allocate, .allocate, .allocate, .release 1, .release 2]) [.allocate] =
      answers (run (next true) (construct 0) [.allocate]) [.allocate] :=
  history_independent 0 _ _ (by decide) _

/-! ### A row of allocations -/

/-- `ids` are the least free names, in ascending order. -/
structure TakesLeast (startId : Int) (held : Finset Int) (ids : List Int) : Prop where
  ascending : ids.Pairwise (· < ·)
  free : ∀ i ∈ ids, i ∈ Free startId held
  least : ∀ j ∈ Free startId held, j ∉ ids → ∀ i ∈ ids, i < j

theorem TakesLeast.cons {held : Finset Int} {ids : List Int} (hi : IsLeast (Free startId held) i)
    (h : TakesLeast startId (insert i held) ids) : TakesLeast startId held (i :: ids) where
  ascending := by
    refine List.pairwise_cons.2 ⟨fun j hj => ?_, h.ascending⟩
    obtain ⟨hstart, hfree⟩ := h.free j hj
    rw [Finset.mem_insert, not_or] at hfree
    exact lt_of_le_of_ne (hi.2 ⟨hstart, hfree.2⟩) (Ne.symm hfree.1)
  free j hj := by
    rcases List.mem_cons.1 hj with rfl | hj
    · exact hi.1
    · obtain ⟨hstart, hfree⟩ := h.free j hj
      exact ⟨hstart, fun hmem => hfree (Finset.mem_insert_of_mem hmem)⟩
  least j hj hnot k hk := by
    rw [List.mem_cons, not_or] at hnot
    rcases List.mem_cons.1 hk with rfl | hk
    · exact lt_of_le_of_ne (hi.2 hj) (Ne.symm hnot.1)
    · refine h.least j ⟨hj.1, ?_⟩ hnot.2 k hk
      rw [Finset.mem_insert, not_or]
      exact ⟨hnot.1, hj.2⟩

theorem InvInt.allocations (n : Nat) (h : InvInt startId s)
    (hroom : (s.allocated.card : Int) + n ≤ intMax - startId) :
    ∃ ids, answers s (List.replicate n .allocate) = ids.map (fun i => .ok (some i)) ∧ ids.length = n ∧
      TakesLeast startId s.allocated ids := by
  induction n generalizing s with
  | zero => exact ⟨[], rfl, rfl, .nil, by simp, by simp⟩
  | succ n ih =>
    obtain ⟨i, hi, hans, hnext⟩ := answer_least h (by omega)
    have hcard : ((IdAllocator.next true s .allocate).allocated.card : Int) = s.allocated.card + 1 := by
      rw [hnext, Finset.card_insert_of_notMem hi.1.2]
      rfl
    obtain ⟨ids, hids, hlen, htakes⟩ := ih (h.next .allocate) (by omega)
    rw [hnext] at htakes
    refine ⟨i :: ids, ?_, congrArg (· + 1) hlen, htakes.cons hi⟩
    rw [List.replicate_succ, answers, outputs, hans]
    exact congrArg (_ :: ·) hids

/-- As long as IDs are left, `n` allocations in a row return the `n` least free ones, in ascending order. -/
theorem allocations_ascend (startId : Int32) (ops : List Op) (n : Nat)
    (hroom : ((run (next true) (construct startId.toInt) ops).allocated.card : Int) + n ≤ intMax - startId.toInt) :
    ∃ ids, answers (run (next true) (construct startId.toInt) ops) (List.replicate n .allocate) =
        ids.map (fun i => .ok (some i)) ∧ ids.length = n ∧
      TakesLeast startId.toInt (run (next true) (construct startId.toInt) ops).allocated ids :=
  (invInt_run startId ops).allocations n hroom

theorem allocations_ascend_two : ∃ ids,
    answers (run (next true) (construct 0) [.allocate, .allocate, .release 0]) [.allocate, .allocate] =
      ids.map (fun i => .ok (some i)) ∧ TakesLeast 0 {1} ids := by
  obtain ⟨ids, hids, -, htakes⟩ := allocations_ascend 0 [.allocate, .allocate, .release 0] 2 (by decide)
  exact ⟨ids, hids, htakes⟩

end CcTools.IdAllocator
