import CcTools.IdRange

/-!
# `NetworkBase` and its own ID

The class of `network/NetworkBase.h`. Members are initialised in the order of their declaration, so `id_` is
what `allocate` returns on an `idAllocator_` that is not constructed yet. `own_id_reserved_iff` says for which
of these values no later `allocate` returns it.
-/

namespace CcTools
open Runs

structure NetworkBase where
  name : String
  id : Int
  idAllocator : IdAllocator

namespace NetworkBase
open IdAllocator

/-- `unconstructed` is the `int` that `idAllocator_.allocate()` finds in memory; the constructor of the
allocator runs after it and keeps nothing of the call. -/
def construct (name : String) (unconstructed : Int32) : NetworkBase where
  name := name
  id := unconstructed.toInt
  idAllocator := IdAllocator.construct

/-- Unless the object's ID is released, no allocation returns it. -/
def OwnIdReserved (b : NetworkBase) : Prop :=
  ∀ ops, Op.release b.id ∉ ops →
    EveryStep (next true) (fun s op => ∀ s', (op.call true).run s ≠ .ok (some b.id) s') b.idAllocator ops

variable {s : IdAllocator} {id : Int}

theorem run_allocations (n : Nat) (htop : s.freeIds.top? = none) (hn : s.nextId + n ≤ intMax) :
    (run (next true) s (List.replicate n .allocate)).freeIds.top? = none ∧
      (run (next true) s (List.replicate n .allocate)).nextId = s.nextId + n := by
  induction n generalizing s with
  | zero => exact ⟨htop, (Int.add_zero _).symm⟩
  | succ n ih =>
    have hnext : next true s .allocate =
        { s with nextId := s.nextId + 1, allocated := insert s.nextId s.allocated } := by
      rw [next, call_extended htop (by omega)]
      rfl
    have htop₁ : (next true s .allocate).freeIds.top? = none := by
      rw [hnext]
      exact htop
    have hroom : (next true s .allocate).nextId + n ≤ intMax := by
      rw [hnext]
      dsimp only
      omega
    obtain ⟨htop', hn'⟩ := ih htop₁ hroom
    rw [List.replicate_succ, run_cons]
    refine ⟨htop', hn'.trans ?_⟩
    rw [hnext]
    dsimp only
    omega

/-- Every ID from 0 to before `INT_MAX` comes up, after as many allocations. -/
theorem returned_of_lt (h0 : 0 ≤ id) (hlt : id < intMax) (name : String) (unconstructed : Int32) :
    ∃ ops, Op.release id ∉ ops ∧ ¬ EveryStep (next true) (fun s op => ∀ s', (op.call true).run s ≠ .ok (some id) s')
      (construct name unconstructed).idAllocator ops := by
  refine ⟨List.replicate (id.toNat + 1) .allocate, fun hmem => ?_, fun hno => ?_⟩
  · cases List.eq_of_mem_replicate hmem
  · have hroom : (construct name unconstructed).idAllocator.nextId + id.toNat ≤ intMax := by
      show (0 : Int) + id.toNat ≤ intMax
      omega
    obtain ⟨htop, hnext⟩ := run_allocations id.toNat rfl hroom
    have hid : (run (next true) (construct name unconstructed).idAllocator
        (List.replicate id.toNat .allocate)).nextId = id := by
      rw [hnext]
      show (0 : Int) + id.toNat = id
      omega
    have hcall := call_extended htop (by omega)
    rw [hid] at hcall
    exact everyStep_iff_forall_split.1 hno _ _ [] List.replicate_succ' _ hcall

/-- An object's own ID is never live in its allocator; it is not handed out again exactly if the allocator can
never get to it. Here a call at the end of the `int` range fails and changes nothing; what the program does
behind such an overflow is not followed. -/
theorem own_id_reserved_iff (name : String) (unconstructed : Int32) :
    (OwnIdReserved (construct name unconstructed) ↔
      unconstructed.toInt < 0 ∨ unconstructed.toInt = intMax) ∧
    (construct name unconstructed).id ∉ (construct name unconstructed).idAllocator.allocated := by
  refine ⟨⟨fun h => ?_, fun hid ops _ => ?_⟩, Finset.notMem_empty _⟩
  · by_contra hno
    rw [not_or, Int.not_lt] at hno
    have hle : unconstructed.toInt ≤ intMax := unconstructed.toInt_le
    obtain ⟨ops, hops, hret⟩ := returned_of_lt hno.1 (by omega) name unconstructed
    exact hret (h ops hops)
  · refine everyStep_of_inv (P := InvInt 0) (fun _ h op _ => h.next op) (fun s h op _ s' he => ?_)
      ⟨.construct 0, (by decide : (0 : Int) ≤ intMax)⟩
    obtain ⟨hstart, hlt⟩ := returned_range h he
    dsimp only [construct] at hstart hlt
    omega

/-- The `int` found in memory is 0, and so is the first ID allocated. -/
theorem ownId_zero_returned : ¬ OwnIdReserved (construct "server" 0) := by
  intro h
  exact (h [.allocate] (by decide)).1 _ rfl

end NetworkBase
end CcTools
