import CcTools.Lib.Tiling
import CcTools.UnpackerInv

/-!
# What the buffer is made of

`History host A s` ties a receiver to the calls `A` it accepted: the indices are theirs, each body fits
`totalSize`, and each byte of the buffer is a zero of `resize` that no body covers, or comes from the
first body accepted for an index.
-/

namespace CcTools.NetUnpacker
open Runs Tiling

variable {host : Endian}

def indexOf (host : Endian) (c : Call) : UInt32 := (headerOf host c.packet).currentPackageNum

def body (host : Endian) (c : Call) : ByteVector :=
  slice c.packet headerSize.toNat (headerOf host c.packet).currentPayloadSize.toNat

/-- The body of the first call of `A` with index `k`. -/
def bodyAt (host : Endian) (A : List Call) (k : Nat) : ByteVector :=
  match A.find? fun c => (indexOf host c).toNat = k with
  | some c => body host c
  | none => []

def InBody (host : Endian) (A : List Call) (k pos : Nat) : Prop :=
  Covers (· * 1478) (fun k => (bodyAt host A k).length) k pos

/-- A packet as long as its header says, of a message that is not empty. -/
structure Sized (host : Endian) (c : Call) : Prop where
  length : 22 + (headerOf host c.packet).currentPayloadSize.toNat ≤ c.packet.length
  total : (headerOf host c.packet).totalPayloadSize ≠ 0

def accepted (c : Call) : EStateM.Result Exception NetUnpacker Unit → List Call
  | .ok _ _ => [c]
  | .error _ _ => []

def acceptedCalls (host : Endian) : NetUnpacker → List Call → List Call
  | _, [] => []
  | s, c :: calls => accepted c ((addPacket host c).run s) ++ acceptedCalls host (next host s c) calls

/-- A property of the accepted calls and the state that every step keeps. -/
theorem run_acceptedCalls {P : List Call → NetUnpacker → Prop} {C : NetUnpacker → Call → Prop} {A : List Call}
    {s : NetUnpacker} {calls : List Call} (hC : EveryStep (next host) C s calls)
    (hstep : ∀ A s c, P A s → Inv s → C s c → P (A ++ accepted c ((addPacket host c).run s)) (next host s c))
    (h : P A s) (hi : Inv s) : P (A ++ acceptedCalls host s calls) (run (next host) s calls) := by
  induction calls generalizing A s with
  | nil => rw [acceptedCalls, List.append_nil]; exact h
  | cons c calls ih =>
    rw [acceptedCalls, ← List.append_assoc]
    exact ih hC.2 (hstep A s c h hi hC.1) (hi.next c)

structure History (host : Endian) (A : List Call) (s : NetUnpacker) : Prop where
  none : s.totalSize = 0 → A = []
  indices : ∀ i, i ∈ s.receivedIndices ↔ ∃ c ∈ A, indexOf host c = i
  fits : ∀ c ∈ A, Fits s.totalSize (headerOf host c.packet)
  bytes : ∀ pos v, s.buffer[pos]? = some v →
    (v = 0 ∧ ∀ k, ¬ InBody host A k pos) ∨
      ∃ k, InBody host A k pos ∧ (bodyAt host A k)[pos - k * 1478]? = some v

/-! ### The bodies of a history -/

section
variable {A : List Call} {c : Call} {k pos : Nat}

theorem length_body (hc : Sized host c) :
    (body host c).length = (headerOf host c.packet).currentPayloadSize.toNat := by
  have hlen := hc.length
  rw [body, length_slice, toNat_headerSize]
  omega

theorem read_eq_body (hc : Sized host c) :
    c.read headerSize.toNat (headerOf host c.packet).currentPayloadSize.toNat = body host c :=
  c.read_eq_slice hc.length

theorem inBody_iff :
    InBody host A k pos ↔ k * 1478 ≤ pos ∧ pos < k * 1478 + (bodyAt host A k).length := Iff.rfl

theorem exists_of_inBody (h : InBody host A k pos) :
    ∃ c ∈ A, (indexOf host c).toNat = k ∧ bodyAt host A k = body host c := by
  rw [inBody_iff] at h
  unfold bodyAt at h ⊢
  cases hf : A.find? fun c => (indexOf host c).toNat = k with
  | none =>
    rw [hf] at h
    simp only [List.length_nil] at h
    omega
  | some c =>
    have hk := List.find?_some hf
    exact ⟨c, List.mem_of_find?_eq_some hf, by simpa using hk, rfl⟩

theorem bodyAt_append_of_mem (h : ∃ c' ∈ A, indexOf host c' = indexOf host c) :
    bodyAt host (A ++ [c]) k = bodyAt host A k := by
  unfold bodyAt
  rw [List.find?_append]
  cases hf : A.find? fun c => (indexOf host c).toNat = k with
  | some c' => rfl
  | none =>
    obtain ⟨c', hmem, hidx⟩ := h
    have hne : (indexOf host c).toNat ≠ k := by
      have hnone := List.find?_eq_none.1 hf c' hmem
      rw [hidx] at hnone
      simpa using hnone
    simp [hne]

theorem bodyAt_append_of_new (h : ∀ c' ∈ A, indexOf host c' ≠ indexOf host c) :
    bodyAt host (A ++ [c]) k = if (indexOf host c).toNat = k then body host c else bodyAt host A k := by
  by_cases hk : (indexOf host c).toNat = k
  · rw [if_pos hk]
    unfold bodyAt
    have hnone : A.find? (fun c => (indexOf host c).toNat = k) = none := by
      rw [List.find?_eq_none]
      intro c' hmem
      have hne := h c' hmem
      simp only [decide_eq_true_eq, ← hk, UInt32.toNat_inj]
      exact hne
    rw [List.find?_append, hnone]
    simp [hk]
  · rw [if_neg hk]
    unfold bodyAt
    rw [List.find?_append]
    cases hf : A.find? fun c => (indexOf host c).toNat = k <;> simp [hk]

theorem inBody_append_of_new (h : ∀ c' ∈ A, indexOf host c' ≠ indexOf host c) (hc : Sized host c) :
    InBody host (A ++ [c]) k pos ↔
      if (indexOf host c).toNat = k then
        k * 1478 ≤ pos ∧ pos < k * 1478 + (headerOf host c.packet).currentPayloadSize.toNat
      else InBody host A k pos := by
  rw [inBody_iff, inBody_iff, bodyAt_append_of_new h]
  split
  · rw [length_body hc]
  · rfl

end

/-! ### One call -/

namespace History
variable {A : List Call} {s : NetUnpacker} {c : Call}

theorem fresh : History host [] fresh where
  none _ := rfl
  indices i := by simp [NetUnpacker.fresh]
  fits c hc := by simp at hc
  bytes pos v hv := by simp [NetUnpacker.fresh] at hv

theorem opened (h : History host A s) (hi : Inv s) (hd : NetPackageHeader) :
    History host A (opened s hd) := by
  by_cases h0 : s.totalSize = 0
  · obtain rfl := h.none h0
    have hbuf := hi.buffer_nil h0
    refine ⟨fun _ => rfl, fun i => ?_, fun c hc => by simp at hc, fun pos v hv => ?_⟩
    · rw [opened_receivedIndices, if_pos h0]
      simp
    · refine .inl ⟨?_, fun k hk => ?_⟩
      · simp only [NetUnpacker.opened, h0, ↓reduceIte, hbuf, List.take_nil, List.nil_append,
          List.getElem?_replicate] at hv
        split at hv
        · exact (Option.some.inj hv).symm
        · cases hv
      · obtain ⟨c, hc, -⟩ := exists_of_inBody hk
        simp at hc
  · rwa [opened_of_ne h0]

theorem append_of_mem (h : History host A s) (h0 : s.totalSize ≠ 0)
    (hf : Fits s.totalSize (headerOf host c.packet)) (hmem : indexOf host c ∈ s.receivedIndices) :
    History host (A ++ [c]) s := by
  have hsame : bodyAt host (A ++ [c]) = bodyAt host A := by
    funext k
    exact bodyAt_append_of_mem ((h.indices _).1 hmem)
  refine ⟨fun hn => absurd hn h0, fun i => ?_, ?_, ?_⟩
  · rw [h.indices i]
    constructor
    · rintro ⟨c', hc', hidx⟩
      exact ⟨c', List.mem_append_left _ hc', hidx⟩
    · rintro ⟨c', hc', rfl⟩
      rcases List.mem_append.1 hc' with hc' | hc'
      · exact ⟨c', hc', rfl⟩
      · rw [List.mem_singleton.1 hc']
        exact (h.indices _).1 hmem
  · exact List.forall_mem_append.2 ⟨h.fits, List.forall_mem_singleton.2 hf⟩
  · unfold InBody
    rw [hsame]
    exact h.bytes

theorem stored (h : History host A s) (h0 : s.totalSize ≠ 0) (hc : Sized host c)
    (hf : Fits s.totalSize (headerOf host c.packet)) (hmem : indexOf host c ∉ s.receivedIndices) :
    History host (A ++ [c]) (stored s (headerOf host c.packet) c) := by
  have hnew : ∀ c' ∈ A, indexOf host c' ≠ indexOf host c :=
    fun c' hc' hidx => hmem ((h.indices _).2 ⟨c', hc', hidx⟩)
  refine ⟨fun hn => absurd hn h0, fun i => ?_, ?_, fun pos v hv => ?_⟩
  · show i ∈ insert (indexOf host c) s.receivedIndices ↔ _
    rw [Finset.mem_insert, h.indices i]
    simp only [List.mem_append, List.mem_singleton, or_and_right, exists_or, exists_eq_left]
    rw [or_comm, eq_comm]
  · exact List.forall_mem_append.2 ⟨h.fits, List.forall_mem_singleton.2 hf⟩
  · have hlen := length_body hc
    simp only [NetUnpacker.stored, read_eq_body hc, getElem?_overlay, hlen] at hv
    by_cases hin : (indexOf host c).toNat * 1478 ≤ pos ∧
        pos < (indexOf host c).toNat * 1478 + (headerOf host c.packet).currentPayloadSize.toNat
    · -- the new body covers the position, so the byte is its own
      refine .inr ⟨(indexOf host c).toNat, (inBody_append_of_new hnew hc).2 (by rwa [if_pos rfl]), ?_⟩
      rw [bodyAt_append_of_new hnew, if_pos rfl]
      by_cases hlt : pos < s.buffer.length
      · rwa [if_pos ⟨hin.1, hin.2, hlt⟩] at hv
      · rw [if_neg fun hand => hlt hand.2.2, List.getElem?_eq_none (Nat.not_lt.1 hlt)] at hv
        cases hv
    · rw [if_neg fun hand => hin ⟨hand.1, hand.2.1⟩] at hv
      rcases h.bytes pos v hv with ⟨rfl, hno⟩ | ⟨k, hk, hbyte⟩
      · refine .inl ⟨rfl, fun k hk => ?_⟩
        rw [inBody_append_of_new hnew hc] at hk
        split at hk
        · rename_i hidx
          exact hin (hidx ▸ hk)
        · exact hno k hk
      · have hne : (indexOf host c).toNat ≠ k := by
          obtain ⟨c', hc', rfl, -⟩ := exists_of_inBody hk
          exact fun heq => hnew c' hc' (UInt32.toNat_inj.1 heq.symm)
        refine .inr ⟨k, (inBody_append_of_new hnew hc).2 (by rwa [if_neg hne]), ?_⟩
        rwa [bodyAt_append_of_new hnew, if_neg hne]

theorem refused (h : History host A s) (hr : Refused s (headerOf host c.packet)) :
    History host A { s with totalSize := (headerOf host c.packet).totalPayloadSize,
                            totalPackages := (headerOf host c.packet).totalPackageNum } := by
  obtain rfl := h.none hr.1
  exact ⟨fun _ => rfl, h.indices, fun c' hc' => by simp at hc', h.bytes⟩

theorem opened_ne_zero (hc : Sized host c) :
    (NetUnpacker.opened s (headerOf host c.packet)).totalSize ≠ 0 := by
  rw [opened_totalSize]
  split
  · exact hc.total
  · assumption

theorem step (h : History host A s) (hi : Inv s) (hc : Sized host c) :
    History host (A ++ accepted c ((addPacket host c).run s)) (next host s c) := by
  have hopened := h.opened hi (headerOf host c.packet)
  have h0 := opened_ne_zero (s := s) hc
  have ho := addPacket_outcome host s c
  unfold next
  generalize (addPacket host c).run s = r at ho ⊢
  cases ho with
  | tooShort => rw [accepted, List.append_nil]; exact h
  | badMark => rw [accepted, List.append_nil]; exact h
  | refused _ hr => rw [accepted, List.append_nil]; exact h.refused hr
  | outOfRange => rw [accepted, List.append_nil]; exact hopened
  | repeated _ _ hf hmem => exact hopened.append_of_mem h0 hf hmem
  | stored _ _ hf hmem => exact hopened.stored h0 hc hf hmem

theorem run (h : History host A s) (hi : Inv s) {calls : List Call} (hc : ∀ c ∈ calls, Sized host c) :
    History host (A ++ acceptedCalls host s calls) (run (next host) s calls) := by
  have hsized : EveryStep (next host) (fun _ c => Sized host c) s calls := everyStep_of_forall fun _ => hc
  exact run_acceptedCalls hsized (fun _ _ c h hi hc => h.step hi hc) h hi

end History
end CcTools.NetUnpacker
