import CcTools.Reassembly

/-!
# Hosts of different byte orders

`pack` converts four of the five header fields; `sof` goes out in the order of the sending host. A
receiver of the other order reads another mark and throws, so the two orders understand each other
exactly when they are equal (`byteOrder_iff`).
-/

namespace CcTools
open NetPacker NetUnpacker Runs

/-- What `pack` yields on `snd` is accepted on `rcv`, where the payload is back once every packet came. -/
def CrossesHosts (snd rcv : Endian) (payload : ByteVector) : Prop :=
  ∃ pkts, pack snd payload = .ok pkts ∧
    ∀ calls : List Call, (∀ c ∈ calls, c.packet ∈ pkts) → (∀ p ∈ pkts, ∃ c ∈ calls, c.packet = p) →
      EveryStep (next rcv) (Accepts rcv) fresh calls ∧ (run (next rcv) fresh calls).getPayload = .ok payload

theorem sofSeen_of_ne {snd rcv : Endian} (h : snd ≠ rcv) :
    NetPackageHeader.sofSeen snd rcv 0xCE9A = 0x9ACE := by
  cases snd <;> cases rcv
  · exact absurd rfl h
  · decide +kernel
  · decide +kernel
  · exact absurd rfl h

namespace Packable
variable {snd rcv : Endian} {payload : ByteVector} {i : UInt32}

theorem sof_packFragment (h : Packable payload) (hi : i < totalPackagesOf payload) (hne : snd ≠ rcv) :
    (headerOf rcv (packFragment snd payload (totalPackagesOf payload) i)).sof = 0x9ACE := by
  rw [h.headerOf_packFragment hi, sofSeen_of_ne hne]

theorem addPacket_other (h : Packable payload) (hne : snd ≠ rcv) {c : Call} (hc : c.packet ∈ fragments snd payload)
    (s : NetUnpacker) : (addPacket rcv c).run s = .error (.runtimeError "invalid packet header") s := by
  obtain ⟨i, hi, hpkt⟩ := mem_fragments.1 hc
  have hlen : 22 ≤ c.packet.length := by rw [← hpkt, h.length_packFragment hi]; omega
  have hsof : (headerOf rcv c.packet).sof ≠ 0xCE9A := by
    rw [← hpkt, h.sof_packFragment hi hne]; decide
  simp only [addPacket, EStateM.run_bind, prepare_badMark hlen hsof]

theorem fragments_ne (h : Packable payload) (hne : snd ≠ rcv) :
    fragments snd payload ≠ fragments rcv payload := by
  intro heq
  have h0 := h.zero_lt_totalPackagesOf
  have hmem : packFragment snd payload (totalPackagesOf payload) 0 ∈ fragments rcv payload :=
    heq ▸ mem_fragments.2 ⟨0, h0, rfl⟩
  obtain ⟨i, hi, hpkt⟩ := mem_fragments.1 hmem
  have hsof : (headerOf rcv (packFragment snd payload (totalPackagesOf payload) 0)).sof = 0x9ACE :=
    h.sof_packFragment h0 hne
  rw [← hpkt, h.headerOf_self hi] at hsof
  exact absurd (show (0xCE9A : UInt16) = 0x9ACE from hsof) (by decide)

theorem not_crossesHosts (h : Packable payload) (hne : snd ≠ rcv) : ¬ CrossesHosts snd rcv payload := by
  rintro ⟨pkts, hp, hrun⟩
  obtain rfl : fragments snd payload = pkts := Except.ok.inj ((pack_eq h.pos).symm.trans hp)
  have h0 := h.zero_lt_totalPackagesOf
  let calls : List Call := (fragments snd payload).map fun p => { packet := p }
  obtain ⟨c, rest, hcalls⟩ : ∃ c rest, calls = c :: rest := by
    cases hcalls : calls with
    | nil =>
      have hmem : packFragment snd payload (totalPackagesOf payload) 0 ∈ fragments snd payload :=
        mem_fragments.2 ⟨0, h0, rfl⟩
      rw [List.map_eq_nil_iff.1 hcalls] at hmem
      simp at hmem
    | cons c rest => exact ⟨c, rest, rfl⟩
  have hdrawn : ∀ c ∈ calls, c.packet ∈ fragments snd payload := by
    intro c hc
    obtain ⟨p, hp, rfl⟩ := List.mem_map.1 hc
    exact hp
  have hacc := (hrun calls hdrawn fun p hp => ⟨_, List.mem_map.2 ⟨p, hp, rfl⟩, rfl⟩).1
  rw [hcalls] at hacc
  obtain ⟨s', hs'⟩ := hacc.1
  rw [h.addPacket_other hne (hdrawn c (hcalls ▸ List.mem_cons_self ..))] at hs'
  cases hs'

end Packable

/-- The wire format is the same on two hosts, and crosses from one to the other, exactly when they
have one byte order. -/
theorem byteOrder_iff (snd rcv : Endian) {payload : ByteVector} (h : Packable payload) :
    (CrossesHosts snd rcv payload ↔ snd = rcv) ∧ (pack snd payload = pack rcv payload ↔ snd = rcv) := by
  refine ⟨⟨fun hx => by_contra fun hne => h.not_crossesHosts hne hx, ?_⟩,
    ⟨fun heq => by_contra fun hne => ?_, fun he => he ▸ rfl⟩⟩
  · rintro rfl
    refine ⟨fragments snd payload, pack_eq h.pos, fun calls hc hall => ?_⟩
    obtain ⟨hacc, -, hpay⟩ := h.reassembled hc hall
    exact ⟨hacc, hpay⟩
  · rw [pack_eq h.pos, pack_eq h.pos] at heq
    exact h.fragments_ne hne (Except.ok.inj heq)

theorem byteOrder_iff_seven : CrossesHosts .big .big [7] ∧ pack .little [7] ≠ pack .big [7] :=
  ⟨(byteOrder_iff .big .big packable_seven).1.2 rfl,
    fun heq => absurd ((byteOrder_iff .little .big packable_seven).2.1 heq) (by decide)⟩

theorem seven_not_crossing : ¬ CrossesHosts .little .big [7] ∧ pack .little [7] ≠ pack .big [7] ∧
    (addPacket .big ⟨packetOfSeven, fun _ => 0⟩).run fresh =
      .error (.runtimeError "invalid packet header") fresh := by
  refine ⟨packable_seven.not_crossesHosts (by decide), ?_, rfl⟩
  rw [pack_eq (by decide), pack_eq (by decide)]
  exact fun heq => packable_seven.fragments_ne (by decide) (Except.ok.inj heq)

end CcTools
