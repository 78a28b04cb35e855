import CcTools.Reassembly

/-!
# The packets byte by byte

`pack_exact`: how many packets `pack` yields on a little-endian host, where in them the numbers of the
header stand, which bytes of the payload follow, and that no intermediate of the loop wraps.
-/

namespace CcTools
open NetPacker NetUnpacker

structure ExactFragment (payload : ByteVector) (N k : Nat) (packet : ByteVector) : Prop where
  sof : slice packet 0 2 = [0x9A, 0xCE]
  totalPayloadSize : slice packet 2 8 = Endian.big.store 8 payload.length
  totalPackageNum : slice packet 10 4 = Endian.big.store 4 N
  currentPackageNum : slice packet 14 4 = Endian.big.store 4 k
  currentPayloadSize : slice packet 18 4 = Endian.big.store 4 (packet.drop 22).length
  body : packet.drop 22 = slice payload (1478 * k) (min (1478 * (k + 1)) payload.length - 1478 * k)

structure ExactPackets (payload : ByteVector) (pkts : NetPackages) : Prop where
  count : pkts.length = payload.length ⌈/⌉ 1478
  fragment : ∀ k packet, pkts[k]? = some packet → ExactFragment payload pkts.length k packet
  full : ∀ k packet, k + 1 < pkts.length → pkts[k]? = some packet → packet.length = MTU.toNat
  last : ∀ packet, pkts.getLast? = some packet → 23 ≤ packet.length ∧ packet.length ≤ 1500
  bodies : pkts.flatMap (·.drop 22) = payload

/-- What `pack` computes in 32 and in 64 bits is what it would compute without bounds. -/
structure NoWrap (payload : ByteVector) : Prop where
  size : (UInt64.ofNat payload.length).toNat = payload.length
  sum : (UInt64.ofNat payload.length + maxPayloadSize - 1).toNat = payload.length + 1478 - 1
  totalPackages : (totalPackagesOf payload).toNat = (payload.length + 1478 - 1) / 1478
  counter : ∀ i < totalPackagesOf payload, (i + 1).toNat = i.toNat + 1
  offset : ∀ i < totalPackagesOf payload, (i.toUInt64 * maxPayloadSize).toNat = i.toNat * 1478
  remaining : ∀ i < totalPackagesOf payload, i.toNat * 1478 < payload.length ∧
    (UInt64.ofNat payload.length - i.toUInt64 * maxPayloadSize).toNat = payload.length - i.toNat * 1478

/-- Where the numbers of the header stand, whatever follows it. -/
theorem slices_toNetwork (host : Endian) (h : NetPackageHeader) (body : ByteVector) :
    slice ((h.toNetwork host).image host ++ body) 0 2 = host.store 2 h.sof.toNat ∧
    slice ((h.toNetwork host).image host ++ body) 2 8 = Endian.big.store 8 h.totalPayloadSize.toNat ∧
    slice ((h.toNetwork host).image host ++ body) 10 4 = Endian.big.store 4 h.totalPackageNum.toNat ∧
    slice ((h.toNetwork host).image host ++ body) 14 4 = Endian.big.store 4 h.currentPackageNum.toNat ∧
    slice ((h.toNetwork host).image host ++ body) 18 4 = Endian.big.store 4 h.currentPayloadSize.toNat := by
  rw [NetPackageHeader.image_toNetwork]
  let a := host.store 2 h.sof.toNat
  let b := Endian.big.store 8 h.totalPayloadSize.toNat
  let c := Endian.big.store 4 h.totalPackageNum.toNat
  let d := Endian.big.store 4 h.currentPackageNum.toNat
  let e := Endian.big.store 4 h.currentPayloadSize.toNat
  refine ⟨?_, ?_, ?_, ?_, ?_⟩
  · exact slice_middle [] a (b ++ c ++ d ++ e ++ body) (by simp [a, b, c, d, e]) rfl (by simp [a])
  · exact slice_middle a b (c ++ d ++ e ++ body) (by simp [a, b, c, d, e]) (by simp [a]) (by simp [b])
  · exact slice_middle (a ++ b) c (d ++ e ++ body) (by simp [a, b, c, d, e]) (by simp [a, b]) (by simp [c])
  · exact slice_middle (a ++ b ++ c) d (e ++ body) (by simp [a, b, c, d, e]) (by simp [a, b, c]) (by simp [d])
  · exact slice_middle (a ++ b ++ c ++ d) e body (by simp [a, b, c, d, e]) (by simp [a, b, c, d]) (by simp [e])

namespace Packable
variable {payload : ByteVector} {i : UInt32}

theorem exists_of_getElem? {host : Endian} {k : Nat} {packet : ByteVector}
    (hk : (fragments host payload)[k]? = some packet) :
    ∃ i < totalPackagesOf payload, i.toNat = k ∧ packFragment host payload (totalPackagesOf payload) i = packet := by
  have hlt : k < (totalPackagesOf payload).toNat := by
    have hlen : (fragments host payload).length = (totalPackagesOf payload).toNat := length_fragments
    exact hlen ▸ (List.getElem?_eq_some_iff.1 hk).1
  have hk' : (UInt32.ofNat k).toNat = k :=
    UInt32.toNat_ofNat_of_lt' (Nat.lt_trans hlt (totalPackagesOf payload).toNat_lt)
  rw [← hk'] at hk
  obtain ⟨hi, hpkt⟩ := getElem?_fragments.1 hk
  exact ⟨_, hi, hk', hpkt⟩

theorem drop_packFragment (h : Packable payload) (host : Endian) (hi : i < totalPackagesOf payload) :
    (packFragment host payload (totalPackagesOf payload) i).drop 22 =
      slice payload (i.toNat * 1478) (bodySize payload i.toNat) := by
  rw [h.packFragment_eq hi, List.drop_left' (NetPackageHeader.length_image ..)]

theorem exactFragment (h : Packable payload) (hi : i < totalPackagesOf payload) :
    ExactFragment payload (totalPackagesOf payload).toNat i.toNat
      (packFragment .little payload (totalPackagesOf payload) i) := by
  obtain ⟨hsof, htotal, hnum, hidx, hsize⟩ := slices_toNetwork .little (fragmentHeader payload i)
    (slice payload (i.toNat * 1478) (bodySize payload i.toNat))
  rw [← h.packFragment_eq hi] at hsof htotal hnum hidx hsize
  have hbody := h.drop_packFragment .little hi
  have hlt := h.toNat_offset_lt hi
  have hlen : bodySize payload i.toNat = min (1478 * (i.toNat + 1)) payload.length - 1478 * i.toNat := by
    unfold bodySize
    omega
  have hmark : Endian.little.store 2 (0xCE9A : UInt16).toNat = [0x9A, 0xCE] := by decide
  refine ⟨hsof.trans hmark, ?_, hnum, hidx, ?_, ?_⟩
  · rw [htotal]
    exact congrArg _ h.toNat_size
  · rw [hsize, hbody, length_body]
    exact congrArg _ (toNat_bodySize payload i.toNat)
  · rw [hbody, Nat.mul_comm i.toNat, hlen]

theorem noWrap (h : Packable payload) : NoWrap payload where
  size := h.toNat_size
  sum := h.toNat_sum
  totalPackages := h.toNat_totalPackagesOf
  counter i hi := by
    rw [UInt32.lt_iff_toNat_lt] at hi
    have hlt := (totalPackagesOf payload).toNat_lt
    rw [UInt32.toNat_add]
    exact Nat.mod_eq_of_lt (by simp only [UInt32.reduceToNat]; omega)
  offset i _ := toNat_offset i
  remaining i hi := ⟨h.toNat_offset_lt hi, h.toNat_remaining hi⟩

theorem flatMap_fragments (h : Packable payload) (host : Endian) :
    (fragments host payload).flatMap (·.drop 22) = payload := by
  have hchunk : ∀ i ∈ indicesBelow (totalPackagesOf payload),
      (packFragment host payload (totalPackagesOf payload) i).drop 22 = slice payload (i.toNat * 1478) 1478 := by
    intro i hi
    rw [h.drop_packFragment host (mem_indicesBelow.1 hi), bodySize, slice_min]
  have hn := h.toNat_totalPackagesOf
  calc
    (fragments host payload).flatMap (·.drop 22) =
        (indicesBelow (totalPackagesOf payload)).flatMap fun i => slice payload (i.toNat * 1478) 1478 := by
      rw [fragments, List.flatMap_map, List.flatMap_congr hchunk]
    _ = (List.range (totalPackagesOf payload).toNat).flatMap fun k => slice payload (k * 1478) 1478 := by
      rw [← map_toNat_indicesBelow, List.flatMap_map]
    _ = payload := by
      rw [flatMap_slice]
      exact List.take_of_length_le (by omega)

theorem exactPackets (h : Packable payload) : ExactPackets payload (fragments .little payload) := by
  have hlen : (fragments .little payload).length = (totalPackagesOf payload).toNat := length_fragments
  have hn := h.toNat_totalPackagesOf
  have hpos := h.pos
  refine ⟨h.count_fragments, fun k packet hk => ?_, fun k packet hlast hk => ?_, fun packet hlast => ?_, h.flatMap_fragments .little⟩
  · obtain ⟨i, hi, rfl, rfl⟩ := exists_of_getElem? hk
    rw [hlen]
    exact h.exactFragment hi
  · obtain ⟨i, hi, rfl, rfl⟩ := exists_of_getElem? hk
    have hbody : bodySize payload i.toNat = 1478 := by unfold bodySize; omega
    rw [h.length_packFragment hi, hbody]
    rfl
  · rw [List.getLast?_eq_getElem?] at hlast
    obtain ⟨i, hi, -, rfl⟩ := exists_of_getElem? hlast
    have hlt := h.toNat_offset_lt hi
    rw [h.length_packFragment hi, bodySize]
    omega

end Packable

/-- Every payload that `pack` can number is cut into exactly the intended packets. -/
theorem pack_exact {payload : ByteVector} (h : Packable payload) :
    ∃ pkts, pack .little payload = .ok pkts ∧ ExactPackets payload pkts ∧ NoWrap payload :=
  ⟨fragments .little payload, pack_eq h.pos, h.exactPackets, h.noWrap⟩

theorem pack_exact_two : ExactPackets onesAfterTwo
    [packFragment .little onesAfterTwo 2 0, packFragment .little onesAfterTwo 2 1] := by
  obtain ⟨pkts, hp, hexact, -⟩ := pack_exact packable_onesAfterTwo
  obtain rfl := Except.ok.inj (pack_onesAfterTwo.symm.trans hp)
  exact hexact

end CcTools
