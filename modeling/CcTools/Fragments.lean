import CcTools.Wire

/-!
# What `pack` yields

For a payload that fits the 32-bit fragment count (`Packable`), `pack` yields one packet for each index
below `totalPackages`: the header in network order and the slice of the payload at `1478 * i`.
-/

namespace CcTools
open NetPacker NetUnpacker

/-- A payload that `pack` cuts without narrowing the fragment count. -/
structure Packable (payload : ByteVector) : Prop where
  pos : 0 < payload.length
  le : payload.length ≤ 1478 * (2 ^ 32 - 1)

def bodySize (payload : ByteVector) (i : Nat) : Nat := min 1478 (payload.length - i * 1478)

def fragmentHeader (payload : ByteVector) (i : UInt32) : NetPackageHeader where
  totalPayloadSize := UInt64.ofNat payload.length
  totalPackageNum := totalPackagesOf payload
  currentPackageNum := i
  currentPayloadSize := UInt32.ofNat (bodySize payload i.toNat)

def fragments (host : Endian) (payload : ByteVector) : NetPackages :=
  (indicesBelow (totalPackagesOf payload)).map (packFragment host payload (totalPackagesOf payload))

theorem pack_eq {host : Endian} {payload : ByteVector} (h : 0 < payload.length) :
    pack host payload = .ok (fragments host payload) := by
  have hne : payload.isEmpty = false := by
    cases payload with
    | nil => simp at h
    | cons => rfl
  rw [pack, hne]
  simp only [Bool.false_eq_true, ↓reduceIte, ← List.flatMap_eq_foldl, fragments]
  rw [← List.map_eq_flatMap]
  rfl

namespace Packable
variable {host snd rcv : Endian} {payload : ByteVector} {i : UInt32}

theorem toNat_size (h : Packable payload) : (UInt64.ofNat payload.length).toNat = payload.length := by
  have := h.le
  exact UInt64.toNat_ofNat_of_lt' (by simp only [UInt64.size]; omega)

theorem toNat_sum (h : Packable payload) :
    (UInt64.ofNat payload.length + maxPayloadSize - 1).toNat = payload.length + 1477 := by
  have hle := h.le
  have hsum : (UInt64.ofNat payload.length + maxPayloadSize).toNat = payload.length + 1478 := by
    rw [UInt64.toNat_add, h.toNat_size, toNat_maxPayloadSize]; omega
  rw [UInt64.toNat_sub_of_le _ _ (by rw [UInt64.le_iff_toNat_le, hsum]; simp), hsum]
  rfl

theorem toNat_totalPackagesOf (h : Packable payload) :
    (totalPackagesOf payload).toNat = (payload.length + 1477) / 1478 := by
  have hle := h.le
  rw [totalPackagesOf, UInt64.toNat_toUInt32, UInt64.toNat_div, h.toNat_sum, toNat_maxPayloadSize]
  omega

theorem lt_totalPackagesOf (h : Packable payload) :
    i < totalPackagesOf payload ↔ i.toNat * 1478 < payload.length := by
  rw [UInt32.lt_iff_toNat_lt, h.toNat_totalPackagesOf]
  omega

theorem zero_lt_totalPackagesOf (h : Packable payload) : 0 < totalPackagesOf payload :=
  h.lt_totalPackagesOf.2 (by simpa using h.pos)

theorem toNat_offset_lt (h : Packable payload) (hi : i < totalPackagesOf payload) :
    i.toNat * 1478 < payload.length :=
  h.lt_totalPackagesOf.1 hi

theorem toNat_remaining (h : Packable payload) (hi : i < totalPackagesOf payload) :
    (UInt64.ofNat payload.length - i.toUInt64 * maxPayloadSize).toNat = payload.length - i.toNat * 1478 := by
  have hlt := h.toNat_offset_lt hi
  have hle : i.toUInt64 * maxPayloadSize ≤ UInt64.ofNat payload.length := by
    rw [UInt64.le_iff_toNat_le, toNat_offset, h.toNat_size]; omega
  rw [UInt64.toNat_sub_of_le _ _ hle, toNat_offset, h.toNat_size]

/-- The arithmetic of the loop body: nothing wraps, and the last fragment takes what remains. -/
theorem toNat_currentPayloadSize (h : Packable payload) (hi : i < totalPackagesOf payload) :
    (if UInt64.ofNat payload.length - i.toUInt64 * maxPayloadSize > maxPayloadSize then maxPayloadSize
      else UInt64.ofNat payload.length - i.toUInt64 * maxPayloadSize).toNat = bodySize payload i.toNat := by
  have hlt := h.toNat_offset_lt hi
  have hsub := h.toNat_remaining hi
  rw [bodySize]
  split
  · rename_i hgt
    rw [gt_iff_lt, UInt64.lt_iff_toNat_lt, hsub, toNat_maxPayloadSize] at hgt
    rw [toNat_maxPayloadSize]; omega
  · rename_i hgt
    rw [gt_iff_lt, UInt64.lt_iff_toNat_lt, hsub, toNat_maxPayloadSize] at hgt
    rw [hsub]; omega

theorem bodySize_le (payload : ByteVector) (i : Nat) : bodySize payload i ≤ 1478 := Nat.min_le_left ..

theorem length_body (payload : ByteVector) (i : Nat) :
    (slice payload (i * 1478) (bodySize payload i)).length = bodySize payload i := by
  rw [length_slice, bodySize]; omega

theorem packFragment_eq (h : Packable payload) (hi : i < totalPackagesOf payload) :
    packFragment host payload (totalPackagesOf payload) i =
      ((fragmentHeader payload i).toNetwork host).image host ++
        slice payload (i.toNat * 1478) (bodySize payload i.toNat) := by
  have hsize := h.toNat_currentPayloadSize hi
  set cur := if UInt64.ofNat payload.length - i.toUInt64 * maxPayloadSize > maxPayloadSize then maxPayloadSize
    else UInt64.ofNat payload.length - i.toUInt64 * maxPayloadSize with hcur
  have hle := bodySize_le payload i.toNat
  have hlen : (headerSize + cur).toNat = 22 + bodySize payload i.toNat := by
    rw [UInt64.toNat_add, hsize, toNat_headerSize]; omega
  have hcur32 : cur.toUInt32 = UInt32.ofNat (bodySize payload i.toNat) := by
    apply UInt32.toNat_inj.1
    rw [UInt64.toNat_toUInt32, hsize, UInt32.toNat_ofNat']
  show overlay (overlay (List.replicate (headerSize + cur).toNat 0) 0 (NetPackageHeader.image host
      { totalPayloadSize := toNetwork64 host (UInt64.ofNat payload.length)
        totalPackageNum := toNetwork32 host (totalPackagesOf payload)
        currentPackageNum := toNetwork32 host i
        currentPayloadSize := toNetwork32 host cur.toUInt32 })) headerSize.toNat
      (slice payload (i.toUInt64 * maxPayloadSize).toNat cur.toNat) = _
  rw [hlen, hcur32, hsize, toNat_offset, toNat_headerSize]
  set image := ((fragmentHeader payload i).toNetwork host).image host with himage
  have hheader := overlay_append [] (List.replicate 22 0) (List.replicate (bodySize payload i.toNat) 0)
    image (by simp [himage])
  have hbody := overlay_append image (List.replicate (bodySize payload i.toNat) 0) []
    (slice payload (i.toNat * 1478) (bodySize payload i.toNat)) (by rw [length_body, List.length_replicate])
  rw [List.nil_append, List.length_nil, List.replicate_append_replicate] at hheader
  rw [List.append_nil, List.append_nil, NetPackageHeader.length_image] at hbody
  exact (congrArg (overlay · 22 _) hheader).trans hbody

theorem headerOf_packFragment (h : Packable payload) (hi : i < totalPackagesOf payload) :
    headerOf rcv (packFragment snd payload (totalPackagesOf payload) i) =
      { fragmentHeader payload i with sof := NetPackageHeader.sofSeen snd rcv 0xCE9A } := by
  rw [h.packFragment_eq hi, headerOf_image]
  rfl

theorem length_packFragment (h : Packable payload) (hi : i < totalPackagesOf payload) :
    (packFragment snd payload (totalPackagesOf payload) i).length = 22 + bodySize payload i.toNat := by
  rw [h.packFragment_eq hi, List.length_append, NetPackageHeader.length_image, length_body]

theorem toNat_bodySize (payload : ByteVector) (i : Nat) :
    (UInt32.ofNat (bodySize payload i)).toNat = bodySize payload i := by
  have := bodySize_le payload i
  exact UInt32.toNat_ofNat_of_lt' (by simp only [UInt32.size]; omega)

theorem slice_packFragment (h : Packable payload) (hi : i < totalPackagesOf payload) :
    slice (packFragment snd payload (totalPackagesOf payload) i) 22 (bodySize payload i.toNat) =
      slice payload (i.toNat * 1478) (bodySize payload i.toNat) := by
  rw [h.packFragment_eq hi]
  exact slice_middle _ _ [] (by rw [List.append_nil]) (NetPackageHeader.length_image ..) (length_body ..)

end Packable
end CcTools
