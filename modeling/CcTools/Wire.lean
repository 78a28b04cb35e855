import CcTools.AddPacket

/-!
# The header on the wire

`toNetwork host h` is the header `pack` hands to `serialize` for the numbers `h`. Its image is the same
on every host but for the two bytes of `sof`, which neither side converts (`image_toNetwork`), and the
receiver reads the numbers back (`headerOf_image`).
-/

namespace CcTools
open NetPacker NetUnpacker

/-- The numbers of `h` converted the way `pack` does: all but `sof`. -/
def NetPackageHeader.toNetwork (host : Endian) (h : NetPackageHeader) : NetPackageHeader :=
  { sof := h.sof
    totalPayloadSize := toNetwork64 host h.totalPayloadSize
    totalPackageNum := toNetwork32 host h.totalPackageNum
    currentPackageNum := toNetwork32 host h.currentPackageNum
    currentPayloadSize := toNetwork32 host h.currentPayloadSize }

theorem store_toNetwork32 (host : Endian) (v : UInt32) :
    host.store 4 (toNetwork32 host v).toNat = Endian.big.store 4 v.toNat := by
  have hlt := host.load_store_lt .big 4 v.toNat
  rw [toNetwork32, UInt32.toNat_ofNat_of_lt' hlt, Endian.store_load_store]

theorem store_toNetwork64 (host : Endian) (v : UInt64) :
    host.store 8 (toNetwork64 host v).toNat = Endian.big.store 8 v.toNat := by
  have hlt := host.load_store_lt .big 8 v.toNat
  rw [toNetwork64, UInt64.toNat_ofNat_of_lt' hlt, Endian.store_load_store]

theorem fromNetwork32_toNetwork32 (host : Endian) (v : UInt32) :
    fromNetwork32 host (toNetwork32 host v) = v := by
  rw [fromNetwork32, store_toNetwork32, Endian.load_store _ v.toNat_lt, UInt32.ofNat_toNat]

theorem fromNetwork64_toNetwork64 (host : Endian) (v : UInt64) :
    fromNetwork64 host (toNetwork64 host v) = v := by
  rw [fromNetwork64, store_toNetwork64, Endian.load_store _ v.toNat_lt, UInt64.ofNat_toNat]

namespace NetPackageHeader
variable (host : Endian) (h : NetPackageHeader)

@[simp] theorem length_image : (h.image host).length = 22 := by
  simp [image]

theorem ofImage_image : ofImage host (h.image host) = h := by
  let a := host.store 2 h.sof.toNat
  let b := host.store 8 h.totalPayloadSize.toNat
  let c := host.store 4 h.totalPackageNum.toNat
  let d := host.store 4 h.currentPackageNum.toNat
  let e := host.store 4 h.currentPayloadSize.toNat
  have e1 : slice (h.image host) 0 2 = a := slice_middle [] a (b ++ c ++ d ++ e) (by simp [image, a, b, c, d, e])
    (by simp) (by simp [a])
  have e2 : slice (h.image host) 2 8 = b := slice_middle a b (c ++ d ++ e) (by simp [image, a, b, c, d, e])
    (by simp [a]) (by simp [b])
  have e3 : slice (h.image host) 10 4 = c := slice_middle (a ++ b) c (d ++ e) (by simp [image, a, b, c, d, e])
    (by simp [a, b]) (by simp [c])
  have e4 : slice (h.image host) 14 4 = d := slice_middle (a ++ b ++ c) d e (by simp [image, a, b, c, d, e])
    (by simp [a, b, c]) (by simp [d])
  have e5 : slice (h.image host) 18 4 = e := slice_middle (a ++ b ++ c ++ d) e [] (by simp [image, a, b, c, d, e])
    (by simp [a, b, c, d]) (by simp [e])
  simp only [ofImage, e1, e2, e3, e4, e5, a, b, c, d, e]
  rw [Endian.load_store _ h.sof.toNat_lt, Endian.load_store _ h.totalPayloadSize.toNat_lt,
    Endian.load_store _ h.totalPackageNum.toNat_lt, Endian.load_store _ h.currentPackageNum.toNat_lt,
    Endian.load_store _ h.currentPayloadSize.toNat_lt]
  simp only [UInt16.ofNat_toNat, UInt32.ofNat_toNat, UInt64.ofNat_toNat]

theorem image_toNetwork : (h.toNetwork host).image host =
    host.store 2 h.sof.toNat ++ Endian.big.store 8 h.totalPayloadSize.toNat ++
      Endian.big.store 4 h.totalPackageNum.toNat ++ Endian.big.store 4 h.currentPackageNum.toNat ++
      Endian.big.store 4 h.currentPayloadSize.toNat := by
  simp only [image, toNetwork, store_toNetwork32, store_toNetwork64]

/-- The mark a host reads where another host wrote `sof`. -/
def sofSeen (snd rcv : Endian) (sof : UInt16) : UInt16 :=
  UInt16.ofNat (rcv.load (snd.store 2 sof.toNat))

theorem sofSeen_self (sof : UInt16) : sofSeen host host sof = sof := by
  rw [sofSeen, Endian.load_store _ sof.toNat_lt, UInt16.ofNat_toNat]

theorem image_toNetwork_seen (snd rcv : Endian) :
    (h.toNetwork snd).image snd =
      (({ h with sof := sofSeen snd rcv h.sof } : NetPackageHeader).toNetwork rcv).image rcv := by
  have hlt := rcv.load_store_lt snd 2 h.sof.toNat
  simp only [image_toNetwork, sofSeen, UInt16.toNat_ofNat_of_lt' hlt, Endian.store_load_store]

end NetPackageHeader

namespace NetUnpacker

theorem deserialize_image (host : Endian) (h : NetPackageHeader) (body : ByteVector) :
    deserialize host (h.image host ++ body) = h := by
  rw [deserialize, slice_append_left (by simp), show headerSize.toNat = (h.image host).length by simp,
    slice_zero_length, NetPackageHeader.ofImage_image]

theorem headerOf_image (snd rcv : Endian) (h : NetPackageHeader) (body : ByteVector) :
    headerOf rcv ((h.toNetwork snd).image snd ++ body) =
      { h with sof := NetPackageHeader.sofSeen snd rcv h.sof } := by
  rw [h.image_toNetwork_seen snd rcv, headerOf, deserialize_image]
  simp only [NetPackageHeader.toNetwork, fromNetwork32_toNetwork32, fromNetwork64_toNetwork64]

/-- The packet that carries the numbers `h` and `body`, whatever they are. -/
def wirePacket (host : Endian) (h : NetPackageHeader) (body : ByteVector) : ByteVector :=
  (h.toNetwork host).image host ++ body

theorem headerOf_wirePacket (host : Endian) (h : NetPackageHeader) (body : ByteVector) :
    headerOf host (wirePacket host h body) = h := by
  rw [wirePacket, headerOf_image, NetPackageHeader.sofSeen_self]

theorem wellFormed_wirePacket (host : Endian) {h : NetPackageHeader} (hsof : h.sof = 0xCE9A) (body : ByteVector) :
    WellFormed host (wirePacket host h body) where
  size := by simp [wirePacket]
  sof := by rw [headerOf_wirePacket, hsof]

end NetUnpacker
end CcTools
