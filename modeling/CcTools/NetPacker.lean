import CcTools.Exception
import CcTools.Lib.Endian
import CcTools.Lib.Slice

/-!
# `NetPacker`: a payload cut into packets

The sender of `network/NetPacker.h`. A host is a 64-bit machine of either byte order; `size_t` is
`UInt64` where the code computes with it, and the sizes of containers are `Nat`.
-/

namespace CcTools

abbrev ByteVector := List UInt8
abbrev NetPackages := List ByteVector

/-- The packed struct: 2 + 8 + 4 + 4 + 4 bytes without padding. -/
structure NetPackageHeader where
  sof : UInt16 := 0xCE9A
  totalPayloadSize : UInt64 := 0
  totalPackageNum : UInt32 := 0
  currentPackageNum : UInt32 := 0
  currentPayloadSize : UInt32 := 0
deriving DecidableEq, Repr

def headerSize : UInt64 := 22

def MTU : UInt64 := 1500

def maxPayloadSize : UInt64 := MTU - headerSize

/-- The memory a header occupies: each field in the byte order of the host. -/
def NetPackageHeader.image (host : Endian) (s : NetPackageHeader) : ByteVector :=
  host.store 2 s.sof.toNat ++ host.store 8 s.totalPayloadSize.toNat ++
    host.store 4 s.totalPackageNum.toNat ++ host.store 4 s.currentPackageNum.toNat ++
    host.store 4 s.currentPayloadSize.toNat

def NetPackageHeader.ofImage (host : Endian) (bytes : ByteVector) : NetPackageHeader where
  sof := UInt16.ofNat (host.load (slice bytes 0 2))
  totalPayloadSize := UInt64.ofNat (host.load (slice bytes 2 8))
  totalPackageNum := UInt32.ofNat (host.load (slice bytes 10 4))
  currentPackageNum := UInt32.ofNat (host.load (slice bytes 14 4))
  currentPayloadSize := UInt32.ofNat (host.load (slice bytes 18 4))

namespace NetPacker

/-- `htonl`: the value whose image on the host is the big-endian image of `v`. -/
def toNetwork32 (host : Endian) (v : UInt32) : UInt32 :=
  UInt32.ofNat (host.load (Endian.big.store 4 v.toNat))

def toNetwork64 (host : Endian) (v : UInt64) : UInt64 :=
  UInt64.ofNat (host.load (Endian.big.store 8 v.toNat))

def serialize (host : Endian) (s : NetPackageHeader) (buffer : ByteVector) : ByteVector :=
  overlay buffer 0 (s.image host)

/-- The values of `i` that `for (uint32_t i = 0; i < n; ++i)` runs through. -/
def indicesBelow (n : UInt32) : List UInt32 :=
  (List.range n.toNat).map UInt32.ofNat

/-- The body of the loop of `pack`: the packet for fragment `i`. -/
def packFragment (host : Endian) (payload : ByteVector) (totalPackages i : UInt32) : ByteVector :=
  let size := UInt64.ofNat payload.length
  let offset := i.toUInt64 * maxPayloadSize
  let remaining := size - offset
  let currentPayloadSize := if remaining > maxPayloadSize then maxPayloadSize else remaining
  let header : NetPackageHeader :=
    { totalPayloadSize := toNetwork64 host size
      totalPackageNum := toNetwork32 host totalPackages
      currentPackageNum := toNetwork32 host i
      currentPayloadSize := toNetwork32 host currentPayloadSize.toUInt32 }
  let packet : ByteVector := List.replicate (headerSize + currentPayloadSize).toNat 0
  let packet := serialize host header packet
  overlay packet headerSize.toNat (slice payload offset.toNat currentPayloadSize.toNat)

/-- The number of fragments, narrowed to the 32 bits of the header field. -/
def totalPackagesOf (payload : ByteVector) : UInt32 :=
  ((UInt64.ofNat payload.length + maxPayloadSize - 1) / maxPayloadSize).toUInt32

def pack (host : Endian) (payload : ByteVector) : Except Exception NetPackages :=
  if payload.isEmpty then
    throw (.runtimeError "payload size error: must be > 0")
  else
    let total := totalPackagesOf payload
    pure ((indicesBelow total).foldl
      (fun packages i => packages ++ [packFragment host payload total i]) [])

end NetPacker
end CcTools
