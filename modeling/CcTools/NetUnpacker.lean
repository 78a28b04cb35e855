import CcTools.NetPacker
import CcTools.Lib.Runs
import Mathlib.Data.Finset.Card

/-!
# `NetUnpacker`: the packets put together again

The receiver of `network/NetPacker.h`. `addPacket` runs in `EStateM`: a thrown exception does not
undo the assignments made before it. The one copy of a packet's body is what `prepare` returns, so that
what it reads and writes can be spoken of.
-/

namespace CcTools

structure NetUnpacker where
  totalSize : UInt64 := 0
  totalPackages : UInt32 := 0
  receivedCount : UInt32 := 0
  buffer : ByteVector := []
  receivedIndices : Finset UInt32 := ∅
deriving DecidableEq

/-- One call of `addPacket`. The code does not compare the packet's length with the length its header
claims, so the memory behind the packet matters: `beyond i` is what address `packet.data() + i` holds
for an `i` past the end. -/
structure Call where
  packet : ByteVector
  beyond : Nat → UInt8 := fun _ => 0

/-- The `n` bytes of memory at `packet.data() + off`. -/
def Call.read (c : Call) (off n : Nat) : ByteVector :=
  (List.range n).map fun j => c.packet.getD (off + j) (c.beyond (off + j))

namespace NetUnpacker

/-- `ntohl`: the number whose big-endian image is the image of `v` on the host. -/
def fromNetwork32 (host : Endian) (v : UInt32) : UInt32 :=
  UInt32.ofNat (Endian.big.load (host.store 4 v.toNat))

def fromNetwork64 (host : Endian) (v : UInt64) : UInt64 :=
  UInt64.ofNat (Endian.big.load (host.store 8 v.toNat))

def deserialize (host : Endian) (buffer : ByteVector) : NetPackageHeader :=
  NetPackageHeader.ofImage host (slice buffer 0 headerSize.toNat)

def maxSize : Nat := 2 ^ 63 - 1

abbrev UnpackM := EStateM Exception NetUnpacker

/-- Whether memory suffices for the two allocations of a call; by default it does. -/
structure Memory where
  resize : Bool := true
  insert : Bool := true
deriving DecidableEq, Repr

/-- `buffer.resize(n)`: refused above `max_size` or for want of memory, with the buffer as it was. -/
def resize (n : UInt64) (memory : optParam Memory {}) : UnpackM Unit := do
  if n.toNat > maxSize then
    throw (.lengthError "vector::_M_default_append")
  if !memory.resize then
    throw .badAlloc
  modify fun s => { s with
    buffer := s.buffer.take n.toNat ++ List.replicate (n.toNat - s.buffer.length) 0 }

/-- The totals a reassembly works with are those of the first packet it gets; that none came yet is
read off `totalSize`. -/
def begin (host : Endian) (header : NetPackageHeader) (memory : optParam Memory {}) : UnpackM Unit := do
  if (← get).totalSize = 0 then
    modify fun s => { s with totalSize := fromNetwork64 host header.totalPayloadSize }
    modify fun s => { s with totalPackages := fromNetwork32 host header.totalPackageNum }
    resize (← get).totalSize memory
    modify fun s => { s with receivedIndices := ∅ }
    modify fun s => { s with receivedCount := 0 }

/-- The `memcpy` of a packet's body to `buffer.data() + offset`. -/
structure BodyCopy where
  offset : UInt64
  currentSize : UInt64
deriving DecidableEq, Repr

/-- `addPacket` up to the `memcpy`: the copy to be made, `none` for an index received before. -/
def prepare (host : Endian) (packet : ByteVector) (memory : optParam Memory {}) : UnpackM (Option BodyCopy) := do
  if packet.length < headerSize.toNat then
    throw (.runtimeError "invalid packet size")
  let header := deserialize host packet
  if header.sof ≠ 0xCE9A then
    throw (.runtimeError "invalid packet header")
  begin host header memory
  let currentIndex := fromNetwork32 host header.currentPackageNum
  let currentSize := (fromNetwork32 host header.currentPayloadSize).toUInt64
  let offset := currentIndex.toUInt64 * maxPayloadSize
  if offset + currentSize > (← get).totalSize then
    throw (.runtimeError "payload out of range")
  if currentIndex ∈ (← get).receivedIndices then
    return none
  if !memory.insert then
    throw .badAlloc
  modify fun s => { s with receivedIndices := insert currentIndex s.receivedIndices }
  return some { offset, currentSize }

/-- Add one packet, in any order. What a copy writes past the end of the buffer hits other memory. -/
def addPacket (host : Endian) (c : Call) (memory : optParam Memory {}) : UnpackM Unit := do
  if let some copy ← prepare host c.packet memory then
    modify fun s => { s with
      buffer := overlay s.buffer copy.offset.toNat (c.read headerSize.toNat copy.currentSize.toNat) }
    modify fun s => { s with receivedCount := s.receivedCount + 1 }

def isComplete (s : NetUnpacker) : Bool :=
  s.receivedCount == s.totalPackages

def getPayload (s : NetUnpacker) : Except Exception ByteVector :=
  if !s.isComplete then
    throw (.runtimeError "payload is not complete")
  else
    pure s.buffer

def getReceivedIndices (s : NetUnpacker) : Finset UInt32 := s.receivedIndices

def getMissingIndices (s : NetUnpacker) : List UInt32 :=
  (NetPacker.indicesBelow s.totalPackages).foldl
    (fun missing i => if i ∈ s.receivedIndices then missing else missing ++ [i]) []

def fresh : NetUnpacker := {}

/-- The state a call leaves behind, however it ends. -/
def leftBy : EStateM.Result Exception NetUnpacker Unit → NetUnpacker
  | .ok _ s => s
  | .error _ s => s

/-- A receiver whose caller catches every exception and goes on. Its memory suffices for every call. -/
def next (host : Endian) (s : NetUnpacker) (c : Call) : NetUnpacker :=
  leftBy ((addPacket host c).run s)

/-- The same with memory that may run out in any call. -/
def nextIn (host : Endian) (s : NetUnpacker) (c : Call × Memory) : NetUnpacker :=
  leftBy ((addPacket host c.1 c.2).run s)

def Accepts (host : Endian) (s : NetUnpacker) (c : Call) : Prop :=
  ∃ s', (addPacket host c).run s = .ok () s'

def Throws (host : Endian) (s : NetUnpacker) (c : Call) : Prop :=
  ∃ e s', (addPacket host c).run s = .error e s'

end NetUnpacker
end CcTools
