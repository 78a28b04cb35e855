import CcTools.StringUtils

/-!
# The conversions between UTF-8 and UTF-16

`consumeUtf8Fragment`, `appendUTF8`, `fromUtf8` and `toUtf8` of `filesystem.hpp`, for code units of two
bytes (a `std::wstring` on Windows). `GHC_RAISE_UNICODE_ERRORS` is not defined, so what cannot be converted
becomes U+FFFD.
-/

namespace CcTools

abbrev WStr := List UInt16

namespace Fs

def stateStart : UInt32 := 0

def stateReject : UInt32 := 8

/-- The first 16 words hold the categories of the bytes from 128 on, eight to a word; the others the states
that follow, one word for each category. -/
def utf8StateInfo : List UInt32 := [
  0x11111111, 0x11111111, 0x77777777, 0x77777777, 0x88888888, 0x88888888, 0x88888888, 0x88888888,
  0x22222299, 0x22222222, 0x22222222, 0x22222222, 0x3333333a, 0x33433333, 0x9995666b, 0x99999999,
  0x88888880, 0x22818108, 0x88888881, 0x88888882, 0x88888884, 0x88888887, 0x88888886, 0x82218108,
  0x82281108, 0x88888888, 0x88888883, 0x88888885, 0, 0, 0, 0]

def category (fragment : UInt8) : UInt32 :=
  if fragment < 128 then 0
  else utf8StateInfo.getD ((fragment >>> 3) &&& 0xF).toNat 0 >>> ((fragment &&& 7) <<< 2).toUInt32 &&& 0xF

/-- The next state, and what is known of the code point then. -/
def consumeUtf8Fragment (state : UInt32) (fragment : UInt8) (codepoint : UInt32) : UInt32 × UInt32 :=
  let category := category fragment
  let codepoint :=
    if state ≠ 0 then codepoint <<< 6 ||| (fragment &&& 0x3F).toUInt32
    else (0xFF >>> category) &&& fragment.toUInt32
  (if state = stateReject then stateReject
    else utf8StateInfo.getD (category + 16).toNat 0 >>> (state <<< 2) &&& 0xF, codepoint)

/-- The bytes of a code point; `none` if it is none. -/
def utf8Bytes (unicode : UInt32) : Option Str :=
  if unicode ≤ 0x7F then
    some [unicode.toUInt8]
  else if 0x80 ≤ unicode ∧ unicode ≤ 0x7FF then
    some [((unicode >>> 6) + 192).toUInt8, ((unicode &&& 0x3F) + 128).toUInt8]
  else if 0x800 ≤ unicode ∧ unicode ≤ 0xD7FF ∨ 0xE000 ≤ unicode ∧ unicode ≤ 0xFFFF then
    some [((unicode >>> 12) + 224).toUInt8, (((unicode &&& 0xFFF) >>> 6) + 128).toUInt8,
      ((unicode &&& 0x3F) + 128).toUInt8]
  else if 0x10000 ≤ unicode ∧ unicode ≤ 0x10FFFF then
    some [((unicode >>> 18) + 240).toUInt8, (((unicode &&& 0x3FFFF) >>> 12) + 128).toUInt8,
      (((unicode &&& 0xFFF) >>> 6) + 128).toUInt8, ((unicode &&& 0x3F) + 128).toUInt8]
  else none

/-- The recursive call of the last branch ends in the third one. -/
def appendUTF8 (str : Str) (unicode : UInt32) : Str :=
  match utf8Bytes unicode with
  | some bytes => str ++ bytes
  | none => str ++ (utf8Bytes 0xFFFD).getD []

/-- The locals of the loop of `fromUtf8`. -/
structure Decoding where
  result : WStr := []
  utf8State : UInt32 := stateStart
  codepoint : UInt32 := 0
deriving DecidableEq, Repr

def appendUnits (result : WStr) (codepoint : UInt32) : WStr :=
  if codepoint ≤ 0xFFFF then
    result ++ [codepoint.toUInt16]
  else
    let codepoint := codepoint - 0x10000
    result ++ [((codepoint >>> 10) + 0xD800).toUInt16, ((codepoint &&& 0x3FF) + 0xDC00).toUInt16]

def Decoding.next (d : Decoding) (fragment : UInt8) : Decoding :=
  let (utf8State, codepoint) := consumeUtf8Fragment d.utf8State fragment d.codepoint
  if utf8State = stateStart then
    { result := appendUnits d.result codepoint, utf8State, codepoint := 0 }
  else if utf8State = stateReject then
    { result := d.result ++ [0xFFFD], utf8State := stateStart, codepoint := 0 }
  else
    { d with utf8State, codepoint }

def fromUtf8 (utf8String : Str) : WStr :=
  let d := utf8String.foldl Decoding.next {}
  if d.utf8State ≠ 0 then d.result ++ [0xFFFD] else d.result

def inRange (c lo hi : UInt32) : Bool := c - lo < hi - lo + 1

def isSurrogate (c : UInt32) : Bool := inRange c 0xD800 0xDFFF

def isHighSurrogate (c : UInt32) : Bool := c &&& 0xFFFFFC00 == 0xD800

def isLowSurrogate (c : UInt32) : Bool := c &&& 0xFFFFFC00 == 0xDC00

/-- The loop of `toUtf8`. A unit after a surrogate is taken with it, whether they make a pair or not. -/
def toUtf8From (result : Str) : WStr → Str
  | [] => result
  | [c] => if isSurrogate c.toUInt32 then appendUTF8 result 0xFFFD else appendUTF8 result c.toUInt32
  | c :: d :: rest =>
    if isSurrogate c.toUInt32 then
      if isHighSurrogate c.toUInt32 && isLowSurrogate d.toUInt32 then
        toUtf8From (appendUTF8 result ((c.toUInt32 <<< 10) + d.toUInt32 - 0x35FDC00)) rest
      else
        toUtf8From (appendUTF8 result 0xFFFD) rest
    else
      toUtf8From (appendUTF8 result c.toUInt32) (d :: rest)

def toUtf8 (unicodeString : WStr) : Str := toUtf8From [] unicodeString

end Fs
end CcTools
