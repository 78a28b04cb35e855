import CcTools.Exception
import CcTools.Lib.Loop
import CcTools.Lib.Search

/-!
# `StringUtils`: splitting, trimming and comparing strings

The functions of `utils/StringUtils.cpp` but `isNumber` and `u8ToLocal`. A `std::string` is the list of its bytes. Where
the code only compares what `find` returns with `npos`, `none` stands for it; `trim` computes with
positions, so there they are `UInt64`. Memory does not run out.
-/

namespace CcTools

abbrev Str := List UInt8

namespace StringUtils

def substr (s : Str) (pos n : Nat) : Str := (s.drop pos).take n

def erase (s : Str) (pos n : Nat) : Str := s.take pos ++ s.drop (pos + n)

structure SplitState where
  result : List Str := []
  tmpStr : Str
deriving DecidableEq

/-- The `while` loop of `split`: the test, and the body where `delimiter` was found. -/
def splitStep (delimiter : Str) (s : SplitState) : Option SplitState :=
  (Search.find s.tmpStr delimiter).map fun pos =>
    { result := s.result ++ [substr s.tmpStr 0 pos]
      tmpStr := erase s.tmpStr 0 (pos + delimiter.length) }

/-- `fuel` bounds the tests of the loop; `none` if they do not suffice. -/
def split (fuel : Nat) (str delimiter : Str) : Option (List Str) :=
  (Loop.run (splitStep delimiter) fuel { tmpStr := str }).map fun s => s.result ++ [s.tmpStr]

def contain (string subString : Str) : Bool := (Search.find string subString).isSome

/-- `std::string::npos`, the largest `size_t`. -/
def npos : UInt64 := 0xFFFFFFFFFFFFFFFF

def findFirstNotOf (s chars : Str) : UInt64 :=
  match s.findIdx? (· ∉ chars) with
  | some i => UInt64.ofNat i
  | none => npos

def findLastNotOf (s chars : Str) : UInt64 :=
  match s.reverse.findIdx? (· ∉ chars) with
  | some i => UInt64.ofNat (s.length - 1 - i)
  | none => npos

/-- `s.erase(pos, n)` with its check of `pos`. -/
def eraseAt (s : Str) (pos n : UInt64) : Except Exception Str :=
  if pos.toNat > s.length then
    throw (.outOfRange "basic_string::erase")
  else
    pure (erase s pos.toNat n.toNat)

/-- The characters of `"\f\v\r\t\n "`. -/
def blanks : Str := [0x0C, 0x0B, 0x0D, 0x09, 0x0A, 0x20]

def trim (str : Str) : Except Exception Str := do
  let input ← eraseAt str 0 (findFirstNotOf str blanks)
  eraseAt input (findLastNotOf input blanks + 1) npos

/-- `std::toupper` in the classic locale. -/
def toUpper (c : UInt8) : UInt8 := if 0x61 ≤ c ∧ c ≤ 0x7A then c - 0x20 else c

def upperCase (s : Str) : Str := s.map toUpper

/-- `s.compare(t)`: by the first bytes that differ, else by the lengths. -/
def compare (s t : Str) : Int :=
  match (s.zip t).find? fun c => c.1 != c.2 with
  | some c => if c.1 < c.2 then -1 else 1
  | none => s.length - t.length

def startsWith (source head : Str) : Bool :=
  decide (head.length ≤ source.length) && compare (substr source 0 head.length) head == 0

def endsWith (source tail : Str) : Bool :=
  decide (tail.length ≤ source.length) &&
    compare (substr source (source.length - tail.length) tail.length) tail == 0

def equal (source target : Str) : Bool := compare source target == 0

end StringUtils
end CcTools
