import CcTools.StringUtils

/-!
# `path`: the text of a path and its elements

The class `path` of `filesystem.hpp`, which is `fs::path` where the compiler has no `<filesystem>`, on POSIX:
`_prefixLength` is 0 and every format is the native one. A path is the text it holds, and an iterator the
position it stands at.
-/

namespace CcTools

abbrev Path := Str

namespace Path

def preferredSeparator : UInt8 := 0x2F

def IsSep (s : Str) (i : Nat) : Prop := s[i]? = some preferredSeparator

instance (s : Str) (i : Nat) : Decidable (IsSep s i) := inferInstanceAs (Decidable (_ = _))

/-- `std::unique` with the predicate that two separators are the same. -/
def unique : Str → Str
  | c :: d :: s => if c = d ∧ c = preferredSeparator then unique (d :: s) else c :: unique (d :: s)
  | s => s

/-- The text begins with two separators and a byte that is none. -/
def Doubled (s : Str) : Prop := s.length > 2 ∧ IsSep s 0 ∧ IsSep s 1 ∧ ¬ IsSep s 2

instance (s : Str) : Decidable (Doubled s) := inferInstanceAs (Decidable (_ ∧ _))

def postprocess (s : Str) : Path := if Doubled s then s.take 2 ++ unique (s.drop 2) else unique s

/-- `std::isprint` in the classic locale. -/
def isPrint (c : UInt8) : Bool := 0x20 ≤ c && c ≤ 0x7E

/-- The first separator from `pos` on, or else the end. -/
def findSep (s : Str) (pos : Nat) : Nat := pos + (s.drop pos).findIdx (· == preferredSeparator)

variable (s : Path)

def rootNameLength : Nat :=
  if Doubled s ∧ isPrint (s.getD 2 0) then findSep s 3 else 0

def rootName : Path := postprocess (s.take (rootNameLength s))

def HasRootDirectory : Prop := s.length > rootNameLength s ∧ IsSep s (rootNameLength s)

instance : Decidable (HasRootDirectory s) := inferInstanceAs (Decidable (_ ∧ _))

def rootPathLen : Nat := rootNameLength s + if HasRootDirectory s then 1 else 0

def HasRelativePath : Prop := rootPathLen s < s.length

instance : Decidable (HasRelativePath s) := inferInstanceAs (Decidable (_ < _))

def rootDirectory : Path := if HasRootDirectory s then postprocess [preferredSeparator] else []

def relativePath : Path := postprocess (s.drop (min (rootPathLen s) s.length))

/-- The member `_root` of an iterator. -/
def root : Nat := if HasRootDirectory s then rootNameLength s else s.length

def increment (pos : Nat) : Nat :=
  if pos = s.length then pos
  else if IsSep s pos then
    let i := pos + 1
    if i ≠ s.length ∧ IsSep s i then
      if pos = 0 ∧ ¬ (i + 1 ≠ s.length ∧ IsSep s (i + 1)) then findSep s (i + 1)
      else i + ((s.drop i).takeWhile (· == preferredSeparator)).length
    else i
  else findSep s (pos + 1)

/-- The position behind the last separator before the given one, or else 0. -/
def behindSep : Nat → Nat
  | 0 => 0
  | i + 1 => if IsSep s i then i + 1 else behindSep i

def decrement (pos : Nat) : Nat :=
  if pos = 0 then pos
  else
    let i := pos - 1
    if i ≠ root s ∧ (pos ≠ s.length ∨ ¬ IsSep s i) then
      let i := behindSep s i
      if i = 2 ∧ IsSep s 0 ∧ IsSep s 1 then i - 2 else i
    else i

/-- What an iterator shows. -/
def current (iter : Nat) : Path :=
  if iter = s.length ∨ iter ≠ 0 ∧ iter ≠ s.length ∧ (IsSep s iter ∧ iter ≠ root s) ∧ iter + 1 = s.length then []
  else postprocess ((s.drop iter).take (increment s iter - iter))

/-- The loop of `operator++`; no more steps are made than there are bytes. -/
def skipSeps : Nat → Nat → Nat
  | 0, iter => iter
  | fuel + 1, iter =>
    if iter ≠ s.length ∧ iter ≠ root s ∧ IsSep s iter ∧ iter + 1 ≠ s.length then skipSeps fuel (iter + 1) else iter

def next (iter : Nat) : Nat := skipSeps s s.length (increment s iter)

/-- The elements from `iter` on; each of them takes the iterator further. -/
def elementsFrom : Nat → Nat → List Path
  | 0, _ => []
  | fuel + 1, iter => if iter = s.length then [] else current s iter :: elementsFrom fuel (next s iter)

def elements : List Path := elementsFrom s s.length 0

def filename : Path := if HasRelativePath s then current s (decrement s s.length) else []

/-- `fn.rfind('.')`. -/
def rfindDot (fn : Str) : Option Nat := (fn.reverse.findIdx? (· == 0x2E)).map (fn.length - 1 - ·)

def stem : Path :=
  let fn := filename s
  if fn ≠ [0x2E] ∧ fn ≠ [0x2E, 0x2E] then
    match rfindDot fn with
    | some pos => if pos > 0 then postprocess (fn.take pos) else postprocess fn
    | none => postprocess fn
  else postprocess fn

def extension : Path :=
  if HasRelativePath s then
    let fn := current s (decrement s s.length)
    match rfindDot fn with
    | some pos => if pos > 0 then postprocess (fn.drop pos) else []
    | none => []
  else []

/-- What is left of two texts behind their roots. -/
def compareRest : Str → Str → Int
  | [], [] => 0
  | [], _ :: _ => -1
  | _ :: _, [] => 1
  | c :: s, d :: t =>
    if c = d then compareRest s t
    else if c = preferredSeparator then -1
    else if d = preferredSeparator then 1
    else if c.toInt8 < d.toInt8 then -1
    else 1

def compare (p : Path) : Int :=
  let rnl1 := rootNameLength s
  let rnl2 := rootNameLength p
  let rnc := StringUtils.compare (s.take rnl1) (p.take (min rnl1 rnl2))
  if rnc ≠ 0 then rnc
  else if HasRootDirectory s ↔ HasRootDirectory p then compareRest (s.drop (rootPathLen s)) (p.drop (rootPathLen p))
  else if HasRootDirectory s then 1
  else -1

/-- The loop of `operator/=`. -/
def appendElements (first : Bool) (s : Path) : List Path → Path
  | [] => s
  | element :: elements =>
    let s := if !first ∧ ¬ s.getLast? = some preferredSeparator then s ++ [preferredSeparator] else s
    appendElements false (s ++ element) elements

/-- `operator/=`; on POSIX a path is absolute if it has a root directory. -/
def append (p : Path) : Path :=
  if p = [] then
    if s ≠ [] ∧ s.getLast? ≠ some preferredSeparator ∧ s.getLast? ≠ some 0x3A then s ++ [preferredSeparator] else s
  else if HasRootDirectory p ∧ (s ≠ rootName s ∨ p ≠ [preferredSeparator]) ∨
      rootNameLength p > 0 ∧ compare (rootName p) (rootName s) ≠ 0 then
    p
  else
    let s :=
      if HasRootDirectory p then rootName s
      else if ¬ HasRootDirectory s ∧ HasRootDirectory s ∨ HasRelativePath s ∧ filename s ≠ [] then
        s ++ [preferredSeparator]
      else s
    appendElements true s (if rootNameLength p > 0 then (elements p).tail else elements p)

/-- `absolute`, where `base` is the current path. -/
def absolute (base p : Path) : Path :=
  if p = [] then append base p
  else if rootNameLength p > 0 then
    if HasRootDirectory p then p
    else append (append (append (rootName p) (rootDirectory base)) (relativePath base)) (relativePath p)
  else if HasRootDirectory p then append (rootName base) p
  else append base p

end Path
end CcTools
