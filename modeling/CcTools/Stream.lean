import CcTools.Numeral

/-!
# Reading from a `std::stringstream`

What the C++ library does for `sin >> d` and `sin >> c` in the classic locale, a `double` and a `char`, and
`isNumber` of `utils/StringUtils.cpp`, which tries the one and then the other. The values that are read are
not used there.
-/

namespace CcTools

/-- `rest` is the text that is still to be read. -/
structure Stream where
  rest : Str
  eof : Bool := false
  fail : Bool := false
deriving DecidableEq, Repr

/-- What was found of a numeral, and whether a sign may come next. -/
structure Accum where
  signNext : Bool := true
  foundMantissa : Bool := false
  foundDec : Bool := false
  foundSci : Bool := false
deriving DecidableEq, Repr

/-- The next character of a numeral; `none` where the accumulation ends. -/
def Accum.step (a : Accum) (c : UInt8) : Option Accum :=
  match kind c with
  | .sign => if a.signNext then some { a with signNext := false } else none
  | .digit => some { a with signNext := false, foundMantissa := true }
  | .point => if a.foundDec || a.foundSci then none else some { a with signNext := false, foundDec := true }
  | .mark => if a.foundSci || !a.foundMantissa then none else some { a with signNext := true, foundSci := true }
  | .space | .other => none

/-- The text is converted as a whole and without an overflow. -/
def converts (text : Str) : Bool :=
  match strtod text with
  | some (n, []) => !decide n.Overflows
  | _ => false

namespace Stream

/-- Is the stream ready for a formatted read? White space is skipped. -/
def sentry (s : Stream) : Bool × Stream :=
  if s.eof || s.fail then
    (false, { s with fail := true })
  else
    match s.rest.dropWhile (kind · = .space) with
    | [] => (false, { rest := [], eof := true, fail := true })
    | c :: rest => (true, { s with rest := c :: rest })

/-- `s >> d` for a `double`. -/
def getDouble (s : Stream) : Stream :=
  match s.sentry with
  | (false, s) => s
  | (true, s) =>
    let (text, rest) := Munch.munch Accum.step {} s.rest
    { rest, eof := rest.isEmpty, fail := !converts text }

/-- `s >> c` for a `char`. -/
def getChar (s : Stream) : Stream :=
  match s.sentry with
  | (false, s) => s
  | (true, s) =>
    match s.rest with
    | [] => { s with eof := true, fail := true }
    | _ :: rest => { s with rest }

end Stream

namespace StringUtils

def isNumber (str : Str) : Bool :=
  let sin : Stream := { rest := str }
  let sin := sin.getDouble
  if sin.fail then false
  else
    let sin := sin.getChar
    if !sin.fail then false
    else true

end StringUtils

end CcTools
