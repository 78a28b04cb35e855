import Mathlib.Init

/-! # What the code throws -/

namespace CcTools

/-- An exception by its type, with the text it gives; `bad_alloc` has none of its own. -/
inductive Exception where
  | runtimeError (what : String)
  | invalidArgument (what : String)
  | lengthError (what : String)
  | outOfRange (what : String)
  | badAlloc
deriving DecidableEq, Repr

end CcTools
