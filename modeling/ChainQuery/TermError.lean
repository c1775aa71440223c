import ChainQuery.Convert
import ChainQuery.Query

/-! # Generation errors — why a chain has no term

    Only expressions and literals can fail; chains of the wrong shape are
    refused when they are written.  An error names its cause, and the
    text is derived from the cause. -/

namespace ChainQuery

/-- Where a selector must name a single member. -/
inductive SelectorUse where
  | sum | average | eqJoin
  deriving DecidableEq, Repr

/-- The use of a selector in words. -/
def SelectorUse.label : SelectorUse → String
  | .sum => "sum reduction"
  | .average => "avg reduction"
  | .eqJoin => "eq_join left member"

/-- An expression form that has no term. -/
inductive Unsupported where
  /-- A parameter outside the function that declares it. -/
  | freeParam (p : Param)
  /-- A function the engine does not know. -/
  | unknownCall (name : String)
  /-- A known function with the wrong number of arguments. -/
  | wrongArity (name : String) (given expected : Nat)
  /-- An object that names a member twice. -/
  | duplicateMember (name : String)
  /-- A selector whose body is not a single member. -/
  | notMember (use : SelectorUse) (found : Expr.Form)
  deriving DecidableEq, Repr

/-- The construct in words. -/
def Unsupported.construct : Unsupported → String
  | .freeParam p =>
      s!"parameter #{p.number} used outside the function that declares it"
  | .unknownCall name => s!"call to unknown function '{name}'"
  | .wrongArity name given expected =>
      s!"call to '{name}' with {given} arguments, expected {expected}"
  | .duplicateMember name => s!"object with duplicate member '{name}'"
  | .notMember use found =>
      s!"{use.label} requires a single member access, found {found.label}"

/-- Why generation failed. -/
inductive TermError where
  | unsupported (u : Unsupported)
  | convert (e : ConvertError)
  deriving DecidableEq, Repr

/-- The whole message. -/
def TermError.message : TermError → String
  | .unsupported u => s!"unsupported expression form: {u.construct}"
  | .convert e => s!"value not convertible: {e.message}"

end ChainQuery
