import ChainQuery.Draft.Capture
import ChainQuery.Term

/-! # Written terms — trees put together by hand

    A term can be built directly: leaves, operations, stored terms, and
    named arguments attached one after another. -/

namespace ChainQuery.Draft

/-- A written term. -/
inductive Term where
  | datum (d : Datum)
  | apply (kind : Term.Kind) (args : List Term)
  /-- A stored term. -/
  | stored (name : String)
  /-- A term with a named argument attached. -/
  | withOptarg (t : Term) (name : String) (value : Term)
  /-- A term with a named argument attached if there is one. -/
  | withOptional (t : Term) (name : String) (value : Option Term)

mutual

/-- The term a written term is, stored ones taken from `terms`. -/
def Term.read (terms : List (String × ChainQuery.Term)) :
    Draft.Term → Except Refusal ChainQuery.Term
  | .datum d => .ok (.datum d)
  | .apply kind args => do
      let args ← readArgs terms args
      return .node kind args
  | .stored name =>
      match terms.lookup name with
      | some t => .ok t
      | none => .error (.missing name)
  | .withOptarg t name value => do
      let t ← Term.read terms t
      let value ← Term.read terms value
      return t.withOptarg name value
  | .withOptional t name value => do
      let t ← Term.read terms t
      let value ← readOptional terms value
      return t.withOptional name value
termination_by structural t => t

/-- The terms written terms are, in order. -/
def readArgs (terms : List (String × ChainQuery.Term)) :
    List Draft.Term → Except Refusal (List ChainQuery.Term)
  | [] => .ok []
  | t :: ts => do
      let t ← Term.read terms t
      let ts ← readArgs terms ts
      return t :: ts
termination_by structural ts => ts

/-- The term of a value that may be absent. -/
def readOptional (terms : List (String × ChainQuery.Term)) :
    Option Draft.Term → Except Refusal (Option ChainQuery.Term)
  | none => .ok none
  | some t => do
      let t ← Term.read terms t
      return some t
termination_by structural t => t

end

end ChainQuery.Draft
