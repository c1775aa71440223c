import ChainQuery.Datum
import ChainQuery.Term.Kind

/-! # Terms — the tree handed to the wire

    A term is a datum leaf or an operation applied to positional
    arguments and named ones.  Named arguments stay sorted by name, so
    the order in which they are attached cannot be seen. -/

namespace ChainQuery

/-- A syntax tree of the remote engine. -/
inductive Term where
  | datum (d : Datum)
  | apply (kind : Term.Kind) (args : List Term)
      (optargs : List (String × Term))
  deriving Inhabited

namespace Term

/-! ## Building -/

/-- A string leaf. -/
def text (s : String) : Term :=
  .datum (.string s)

/-- The leaf of a flag that is set. -/
def flag : Term :=
  .datum (.bool true)

/-- An operation without named arguments. -/
def node (kind : Kind) (args : List Term) : Term :=
  .apply kind args []

/-- Attach a named argument, in place of any of that name.  A leaf has
    no arguments and stays as it is. -/
def withOptarg (t : Term) (name : String) (value : Term) : Term :=
  match t with
  | .datum d => .datum d
  | .apply kind args optargs =>
      .apply kind args (Entries.put name value optargs)

/-- Attach a named argument only when there is a value. -/
def withOptional (t : Term) (name : String) (value : Option Term) : Term :=
  match value with
  | none => t
  | some value => t.withOptarg name value

/-! ## Reading -/

/-- What the node does; a leaf is of kind `datum`. -/
def kind : Term → Kind
  | .datum _ => .datum
  | .apply kind _ _ => kind

/-- Positional arguments. -/
def args : Term → List Term
  | .datum _ => []
  | .apply _ args _ => args

/-- Named arguments in name order. -/
def optargs : Term → List (String × Term)
  | .datum _ => []
  | .apply _ _ optargs => optargs

/-- The argument of a given name. -/
def optarg? (t : Term) (name : String) : Option Term :=
  Entries.find? name t.optargs

/-- The datum of a leaf. -/
def asDatum : Term → Option Datum
  | .datum d => some d
  | .apply _ _ _ => none

/-! ## Size -/

mutual

/-- Number of nodes, named arguments included; a leaf counts one whatever
    its datum holds. -/
def nodeCount : Term → Nat
  | .datum _ => 1
  | .apply _ args optargs => 1 + nodeCounts args + namedCounts optargs
termination_by structural t => t

/-- Number of nodes in a list of terms. -/
def nodeCounts : List Term → Nat
  | [] => 0
  | t :: ts => nodeCount t + nodeCounts ts
termination_by structural ts => ts

/-- Number of nodes in named terms. -/
def namedCounts : List (String × Term) → Nat
  | [] => 0
  | (_, t) :: rest => nodeCount t + namedCounts rest
termination_by structural es => es

end

/-! ## Equality -/

mutual

/-- Equality of terms, numbers compared as numbers. -/
def same : Term → Term → Bool
  | .datum a, .datum b => a.same b
  | .apply k as es, .apply l bs fs =>
      k == l && sameArgs as bs && sameOptargs es fs
  | _, _ => false
termination_by structural t => t

/-- Equality argument by argument. -/
def sameArgs : List Term → List Term → Bool
  | [], [] => true
  | a :: as, b :: bs => same a b && sameArgs as bs
  | _, _ => false
termination_by structural ts => ts

/-- Equality name by name. -/
def sameOptargs : List (String × Term) → List (String × Term) → Bool
  | [], [] => true
  | (k, a) :: as, (l, b) :: bs =>
      k == l && same a b && sameOptargs as bs
  | _, _ => false
termination_by structural es => es

end

end Term

end ChainQuery
