import ChainQuery.Query.Shape

/-! # Drafts — chains as a caller writes them

    In a draft the parameters of functions have names, operands may refer
    to things stored earlier, and a chain is a root followed by written
    steps.  Nothing is numbered or checked yet: that is done when the
    draft is captured, in `ChainQuery.Draft.Capture`. -/

namespace ChainQuery.Draft

/-- Where a draft starts: a root, or a chain stored under a name. -/
inductive Start where
  | root (r : Root)
  | stored (name : String)

/-- Steps on a database reference. -/
inductive DatabaseStep where
  | table (name : String)
  | tableCreate (name : String)
  | tableDrop (name : String)
  | tableList

/-- Steps on a table itself. -/
inductive TableStep where
  | insert (v : Value)
  | indexCreate (name : String)
  | indexDrop (name : String)
  | indexList

/-- What a step on a database makes of the database's name. -/
def DatabaseStep.root : DatabaseStep → String → Root
  | .table name, db => .table ⟨some db, name, false⟩
  | .tableCreate name, db => .tableCreate db name
  | .tableDrop name, db => .tableDrop db name
  | .tableList, db => .tableList db

/-- What a step on a table makes of it. -/
def TableStep.root : TableStep → Table → Root
  | .insert v, t => .insert t v false
  | .indexCreate name, t => .indexCreate t name
  | .indexDrop name, t => .indexDrop t name
  | .indexList, t => .indexList t

mutual

/-- A written expression. -/
inductive Expr where
  /-- A parameter, by name. -/
  | named (name : String)
  /-- A parameter that no function declares. -/
  | fresh
  /-- A copy of a stored expression. -/
  | stored (name : String)
  | literal (v : Value)
  | field (target : Expr) (name : String)
  | compare (op : CompareOp) (left right : Expr)
  | arith (op : ArithOp) (left right : Expr)
  | all (items : List Expr)
  | any (items : List Expr)
  | not (e : Expr)
  | array (items : List Expr)
  | object (members : List (String × Expr))
  | call (name : String) (args : List Expr)
  | subquery (q : Query)

/-- A written function of one row. -/
inductive RowFunc where
  | mk (row : String) (body : Expr)

/-- A written function of two rows. -/
inductive PairFunc where
  | mk (left right : String) (body : Expr)

/-- A written reduction. -/
inductive Reduction where
  | count
  | sum (member : RowFunc)
  | average (member : RowFunc)

/-- What a written step does. -/
inductive Action where
  | onDatabase (s : DatabaseStep)
  | onTable (s : TableStep)
  | modify (m : Modifier)
  | plain (s : Step)
  | indexCreateWith (name : String) (key : RowFunc)
  | rowStep (s : RowStep) (f : RowFunc)
  | orderBy (key : RowFunc) (direction : Direction)
  | thenBy (key : RowFunc) (direction : Direction)
  | union (other : Query)
  | reduce (f : PairFunc)
  | groupBy (reduction : Reduction) (key : RowFunc)
  | groupedMapReduce (grouping mapping : RowFunc) (reduction : PairFunc)
  | join (kind : JoinKind) (other : Query) (predicate : PairFunc)
  | eqJoin (member : RowFunc) (other : Query)

/-- A written step: what it does, and the word it is written with, which
    messages repeat. -/
inductive Written where
  | mk (word : String) (action : Action)

/-- A written chain. -/
inductive Query where
  | mk (start : Start) (steps : List Written)

end

/-- The name of the parameter of a function of one row. -/
def RowFunc.names : RowFunc → List String
  | .mk row _ => [row]

/-- The names of the parameters of a function of two rows. -/
def PairFunc.names : PairFunc → List String
  | .mk left right _ => [left, right]

/-- A written function of any number of parameters. -/
inductive Func where
  /-- A function that makes its parameters. -/
  | closure (names : List String) (body : Expr)
  /-- The selector of one member. -/
  | member (name : String)
  /-- A function over parameters made earlier, in any number. -/
  | over (names : List String) (body : Expr)
  /-- A copy of a stored function. -/
  | stored (name : String)

/-! ## Shorthands for expressions -/

namespace Expr

/-- Whether `item` is in `e`. -/
def contains (e item : Expr) : Expr := .call "contains" [e, item]

/-- `e` with `item` at its end. -/
def append (e item : Expr) : Expr := .call "append" [e, item]

/-- `fallback` where `e` is missing or null. -/
def defaultTo (e fallback : Expr) : Expr := .call "default" [e, fallback]

/-- The number of elements. -/
def count (e : Expr) : Expr := .call "count" [e]

/-- Upper case. -/
def upcase (e : Expr) : Expr := .call "upcase" [e]

/-- Lower case. -/
def downcase (e : Expr) : Expr := .call "downcase" [e]

/-- Whether a regular expression matches. -/
def matchesPattern (e : Expr) (pattern : String) : Expr :=
  .call "match" [e, .literal (.text pattern)]

/-- Whether a member is present. -/
def hasField (e : Expr) (name : String) : Expr :=
  .call "has_fields" [e, .literal (.text name)]

/-- Both of two conditions. -/
def both (a b : Expr) : Expr := .all [a, b]

/-- Either of two conditions. -/
def either (a b : Expr) : Expr := .any [a, b]

end Expr

end ChainQuery.Draft
