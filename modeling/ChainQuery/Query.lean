import ChainQuery.Value

/-! # Queries and expressions — chains as data

    A query starts at a root and grows by steps; a step may carry
    functions over rows, and the body of a function is an expression that
    may hold a whole query again.  The two families are therefore one
    mutual inductive type.  Nothing here is evaluated: a chain is a
    description, turned into a term by `ChainQuery.Generate`.

    Steps are grouped by what they carry besides their source: literals
    only (`Step`), one function of a row (`RowStep`), or functions and
    queries in a constructor of their own. -/

namespace ChainQuery

/-! ## Operands -/

/-- The identity of a function parameter. -/
structure Param where
  number : Nat
  deriving DecidableEq, Repr, Inhabited

/-- Comparison operators. -/
inductive CompareOp where
  | eq | ne | lt | le | gt | ge
  deriving DecidableEq, Repr

/-- Arithmetic operators. -/
inductive ArithOp where
  | add | sub | mul | div | mod
  deriving DecidableEq, Repr

/-- The direction of a sort key. -/
inductive Direction where
  | asc | desc
  deriving DecidableEq, Repr, Inhabited

/-- The direction of a key that names none. -/
def Direction.standard : Direction := .asc

/-- Whether a range end includes its key. -/
inductive Bound where
  | including | excluding
  deriving DecidableEq, Repr, Inhabited

/-- The bound of a range end that names none. -/
def Bound.standard : Bound := .including

/-- The word for a bound on the wire. -/
def Bound.word : Bound → String
  | .including => "closed"
  | .excluding => "open"

/-- A primary key: text or a number of any form.  Integers keep their
    form until conversion, which decides whether they fit. -/
inductive PrimaryKey where
  | int (i : Int64)
  | uint (n : UInt64)
  | float (x : Binary64)
  | text (s : String)
  deriving DecidableEq, Repr

/-- The literal a primary key is. -/
def PrimaryKey.toValue : PrimaryKey → Value
  | .int i => .int i
  | .uint n => .uint n
  | .float x => .float x
  | .text s => .text s

/-- A reference to a table, in a named database or the default one. -/
structure Table where
  db : Option String
  name : String
  /-- Allow reads from replicas that lag behind. -/
  useOutdated : Bool
  deriving DecidableEq, Repr

/-! ## Roots and steps without functions -/

/-- Where a chain starts: references, literals, and operations on
    databases, tables and indexes that follow from a name alone. -/
inductive Root where
  | db (name : String)
  | table (t : Table)
  | dbCreate (name : String)
  | dbDrop (name : String)
  | dbList
  | tableCreate (db name : String)
  | tableDrop (db name : String)
  | tableList (db : String)
  /-- An index over the member of the same name. -/
  | indexCreate (t : Table) (name : String)
  | indexDrop (t : Table) (name : String)
  | indexList (t : Table)
  /-- One value as a single object. -/
  | literal (v : Value)
  /-- Values as a sequence. -/
  | literalSeq (vs : List Value)
  /-- The time at the engine. -/
  | now
  | insert (t : Table) (v : Value) (upsert : Bool)

/-- Steps that carry only literals, names and flags. -/
inductive Step where
  /-- Look a row up, by the table's own key or by another member. -/
  | get (key : PrimaryKey) (keyMember : Option String)
  /-- All rows with a key, by the primary key or an index. -/
  | getAll (key : Value) (index : Option String)
  /-- Rows in a range of keys. -/
  | between (left right : Value) (index : Option String)
      (leftBound rightBound : Bound)
  | skip (count : Int64)
  | limit (count : Int64)
  /-- A stretch of rows, to the end when no stop is given. -/
  | slice (start : Int64) (stop : Option Int64)
  | nth (position : Int64)
  | distinct
  | count
  /-- Merge each pair of a join into one document. -/
  | zip
  | replace (v : Value) (nonAtomic : Bool)
  | replaceAndReturn (v : Value) (nonAtomic : Bool)
  | delete
  | deleteAndReturn

/-- A range as it is first written: by the primary key, with its left end
    and without its right one. -/
def Step.range (left right : Value) : Step :=
  .between left right none .including .excluding

/-- Steps that carry one function of a row. -/
inductive RowStep where
  | filter
  | map
  | concatMap
  | update (nonAtomic : Bool)
  | updateAndReturn (nonAtomic : Bool)
  deriving DecidableEq, Repr

/-- Whether a join keeps left rows that match nothing. -/
inductive JoinKind where
  | inner | outer
  deriving DecidableEq, Repr

/-! ## The mutual family -/

mutual

/-- Expressions over the parameters of the enclosing functions. -/
inductive Expr where
  | param (p : Param)
  | literal (v : Value)
  /-- Member access. -/
  | field (target : Expr) (name : String)
  | compare (op : CompareOp) (left right : Expr)
  | arith (op : ArithOp) (left right : Expr)
  | all (items : List Expr)
  | any (items : List Expr)
  | not (e : Expr)
  | array (items : List Expr)
  | object (members : List (String × Expr))
  /-- A function of the remote engine, looked up by name. -/
  | call (name : String) (args : List Expr)
  /-- A query in the place of a value.  The identity tells apart
      embeddings of the same query made at different times. -/
  | subquery (identity : Nat) (q : Query)

/-- A function of one row. -/
inductive RowFunc where
  | mk (row : Param) (body : Expr)

/-- A function of two rows. -/
inductive PairFunc where
  | mk (left right : Param) (body : Expr)

/-- A sort key and its direction. -/
inductive SortKey where
  | mk (selector : RowFunc) (direction : Direction)

/-- What is computed for each group. -/
inductive Reduction where
  | count
  | sum (member : RowFunc)
  | average (member : RowFunc)

/-- A chain. -/
inductive Query where
  | root (r : Root)
  /-- An index over a computed key. -/
  | indexCreateWith (t : Table) (name : String) (key : RowFunc)
  | step (source : Query) (s : Step)
  | rowStep (source : Query) (s : RowStep) (f : RowFunc)
  /-- Rows sorted by a first key and further ones. -/
  | orderBy (source : Query) (first : SortKey) (others : List SortKey)
  | union (first second : Query)
  /-- A fold, seeded by the base or by the first row. -/
  | reduce (source : Query) (f : PairFunc) (base : Option Value)
  | groupBy (source : Query) (reduction : Reduction) (key : RowFunc)
  | groupedMapReduce (source : Query) (grouping mapping : RowFunc)
      (reduction : PairFunc) (base : Option Value)
  /-- All pairs of rows for which the predicate holds. -/
  | join (kind : JoinKind) (left right : Query) (predicate : PairFunc)
  /-- Pairs by a member of the left row and a key of the right one. -/
  | eqJoin (left : Query) (member : RowFunc) (right : Query)
      (index : Option String)

end

/-! ## Functions of any number of parameters -/

/-- A captured function: its parameters and a body over them. -/
structure Func where
  params : List Param
  body : Expr

/-- A function of one row as a function. -/
def RowFunc.toFunc : RowFunc → Func
  | .mk row body => ⟨[row], body⟩

/-- A function of two rows as a function. -/
def PairFunc.toFunc : PairFunc → Func
  | .mk left right body => ⟨[left, right], body⟩

namespace Func

/-- Number of parameters. -/
def arity (f : Func) : Nat :=
  f.params.length

/-- The member a function selects, when its body is exactly a member of
    its own first parameter. -/
def memberName? (f : Func) : Option String :=
  match f.params, f.body with
  | first :: _, .field (.param p) name =>
      if p = first then some name else none
  | _, _ => none

end Func

/-! ## Forms of expression -/

namespace Expr

/-- The form of an expression, as far as messages tell them apart. -/
inductive Form where
  | parameter | literal | member | comparison | arithmetic | boolean
  | array | object | call | subquery
  deriving DecidableEq, Repr

/-- The outermost form. -/
def form : Expr → Form
  | .param _ => .parameter
  | .literal _ => .literal
  | .field _ _ => .member
  | .compare _ _ _ => .comparison
  | .arith _ _ _ => .arithmetic
  | .all _ => .boolean
  | .any _ => .boolean
  | .not _ => .boolean
  | .array _ => .array
  | .object _ => .object
  | .call _ _ => .call
  | .subquery _ _ => .subquery

/-- A form in words. -/
def Form.label : Form → String
  | .parameter => "a bare parameter"
  | .literal => "a literal"
  | .member => "a nested member access"
  | .comparison => "a comparison"
  | .arithmetic => "arithmetic"
  | .boolean => "a boolean combination"
  | .array => "an array"
  | .object => "an object"
  | .call => "a function call"
  | .subquery => "a subquery"

end Expr

end ChainQuery
