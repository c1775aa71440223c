import ChainQuery.Draft

/-! # Capture — numbering parameters and checking shapes

    Capturing a draft makes the parameters of its functions, first to
    last, and then reads their bodies with the names bound; inner names
    hide outer ones.  A name that no enclosing function binds means the
    parameter made most recently under it, wherever that was.  Each step
    is checked against the chain before it before its operands are read.

    Parameters once made stay made: a failed capture has still used up
    their numbers. -/

namespace ChainQuery.Draft

/-! ## The capturing state -/

/-- Why a draft cannot be captured. -/
inductive Refusal where
  /-- The chain so far does not offer the step of this word. -/
  | shape (word : String)
  /-- Nothing is known under this name. -/
  | missing (name : String)
  deriving DecidableEq, Repr

/-- The error in words. -/
def Refusal.message : Refusal → String
  | .shape word => s!"unsupported operation for this query shape: {word}"
  | .missing name => name

/-- What has been stored under names, the latest first. -/
structure Shelf where
  exprs : List (String × ChainQuery.Expr)
  funcs : List (String × ChainQuery.Func)
  queries : List (String × ChainQuery.Query)

/-- A shelf with nothing on it. -/
def Shelf.empty : Shelf := ⟨[], [], []⟩

/-- What surrounds a piece of a draft: the names bound by the functions
    around it, innermost first, and the stored things. -/
structure Surroundings where
  bound : List (String × Param)
  shelf : Shelf

/-- What capturing uses up: parameter numbers and identities of embedded
    queries, together with the named parameters made so far, the latest
    first. -/
structure Supply where
  nextParam : Nat
  nextIdentity : Nat
  made : List (String × Param)
  deriving Repr

/-- Parameters are numbered from one. -/
def Supply.fresh : Supply := ⟨1, 1, []⟩

/-- A step of capturing.  The supply comes back also on failure. -/
def Capture (α : Type) : Type :=
  Surroundings → Supply → Except Refusal α × Supply

namespace Capture

variable {α β : Type}

/-- Give a result and use nothing. -/
def done (a : α) : Capture α :=
  fun _ supply => (.ok a, supply)

/-- One step after another; a failure ends the sequence. -/
def andThen (x : Capture α) (f : α → Capture β) : Capture β :=
  fun around supply =>
    match x around supply with
    | (.ok a, rest) => f a around rest
    | (.error e, rest) => (.error e, rest)

instance : Monad Capture where
  pure := done
  bind := andThen

/-- End with an error. -/
def fail (e : Refusal) : Capture α :=
  fun _ supply => (.error e, supply)

/-- The result of writing a step, if the chain offers it. -/
def offered (word : String) : Option α → Capture α
  | some a => done a
  | none => fail (.shape word)

/-- Go on only if the chain offers the step. -/
def require (word : String) (ok : Bool) : Capture Unit :=
  if ok then done () else fail (.shape word)

/-- Make a parameter without a name. -/
def makeUnnamed : Capture Param := fun _ supply =>
  (.ok ⟨supply.nextParam⟩,
   { supply with nextParam := supply.nextParam + 1 })

/-- Make a parameter under a name. -/
def make (name : String) : Capture Param := fun _ supply =>
  (.ok ⟨supply.nextParam⟩,
   { supply with
     nextParam := supply.nextParam + 1,
     made := (name, ⟨supply.nextParam⟩) :: supply.made })

/-- Make parameters under names, first to last. -/
def makeAll : List String → Capture (List Param)
  | [] => return []
  | name :: names => do
      let p ← make name
      let ps ← makeAll names
      return p :: ps

/-- A step that makes parameters under names also when it fails: those of
    the functions after it, whose bodies are then not read. -/
def makingOnFailure (names : List String) (x : Capture α) : Capture α :=
  fun around supply =>
    match x around supply with
    | (.ok a, rest) => (.ok a, rest)
    | (.error e, rest) => (.error e, (makeAll names around rest).2)

/-- An identity for an embedded query. -/
def makeIdentity : Capture Nat := fun _ supply =>
  (.ok supply.nextIdentity,
   { supply with nextIdentity := supply.nextIdentity + 1 })

/-- The parameter a name means: bound by an enclosing function, or else
    the one made most recently under it. -/
def resolve (name : String) : Capture Param := fun around supply =>
  match around.bound.lookup name with
  | some p => (.ok p, supply)
  | none =>
      match supply.made.lookup name with
      | some p => (.ok p, supply)
      | none => (.error (.missing name), supply)

/-- The parameters names mean, in order. -/
def resolveAll : List String → Capture (List Param)
  | [] => return []
  | name :: names => do
      let p ← resolve name
      let ps ← resolveAll names
      return p :: ps

/-- Read something with names bound to parameters, a later name hiding an
    earlier. -/
def binding (names : List String) (params : List Param)
    (body : Capture α) : Capture α := fun around supply =>
  body { around with bound := (names.zip params).reverse ++ around.bound }
    supply

/-- Look a name up among stored things. -/
def storedIn (things : Shelf → List (String × α)) (name : String) :
    Capture α := fun around supply =>
  match (things around.shelf).lookup name with
  | some a => (.ok a, supply)
  | none => (.error (.missing name), supply)

end Capture

open Capture

/-! ## Reading drafts -/

/-- The chain a draft starts from. -/
def Start.capture : Start → Capture ChainQuery.Query
  | .root r => return .root r
  | .stored name => storedIn (·.queries) name

mutual

/-- Capture an expression. -/
def Expr.capture : Draft.Expr → Capture ChainQuery.Expr
  | .named name => do
      let p ← resolve name
      return .param p
  | .fresh => do
      let p ← makeUnnamed
      return .param p
  | .stored name => storedIn (·.exprs) name
  | .literal v => return .literal v
  | .field target name => do
      let target ← Expr.capture target
      return .field target name
  | .compare op left right => do
      let left ← Expr.capture left
      let right ← Expr.capture right
      return .compare op left right
  | .arith op left right => do
      let left ← Expr.capture left
      let right ← Expr.capture right
      return .arith op left right
  | .all items => do
      let items ← captureItems items
      return .all items
  | .any items => do
      let items ← captureItems items
      return .any items
  | .not e => do
      let e ← Expr.capture e
      return .not e
  | .array items => do
      let items ← captureItems items
      return .array items
  | .object members => do
      let members ← captureMembers members
      return .object members
  | .call name args => do
      let args ← captureItems args
      return .call name args
  | .subquery q => do
      let q ← Query.capture q
      let identity ← makeIdentity
      return .subquery identity q
termination_by structural e => e

/-- Capture expressions in order. -/
def captureItems : List Draft.Expr → Capture (List ChainQuery.Expr)
  | [] => return []
  | e :: es => do
      let e ← Expr.capture e
      let es ← captureItems es
      return e :: es
termination_by structural es => es

/-- Capture object members in order. -/
def captureMembers :
    List (String × Draft.Expr) → Capture (List (String × ChainQuery.Expr))
  | [] => return []
  | (name, e) :: rest => do
      let e ← Expr.capture e
      let rest ← captureMembers rest
      return (name, e) :: rest
termination_by structural members => members

/-- Capture a function of one row: its parameter first, then its body. -/
def RowFunc.capture : Draft.RowFunc → Capture ChainQuery.RowFunc
  | .mk row body => do
      let p ← make row
      let body ← binding [row] [p] (Expr.capture body)
      return .mk p body
termination_by structural f => f

/-- Capture a function of two rows: its parameters first, then its
    body. -/
def PairFunc.capture : Draft.PairFunc → Capture ChainQuery.PairFunc
  | .mk left right body => do
      let l ← make left
      let r ← make right
      let body ← binding [left, right] [l, r] (Expr.capture body)
      return .mk l r body
termination_by structural f => f

/-- Capture a reduction. -/
def Reduction.capture : Draft.Reduction → Capture ChainQuery.Reduction
  | .count => return .count
  | .sum f => do
      let f ← RowFunc.capture f
      return .sum f
  | .average f => do
      let f ← RowFunc.capture f
      return .average f
termination_by structural r => r

/-- Write an action after a chain: the chain is checked first, another
    query of the step is read and checked next, functions come last.  Of
    three functions the later ones make their parameters whatever becomes
    of the earlier. -/
def Action.capture (word : String) :
    Action → ChainQuery.Query → Capture ChainQuery.Query
  | .onDatabase s, q => offered word (q.inDatabase? s.root)
  | .onTable s, q => offered word (q.onTable? s.root)
  | .modify m, q => offered word (q.modify? m)
  | .plain s, q => offered word (q.andThen? s)
  | .indexCreateWith name key, q => do
      let t ← offered word q.asTable?
      let key ← RowFunc.capture key
      return .indexCreateWith t name key
  | .rowStep s f, q => do
      require word (s.accepts q.shape)
      let f ← RowFunc.capture f
      return .rowStep q s f
  | .orderBy key direction, q => do
      require word q.shape.isSequence
      let key ← RowFunc.capture key
      return .orderBy q (.mk key direction) []
  | .thenBy key direction, q => do
      require word q.isOrdered
      let key ← RowFunc.capture key
      offered word (q.thenBy? (.mk key direction))
  | .union other, q => do
      require word q.shape.isSequence
      let other ← Query.capture other
      require word (other.shape == q.shape)
      return .union q other
  | .reduce f, q => do
      require word q.shape.isSequence
      let f ← PairFunc.capture f
      return .reduce q f none
  | .groupBy reduction key, q => do
      require word q.shape.isSequence
      let reduction ← Reduction.capture reduction
      let key ← RowFunc.capture key
      return .groupBy q reduction key
  | .groupedMapReduce grouping mapping reduction, q => do
      require word q.shape.isSequence
      let grouping ← makingOnFailure (mapping.names ++ reduction.names)
        (RowFunc.capture grouping)
      let mapping ← makingOnFailure reduction.names
        (RowFunc.capture mapping)
      let reduction ← PairFunc.capture reduction
      return .groupedMapReduce q grouping mapping reduction none
  | .join kind other predicate, q => do
      require word q.shape.isSequence
      let other ← Query.capture other
      require word other.shape.isSequence
      let predicate ← PairFunc.capture predicate
      return .join kind q other predicate
  | .eqJoin member other, q => do
      require word q.shape.isSequence
      let other ← Query.capture other
      require word other.shape.isSequence
      let member ← RowFunc.capture member
      return .eqJoin q member other none
termination_by structural a => a

/-- Write a step after a chain. -/
def Written.capture :
    Written → ChainQuery.Query → Capture ChainQuery.Query
  | .mk word action, q => Action.capture word action q
termination_by structural w => w

/-- Write steps after a chain, first to last. -/
def captureSteps :
    List Written → ChainQuery.Query → Capture ChainQuery.Query
  | [], q => return q
  | s :: rest, q => do
      let q ← Written.capture s q
      captureSteps rest q
termination_by structural steps => steps

/-- Capture a chain. -/
def Query.capture : Draft.Query → Capture ChainQuery.Query
  | .mk start steps => do
      let q ← start.capture
      captureSteps steps q
termination_by structural q => q

end

/-- Capture a function of any number of parameters. -/
def Func.capture : Draft.Func → Capture ChainQuery.Func
  | .closure names body => do
      let params ← makeAll names
      let body ← binding names params body.capture
      return ⟨params, body⟩
  | .member name => do
      let p ← makeUnnamed
      return ⟨[p], .field (.param p) name⟩
  | .over names body => do
      let params ← resolveAll names
      let body ← body.capture
      return ⟨params, body⟩
  | .stored name => storedIn (·.funcs) name

end ChainQuery.Draft
