import ChainQuery.Walk

/-! # Generation — from chains to terms

    Every part of a chain is a walk to its term: sources before operands,
    operands left to right, the node itself last.  A query node is
    reported when it is built; the terms of expressions, sort keys and
    reduction objects are not.

    The converter is a parameter of every walk and never changes.  The
    recursion is structural on the chain, and the support check of a
    literal empties a stack of fewer nodes with every turn, so generation
    always ends. -/

namespace ChainQuery

open Walk

/-! ## Literals -/

/-- Ask whether a kind is supported, and end if it is not. -/
def Converter.requireKind (c : Converter) (kind : Value.Kind) :
    Walk Unit := do
  write (.asked (.supports kind))
  if c.supports kind then return ()
  else fail (.convert (.unsupported kind))

namespace Value

/-- Put what a value contains on top of a stack.  The last part goes on
    first, so that the parts come off in document order: items as they are
    listed, and of an entry the key before the item. -/
def push (v : Value) (pending : List Value) : List Value :=
  match v with
  | .list items => items.foldr (fun item rest => item :: rest) pending
  | .map entries =>
      entries.foldr (fun (key, item) rest => key :: item :: rest) pending
  | _ => pending

theorem nodeCounts_pushItems (items pending : List Value) :
    nodeCounts (items.foldr (fun item rest => item :: rest) pending)
      = nodeCounts items + nodeCounts pending := by
  induction items with
  | nil => exact (Nat.zero_add _).symm
  | cons v vs ih =>
      rw [List.foldr_cons, nodeCounts, ih, nodeCounts, Nat.add_assoc]

theorem nodeCounts_pushEntries (entries : List (Value × Value))
    (pending : List Value) :
    nodeCounts
        (entries.foldr (fun (key, item) rest => key :: item :: rest) pending)
      = entryCounts entries + nodeCounts pending := by
  induction entries with
  | nil => exact (Nat.zero_add _).symm
  | cons e rest ih =>
      rw [List.foldr_cons, nodeCounts, nodeCounts, ih, entryCounts,
        Nat.add_assoc, Nat.add_assoc]

/-- With its parts in its place, a value leaves one node less. -/
theorem nodeCounts_push (v : Value) (pending : List Value) :
    nodeCounts (v :: pending) = nodeCounts (v.push pending) + 1 := by
  cases v with
  | list items =>
      rw [push, nodeCounts_pushItems, nodeCounts, nodeCount]
      omega
  | map entries =>
      rw [push, nodeCounts_pushEntries, nodeCounts, nodeCount]
      omega
  | _ => exact Nat.add_comm 1 _

end Value

/-- Require the kind of every value on a stack and of everything in it.
    Each turn takes a value off, asks about its kind, and puts its parts
    on; what shrinks is the number of nodes on the stack, not its height. -/
@[semireducible]
def Converter.requirePending (c : Converter) (pending : List Value) :
    Walk Unit :=
  match pending with
  | [] => return ()
  | v :: pending => do
      c.requireKind v.kind
      Converter.requirePending c (v.push pending)
termination_by Value.nodeCounts pending
decreasing_by
  rw [Value.nodeCounts_push]
  exact Nat.lt_succ_self _

/-- The leaf of a literal.  The converter is asked to convert only once
    every kind in the value is known to be supported. -/
def Converter.literal (c : Converter) (v : Value) : Walk Term := do
  c.requirePending [v]
  write (.asked (.convert v.kind))
  match c.convert v with
  | .ok d => return .datum d
  | .error e => fail (.convert e)

/-- The leaves of literals, in order. -/
def Converter.literals (c : Converter) : List Value → Walk (List Term)
  | [] => return []
  | v :: vs => do
      let t ← c.literal v
      let ts ← Converter.literals c vs
      return t :: ts

/-- The leaf of a literal that may be absent. -/
def Converter.optionalLiteral (c : Converter) :
    Option Value → Walk (Option Term)
  | none => return none
  | some v => do
      let t ← c.literal v
      return some t

/-! ## Terms of fixed form -/

namespace Term

/-- The leaf of a variable number. -/
def number (n : Nat) : Term :=
  .datum (.ofNat n)

/-- A reference to a variable. -/
def variableRef (id : Nat) : Term :=
  .node .var [.number id]

/-- A function: the numbers of its variables and its body. -/
def function (ids : List Nat) (body : Term) : Term :=
  .node .func [.node .makeArray (ids.map .number), body]

/-- Set a flag, or leave it out. -/
def withFlag (t : Term) (name : String) (on : Bool) : Term :=
  if on then t.withOptarg name .flag else t

/-- Attach a string, when there is one. -/
def withText (t : Term) (name : String) (s : Option String) : Term :=
  t.withOptional name (s.map .text)

end Term

/-- The kind of a comparison. -/
def CompareOp.kind : CompareOp → Term.Kind
  | .eq => .eq
  | .ne => .ne
  | .lt => .lt
  | .le => .le
  | .gt => .gt
  | .ge => .ge

/-- The kind of an arithmetic operation. -/
def ArithOp.kind : ArithOp → Term.Kind
  | .add => .add
  | .sub => .sub
  | .mul => .mul
  | .div => .div
  | .mod => .mod

/-- The kind of a sort key. -/
def Direction.kind : Direction → Term.Kind
  | .asc => .asc
  | .desc => .desc

/-! ## Functions of the remote engine -/

/-- A function the engine knows: what it becomes, and how many arguments
    it takes, the receiver included. -/
structure RemoteCall where
  name : String
  kind : Term.Kind
  arity : Nat

/-- The functions expressions may call. -/
def RemoteCall.all : List RemoteCall :=
  [⟨"append", .append, 2⟩,
   ⟨"coerce_to", .coerceTo, 2⟩,
   ⟨"contains", .contains, 2⟩,
   ⟨"count", .count, 1⟩,
   ⟨"default", .default, 2⟩,
   ⟨"downcase", .downcase, 1⟩,
   ⟨"has_fields", .hasFields, 2⟩,
   ⟨"keys", .keys, 1⟩,
   ⟨"match", .matchText, 2⟩,
   ⟨"now", .now, 0⟩,
   ⟨"type_of", .typeOf, 1⟩,
   ⟨"upcase", .upcase, 1⟩]

/-- The function of a given name. -/
def RemoteCall.find? (name : String) : Option RemoteCall :=
  RemoteCall.all.find? (·.name == name)

/-- The kind a call becomes, checked by name first and then by number of
    arguments. -/
def RemoteCall.check (name : String) (given : Nat) : Walk Term.Kind :=
  match RemoteCall.find? name with
  | none => unsupported (.unknownCall name)
  | some call =>
      if call.arity = given then return call.kind
      else unsupported (.wrongArity name given call.arity)

/-! ## Selectors -/

/-- The member a selector names, as a leaf.  A selector is not walked:
    it must read one member of its own row. -/
def RowFunc.member (use : SelectorUse) (f : RowFunc) : Walk Term :=
  match f.toFunc.memberName? with
  | some name => return .text name
  | none => notMember use f.toFunc.body.form

/-- The reduction object of a group: one entry named for what is
    computed. -/
def Reduction.walk : Reduction → Walk Term
  | .count => return (Term.node .makeObj []).withOptarg "COUNT" .flag
  | .sum f => do
      let name ← f.member .sum
      return (Term.node .makeObj []).withOptarg "SUM" name
  | .average f => do
      let name ← f.member .average
      return (Term.node .makeObj []).withOptarg "AVG" name

/-! ## Roots -/

/-- A table reference, its database first when it names one. -/
def Table.walk (t : Table) : Walk Term := do
  let db ← match t.db with
    | none => pure []
    | some name => do
        let db ← node .db [.text name]
        pure [db]
  let table ← node .table (db ++ [.text t.name])
  return table.withFlag "use_outdated" t.useOutdated

/-- The node of a database reference. -/
def databaseWalk (name : String) : Walk Term :=
  node .db [.text name]

/-- The term of a root.  A single literal is a bare leaf; every other
    root is a node. -/
def Root.walk (c : Converter) : Root → Walk Term
  | .db name => databaseWalk name
  | .table t => t.walk
  | .dbCreate name => node .dbCreate [.text name]
  | .dbDrop name => node .dbDrop [.text name]
  | .dbList => node .dbList []
  | .tableCreate dbName name => do
      let parent ← databaseWalk dbName
      node .tableCreate [parent, .text name]
  | .tableDrop dbName name => do
      let parent ← databaseWalk dbName
      node .tableDrop [parent, .text name]
  | .tableList dbName => do
      let parent ← databaseWalk dbName
      node .tableList [parent]
  | .indexCreate t name => do
      let parent ← t.walk
      node .indexCreate [parent, .text name]
  | .indexDrop t name => do
      let parent ← t.walk
      node .indexDrop [parent, .text name]
  | .indexList t => do
      let parent ← t.walk
      node .indexList [parent]
  | .literal v => c.literal v
  | .literalSeq vs => do
      let items ← c.literals vs
      node .makeArray items
  | .now => node .now []
  | .insert t v upsert => do
      let parent ← t.walk
      let value ← c.literal v
      let term ← node .insert [parent, value]
      return term.withFlag "upsert" upsert

/-! ## Steps without functions -/

namespace Step

/-- The kind of node a step makes. -/
def kind : Step → Term.Kind
  | .get _ _ => .get
  | .getAll _ _ => .getAll
  | .between _ _ _ _ _ => .between
  | .skip _ => .skip
  | .limit _ => .limit
  | .slice _ _ => .slice
  | .nth _ => .nth
  | .distinct => .distinct
  | .count => .count
  | .zip => .zip
  | .replace _ _ => .replace
  | .replaceAndReturn _ _ => .replace
  | .delete => .delete
  | .deleteAndReturn => .delete

/-- The literals a step carries, in the order they are converted. -/
def literals : Step → List Value
  | .get key _ => [key.toValue]
  | .getAll key _ => [key]
  | .between left right _ _ _ => [left, right]
  | .skip n => [.int n]
  | .limit n => [.int n]
  | .slice start none => [.int start]
  | .slice start (some stop) => [.int start, .int stop]
  | .nth n => [.int n]
  | .replace v _ => [v]
  | .replaceAndReturn v _ => [v]
  | .distinct => []
  | .count => []
  | .zip => []
  | .delete => []
  | .deleteAndReturn => []

/-- Attach the names and flags of a step.  Both bounds of a range are
    always written, so the engine never applies one of its own. -/
def attach : Step → Term → Term
  | .get _ keyMember, t => t.withText "attribute" keyMember
  | .getAll _ index, t => t.withText "index" index
  | .between _ _ index left right, t =>
      ((t.withText "index" index).withOptarg "left_bound"
        (.text left.word)).withOptarg "right_bound" (.text right.word)
  | .replace _ nonAtomic, t => t.withFlag "non_atomic" nonAtomic
  | .replaceAndReturn _ nonAtomic, t =>
      (t.withFlag "non_atomic" nonAtomic).withOptarg "return_vals" .flag
  | .deleteAndReturn, t => t.withOptarg "return_vals" .flag
  | .skip _, t => t
  | .limit _, t => t
  | .slice _ _, t => t
  | .nth _, t => t
  | .distinct, t => t
  | .count, t => t
  | .zip, t => t
  | .delete, t => t

end Step

namespace RowStep

/-- The kind of node a step makes. -/
def kind : RowStep → Term.Kind
  | .filter => .filter
  | .map => .map
  | .concatMap => .concatMap
  | .update _ => .update
  | .updateAndReturn _ => .update

/-- Attach the flags of a step. -/
def attach : RowStep → Term → Term
  | .update nonAtomic, t => t.withFlag "non_atomic" nonAtomic
  | .updateAndReturn nonAtomic, t =>
      (t.withFlag "non_atomic" nonAtomic).withOptarg "return_vals" .flag
  | .filter, t => t
  | .map, t => t
  | .concatMap, t => t

end RowStep

/-- The kind of node a join makes. -/
def JoinKind.kind : JoinKind → Term.Kind
  | .inner => .innerJoin
  | .outer => .outerJoin

/-! ## Expressions, functions and queries -/

/-- The term of a function, given the walk of its body. -/
def functionWalk (params : List Param) (body : Walk Term) :
    Walk Term := do
  let (ids, body) ← withParams params body
  return .function ids body

/-- A name as a leaf, or another walk where there is none. -/
def nameOr (name : Option String) (otherwise : Walk Term) : Walk Term :=
  match name with
  | some name => return .text name
  | none => otherwise

mutual

/-- The term of an expression, in the scope of the functions around
    it. -/
def Expr.walk (c : Converter) : Expr → Walk Term
  | .param p => do
      let id ← variableOf p
      return .variableRef id
  | .literal v => c.literal v
  | .field target name => do
      let target ← Expr.walk c target
      return .node .getField [target, .text name]
  | .compare op left right => do
      let left ← Expr.walk c left
      let right ← Expr.walk c right
      return .node op.kind [left, right]
  | .arith op left right => do
      let left ← Expr.walk c left
      let right ← Expr.walk c right
      return .node op.kind [left, right]
  | .all items => do
      let items ← walkItems c items
      return .node .and items
  | .any items => do
      let items ← walkItems c items
      return .node .or items
  | .not e => do
      let e ← Expr.walk c e
      return .node .not [e]
  | .array items => do
      let items ← walkItems c items
      return .node .makeArray items
  | .object members => do
      let members ← walkMembers c members []
      return .apply .makeObj [] members
  | .call name args => do
      let kind ← RemoteCall.check name args.length
      let args ← walkItems c args
      return .node kind args
  | .subquery _ q => Query.walk c q
termination_by structural e => e

/-- The terms of expressions, in order. -/
def walkItems (c : Converter) : List Expr → Walk (List Term)
  | [] => return []
  | e :: es => do
      let t ← Expr.walk c e
      let ts ← walkItems c es
      return t :: ts
termination_by structural es => es

/-- The terms of object members, in order, on top of those already
    `done`.  A name that occurred before is noticed after its member has
    been walked. -/
def walkMembers (c : Converter) :
    List (String × Expr) → List (String × Term) →
      Walk (List (String × Term))
  | [], done => return done
  | (name, e) :: rest, done => do
      let t ← Expr.walk c e
      if Entries.has name done then unsupported (.duplicateMember name)
      else walkMembers c rest (Entries.put name t done)
termination_by structural members => members

/-- The term of a function of one row. -/
def RowFunc.walk (c : Converter) : RowFunc → Walk Term
  | .mk row body => functionWalk [row] (Expr.walk c body)
termination_by structural f => f

/-- The term of a function of two rows. -/
def PairFunc.walk (c : Converter) : PairFunc → Walk Term
  | .mk left right body => functionWalk [left, right] (Expr.walk c body)
termination_by structural f => f

/-- The term of a sort key: a member goes by name, anything else as a
    function. -/
def SortKey.walk (c : Converter) : SortKey → Walk Term
  | .mk selector direction => do
      let key ← nameOr selector.toFunc.memberName?
        (RowFunc.walk c selector)
      return .node direction.kind [key]
termination_by structural k => k

/-- The terms of sort keys, in order. -/
def walkKeys (c : Converter) : List SortKey → Walk (List Term)
  | [] => return []
  | k :: ks => do
      let t ← SortKey.walk c k
      let ts ← walkKeys c ks
      return t :: ts
termination_by structural ks => ks

/-- The term of a query. -/
def Query.walk (c : Converter) : Query → Walk Term
  | .root r => r.walk c
  | .indexCreateWith t name key => do
      let table ← t.walk
      let key ← RowFunc.walk c key
      node .indexCreate [table, .text name, key]
  | .step source s => do
      let source ← Query.walk c source
      let literals ← c.literals s.literals
      let term ← node s.kind (source :: literals)
      return s.attach term
  | .rowStep source s f => do
      let source ← Query.walk c source
      let f ← RowFunc.walk c f
      let term ← node s.kind [source, f]
      return s.attach term
  | .orderBy source first others => do
      let source ← Query.walk c source
      let first ← SortKey.walk c first
      let others ← walkKeys c others
      node .orderBy (source :: first :: others)
  | .union first second => do
      let first ← Query.walk c first
      let second ← Query.walk c second
      node .union [first, second]
  | .reduce source f base => do
      let source ← Query.walk c source
      let f ← PairFunc.walk c f
      let base ← c.optionalLiteral base
      let term ← node .reduce [source, f]
      return term.withOptional "base" base
  | .groupBy source reduction key => do
      let source ← Query.walk c source
      let key ← RowFunc.walk c key
      let reduction ← reduction.walk
      node .groupBy [source, key, reduction]
  | .groupedMapReduce source grouping mapping reduction base => do
      let source ← Query.walk c source
      let grouping ← RowFunc.walk c grouping
      let mapping ← RowFunc.walk c mapping
      let reduction ← PairFunc.walk c reduction
      let base ← c.optionalLiteral base
      let term ← node .groupedMapReduce
        [source, grouping, mapping, reduction]
      return term.withOptional "base" base
  | .join kind left right predicate => do
      let left ← Query.walk c left
      let right ← Query.walk c right
      let predicate ← PairFunc.walk c predicate
      node kind.kind [left, right, predicate]
  | .eqJoin left member right index => do
      let left ← Query.walk c left
      let member ← member.member .eqJoin
      let right ← Query.walk c right
      let term ← node .eqJoin [left, member, right]
      return term.withText "index" index
termination_by structural q => q

end

/-- The term of a function of any number of parameters. -/
def Func.walk (c : Converter) (f : Func) : Walk Term :=
  functionWalk f.params (f.body.walk c)

/-! ## Whole queries -/

/-- Generate the term of a query in a walk of its own, and report how it
    ended. -/
def Query.generate (c : Converter) (q : Query) : Outcome Term :=
  let o := q.walk c .fresh
  let ending : Event :=
    match o.result with
    | .ok t => .generated t.kind t.nodeCount
    | .error e => .failed e
  ⟨o.result, o.context, o.notes ++ [.reported ending]⟩

end ChainQuery
