import ChainQuery.Generate
import ChainQuery.Query.Order

/-! # Translation — generation by environment

    A second account of generation.  A walk keeps the parameters in scope
    in its context, entering and leaving functions as it goes; a
    translation is handed an environment that says what each parameter
    stands for, never changes it, and passes a larger one to the bodies
    of functions.  All that is threaded from part to part is the next
    variable number.

    Parts that neither hand out numbers nor meet parameters (literals,
    roots, selectors) are plain results here.  Nothing is recorded. -/

namespace ChainQuery

/-! ## Environments -/

/-- The variable each parameter stands for, if any. -/
abbrev Environment := Param → Option Nat

/-- Where a parameter stands last in a list. -/
def lastPosition? (p : Param) : List Param → Option Nat
  | [] => none
  | q :: qs =>
      match lastPosition? p qs with
      | some i => some (i + 1)
      | none => if q = p then some 0 else none

/-- The environment inside a function whose variables are numbered from
    `first` on.  Its own parameters hide those around it, and of one
    declared twice the last position counts. -/
def Environment.declare (env : Environment) (params : List Param)
    (first : Nat) : Environment := fun p =>
  match lastPosition? p params with
  | some i => some (first + i)
  | none => env p

/-! ## Translations -/

/-- A translation takes the next variable number and gives a result and
    the number after the last one used; that number comes back with an
    error too. -/
def Translation (α : Type) : Type :=
  Nat → Except TermError α × Nat

namespace Translation

variable {α β : Type}

/-- Give a result and use no number. -/
def done (a : α) : Translation α :=
  fun n => (.ok a, n)

/-- One translation after another; an error ends the sequence. -/
def andThen (x : Translation α) (f : α → Translation β) :
    Translation β := fun n =>
  match x n with
  | (.ok a, m) => f a m
  | (.error e, m) => (.error e, m)

instance : Monad Translation where
  pure := done
  bind := andThen

/-- Lift a result that uses no number. -/
def ofExcept (r : Except TermError α) : Translation α :=
  fun n => (r, n)

/-- End with an error. -/
def fail (e : TermError) : Translation α :=
  ofExcept (.error e)

/-- Use up `count` numbers and give the first. -/
def take (count : Nat) : Translation Nat :=
  fun n => (.ok n, n + count)

end Translation

/-! ## Literals -/

mutual

/-- The kinds of a value and of everything in it, each before what it
    contains: a list before its items, a map before its entries, a key
    before its item. -/
def Value.kinds (v : Value) : List Value.Kind :=
  v.kind ::
    match v with
    | .list items => kindsOfItems items
    | .map entries => kindsOfEntries entries
    | _ => []
termination_by structural v

/-- The kinds in items, in order. -/
def Value.kindsOfItems (items : List Value) : List Value.Kind :=
  match items with
  | [] => []
  | v :: vs => Value.kinds v ++ Value.kindsOfItems vs
termination_by structural items

/-- The kinds in entries, in order. -/
def Value.kindsOfEntries (entries : List (Value × Value)) :
    List Value.Kind :=
  match entries with
  | [] => []
  | (key, item) :: rest =>
      Value.kinds key ++ Value.kinds item ++ Value.kindsOfEntries rest
termination_by structural entries

end

namespace Value

theorem kindsOfItems_pushItems (items pending : List Value) :
    kindsOfItems (items.foldr (fun item rest => item :: rest) pending)
      = kindsOfItems items ++ kindsOfItems pending := by
  induction items with
  | nil => rfl
  | cons v vs ih =>
      rw [List.foldr_cons, kindsOfItems, ih, kindsOfItems,
        List.append_assoc]

theorem kindsOfItems_pushEntries (entries : List (Value × Value))
    (pending : List Value) :
    kindsOfItems
        (entries.foldr (fun (key, item) rest => key :: item :: rest) pending)
      = kindsOfEntries entries ++ kindsOfItems pending := by
  induction entries with
  | nil => rfl
  | cons e rest ih =>
      rw [List.foldr_cons, kindsOfItems, kindsOfItems, ih, kindsOfEntries,
        List.append_assoc, List.append_assoc]

/-- The kinds on a stack, of which one turn of the support check asks about
    the first and leaves the others in order. -/
theorem kindsOfItems_push (v : Value) (pending : List Value) :
    kindsOfItems (v :: pending)
      = v.kind :: kindsOfItems (v.push pending) := by
  rw [kindsOfItems, kinds.eq_def, List.cons_append]
  refine congrArg (v.kind :: ·) ?_
  cases v with
  | list items => exact (kindsOfItems_pushItems items pending).symm
  | map entries => exact (kindsOfItems_pushEntries entries pending).symm
  | _ => rfl

/-- The kinds of a value alone on a stack. -/
theorem kindsOfItems_one (v : Value) : kindsOfItems [v] = v.kinds :=
  List.append_nil v.kinds

end Value

namespace Converter

/-- Whether kinds are all supported; the first one that is not counts. -/
def allow (c : Converter) : List Value.Kind → Except TermError Unit
  | [] => .ok ()
  | kind :: rest =>
      if c.supports kind then allow c rest
      else .error (.convert (.unsupported kind))

/-- The leaf of a literal, or why there is none. -/
def judge (c : Converter) (v : Value) : Except TermError Term := do
  c.allow v.kinds
  match c.convert v with
  | .ok d => .ok (.datum d)
  | .error e => .error (.convert e)

/-- The leaves of literals, in order. -/
def judgeAll (c : Converter) : List Value → Except TermError (List Term)
  | [] => .ok []
  | v :: vs => do
      let t ← c.judge v
      let ts ← judgeAll c vs
      return t :: ts

/-- The leaf of a literal that may be absent. -/
def judgeOptional (c : Converter) :
    Option Value → Except TermError (Option Term)
  | none => .ok none
  | some v => do
      let t ← c.judge v
      return some t

end Converter

/-! ## Roots and selectors -/

/-- The term of a database reference. -/
def databaseTerm (name : String) : Term :=
  .node .db [.text name]

/-- The term of a table reference. -/
def Table.term (t : Table) : Term :=
  (Term.node .table
    ((t.db.map databaseTerm).toList ++ [.text t.name])).withFlag
      "use_outdated" t.useOutdated

/-- The term of a root. -/
def Root.judge (c : Converter) : Root → Except TermError Term
  | .db name => .ok (databaseTerm name)
  | .table t => .ok t.term
  | .dbCreate name => .ok (.node .dbCreate [.text name])
  | .dbDrop name => .ok (.node .dbDrop [.text name])
  | .dbList => .ok (.node .dbList [])
  | .tableCreate dbName name =>
      .ok (.node .tableCreate [databaseTerm dbName, .text name])
  | .tableDrop dbName name =>
      .ok (.node .tableDrop [databaseTerm dbName, .text name])
  | .tableList dbName => .ok (.node .tableList [databaseTerm dbName])
  | .indexCreate t name => .ok (.node .indexCreate [t.term, .text name])
  | .indexDrop t name => .ok (.node .indexDrop [t.term, .text name])
  | .indexList t => .ok (.node .indexList [t.term])
  | .literal v => c.judge v
  | .literalSeq vs => do
      let items ← c.judgeAll vs
      return .node .makeArray items
  | .now => .ok (.node .now [])
  | .insert t v upsert => do
      let value ← c.judge v
      return (Term.node .insert [t.term, value]).withFlag "upsert" upsert

/-- The member a selector names, as a leaf. -/
def RowFunc.judgeMember (use : SelectorUse) (f : RowFunc) :
    Except TermError Term :=
  match f.toFunc.memberName? with
  | some name => .ok (.text name)
  | none => .error (.unsupported (.notMember use f.toFunc.body.form))

/-- The reduction object of a group. -/
def Reduction.judge : Reduction → Except TermError Term
  | .count => .ok ((Term.node .makeObj []).withOptarg "COUNT" .flag)
  | .sum f => do
      let name ← f.judgeMember .sum
      return (Term.node .makeObj []).withOptarg "SUM" name
  | .average f => do
      let name ← f.judgeMember .average
      return (Term.node .makeObj []).withOptarg "AVG" name

/-- The kind a call becomes. -/
def RemoteCall.judge (name : String) (given : Nat) :
    Except TermError Term.Kind :=
  match RemoteCall.find? name with
  | none => .error (.unsupported (.unknownCall name))
  | some call =>
      if call.arity = given then .ok call.kind
      else .error (.unsupported (.wrongArity name given call.arity))

/-! ## Expressions, functions and queries -/

open Translation

/-- The term of a function, given the translation of its body in any
    environment. -/
def functionTranslate (params : List Param) (env : Environment)
    (body : Environment → Translation Term) : Translation Term := do
  let first ← take params.length
  let body ← body (env.declare params first)
  let numbers := (List.range' first params.length).map Term.number
  return .node .func [.node .makeArray numbers, body]

/-- The reference a parameter stands for: a node with its number. -/
def Environment.reference (env : Environment) (p : Param) :
    Translation Term :=
  match env p with
  | some id => return .node .var [.number id]
  | none => fail (.unsupported (.freeParam p))

/-- The term of a sort key in its direction. -/
def Direction.term : Direction → Term → Term
  | .asc, key => .node .asc [key]
  | .desc, key => .node .desc [key]

theorem node_direction (direction : Direction) (key : Term) :
    Term.node direction.kind [key] = direction.term key := by
  cases direction <;> rfl

/-- A name as a leaf, or another translation where there is none. -/
def nameOrTranslate (name : Option String) (otherwise : Translation Term) :
    Translation Term :=
  match name with
  | some name => return .text name
  | none => otherwise

mutual

/-- The term of an expression in an environment. -/
def Expr.translate (c : Converter) (env : Environment) :
    Expr → Translation Term
  | .param p => env.reference p
  | .literal v => ofExcept (c.judge v)
  | .field target name => do
      let target ← Expr.translate c env target
      return .node .getField [target, .text name]
  | .compare op left right => do
      let left ← Expr.translate c env left
      let right ← Expr.translate c env right
      return .node op.kind [left, right]
  | .arith op left right => do
      let left ← Expr.translate c env left
      let right ← Expr.translate c env right
      return .node op.kind [left, right]
  | .all items => do
      let items ← translateItems c env items
      return .node .and items
  | .any items => do
      let items ← translateItems c env items
      return .node .or items
  | .not e => do
      let e ← Expr.translate c env e
      return .node .not [e]
  | .array items => do
      let items ← translateItems c env items
      return .node .makeArray items
  | .object members => do
      let members ← translateMembers c env members []
      return .apply .makeObj [] members
  | .call name args => do
      let kind ← ofExcept (RemoteCall.judge name args.length)
      let args ← translateItems c env args
      return .node kind args
  | .subquery _ q => Query.translate c env q
termination_by structural e => e

/-- The terms of expressions, in order. -/
def translateItems (c : Converter) (env : Environment) :
    List Expr → Translation (List Term)
  | [] => return []
  | e :: es => do
      let t ← Expr.translate c env e
      let ts ← translateItems c env es
      return t :: ts
termination_by structural es => es

/-- The terms of object members, in order, on top of those `done`. -/
def translateMembers (c : Converter) (env : Environment) :
    List (String × Expr) → List (String × Term) →
      Translation (List (String × Term))
  | [], done => return done
  | (name, e) :: rest, done => do
      let t ← Expr.translate c env e
      if Entries.has name done then
        fail (.unsupported (.duplicateMember name))
      else translateMembers c env rest (Entries.put name t done)
termination_by structural members => members

/-- The term of a function of one row. -/
def RowFunc.translate (c : Converter) (env : Environment) :
    RowFunc → Translation Term
  | .mk row body =>
      functionTranslate [row] env fun inner => Expr.translate c inner body
termination_by structural f => f

/-- The term of a function of two rows. -/
def PairFunc.translate (c : Converter) (env : Environment) :
    PairFunc → Translation Term
  | .mk left right body =>
      functionTranslate [left, right] env fun inner =>
        Expr.translate c inner body
termination_by structural f => f

/-- The term of a sort key. -/
def SortKey.translate (c : Converter) (env : Environment) :
    SortKey → Translation Term
  | .mk selector direction => do
      let key ← nameOrTranslate selector.toFunc.memberName?
        (RowFunc.translate c env selector)
      return direction.term key
termination_by structural k => k

/-- The terms of sort keys, in order. -/
def translateKeys (c : Converter) (env : Environment) :
    List SortKey → Translation (List Term)
  | [] => return []
  | k :: ks => do
      let t ← SortKey.translate c env k
      let ts ← translateKeys c env ks
      return t :: ts
termination_by structural ks => ks

/-- The term of a query in an environment. -/
def Query.translate (c : Converter) (env : Environment) :
    Query → Translation Term
  | .root r => ofExcept (r.judge c)
  | .indexCreateWith t name key => do
      let key ← RowFunc.translate c env key
      return .node .indexCreate [t.term, .text name, key]
  | .step source s => do
      let source ← Query.translate c env source
      let literals ← ofExcept (c.judgeAll s.literals)
      return s.attach (.node s.kind (source :: literals))
  | .rowStep source s f => do
      let source ← Query.translate c env source
      let f ← RowFunc.translate c env f
      return s.attach (.node s.kind [source, f])
  | .orderBy source first others => do
      let source ← Query.translate c env source
      let first ← SortKey.translate c env first
      let others ← translateKeys c env others
      return .node .orderBy (source :: first :: others)
  | .union first second => do
      let first ← Query.translate c env first
      let second ← Query.translate c env second
      return .node .union [first, second]
  | .reduce source f base => do
      let source ← Query.translate c env source
      let f ← PairFunc.translate c env f
      let base ← ofExcept (c.judgeOptional base)
      return (Term.node .reduce [source, f]).withOptional "base" base
  | .groupBy source reduction key => do
      let source ← Query.translate c env source
      let key ← RowFunc.translate c env key
      let reduction ← ofExcept reduction.judge
      return .node .groupBy [source, key, reduction]
  | .groupedMapReduce source grouping mapping reduction base => do
      let source ← Query.translate c env source
      let grouping ← RowFunc.translate c env grouping
      let mapping ← RowFunc.translate c env mapping
      let reduction ← PairFunc.translate c env reduction
      let base ← ofExcept (c.judgeOptional base)
      return (Term.node .groupedMapReduce
        [source, grouping, mapping, reduction]).withOptional "base" base
  | .join kind left right predicate => do
      let left ← Query.translate c env left
      let right ← Query.translate c env right
      let predicate ← PairFunc.translate c env predicate
      return .node kind.kind [left, right, predicate]
  | .eqJoin left member right index => do
      let left ← Query.translate c env left
      let member ← ofExcept (member.judgeMember .eqJoin)
      let right ← Query.translate c env right
      return (Term.node .eqJoin [left, member, right]).withText "index"
        index
termination_by structural q => q

end

/-- In either direction a sort key is one node over what it reads. -/
theorem translate_key (c : Converter) (env : Environment)
    (selector : RowFunc) (direction : Direction) :
    (SortKey.mk selector direction).translate c env
      = nameOrTranslate selector.toFunc.memberName?
          (selector.translate c env) >>= fun key =>
            return .node direction.kind [key] := by
  simp only [node_direction]
  rfl

/-- The term of a function of any number of parameters. -/
def Func.translate (c : Converter) (env : Environment) (f : Func) :
    Translation Term :=
  functionTranslate f.params env fun inner => f.body.translate c inner

end ChainQuery
