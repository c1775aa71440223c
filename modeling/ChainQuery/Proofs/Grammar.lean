import ChainQuery.Proofs.Numbering

/-! # Grammar — what the engine reads

    For every kind of operation the engine fixes what its positional
    arguments may be, what it may be given by name, and what of that it
    always is given.  `documented` is the table as it is written down, with
    the operators and calls of expressions beside the operations on tables
    and sequences; `grammar` is the table the terms of chains keep to,
    which has one name more.  A term keeps to a table when each of its
    nodes does, at any depth (`Term.Obeys`). -/

namespace ChainQuery

open Term

/-! ## Slots -/

/-- What may stand in the place of an argument. -/
inductive Slot where
  /-- A term of one of some kinds. -/
  | of (kinds : List Kind)
  /-- A function of so many parameters. -/
  | func (count : Nat)
  /-- Any datum. -/
  | leaf
  | text
  | number
  /-- A flag, which is only given when it is set. -/
  | flag
  /-- One of some words. -/
  | word (words : List String)
  /-- A list of numbers. -/
  | numbers
  /-- What to compute for each group: a number of rows, or a sum or an
      average over a member. -/
  | reduction
  | either (a b : Slot)
  deriving DecidableEq

/-- The object of one entry. -/
def entryObject (name : String) (t : Term) : Term :=
  .apply .makeObj [] [(name, t)]

/-- The list of some numbers. -/
def numberList (xs : List Binary64) : Term :=
  .node .makeArray (xs.map fun x => .datum (.number x))

/-- A term may stand in a slot.  Only the top of the term is looked at; the
    nodes below are in slots of their own. -/
def Slot.Fits : Slot → Term → Prop
  | .of kinds, t => t.kind ∈ kinds
  | .func count, t =>
      ∃ xs body, xs.length = count ∧ t = .node .func [numberList xs, body]
  | .leaf, t => ∃ d, t = .datum d
  | .text, t => ∃ s, t = .text s
  | .number, t => ∃ x, t = .datum (.number x)
  | .flag, t => t = Term.flag
  | .word words, t => ∃ w ∈ words, t = .text w
  | .numbers, t => ∃ xs, t = numberList xs
  | .reduction, t =>
      t = entryObject "COUNT" Term.flag ∨
        ∃ s, t = entryObject "SUM" (.text s) ∨
          t = entryObject "AVG" (.text s)
  | .either a b, t => a.Fits t ∨ b.Fits t

/-- The kinds of values: all but functions and sort keys. -/
def valueKinds : List Kind :=
  Kind.all.filter fun kind => kind ≠ .func ∧ kind ≠ .asc ∧ kind ≠ .desc

/-- The kinds of terms that chains make. -/
def chainKinds : List Kind :=
  [.datum, .makeArray, .db, .table, .dbCreate, .dbDrop, .dbList,
   .tableCreate, .tableDrop, .tableList, .indexCreate, .indexDrop,
   .indexList, .now, .insert, .get, .getAll, .between, .skip, .limit,
   .slice, .nth, .distinct, .count, .zip, .replace, .delete, .filter,
   .map, .concatMap, .update, .orderBy, .union, .reduce, .groupBy,
   .groupedMapReduce, .innerJoin, .outerJoin, .eqJoin]

namespace Slot

/-- A value. -/
def value : Slot := .of valueKinds

/-- The term of a chain. -/
def chain : Slot := .of chainKinds

/-- A reference to a database. -/
def database : Slot := .of [.db]

/-- A reference to a table. -/
def table : Slot := .of [.table]

/-- A sort key. -/
def sortKey : Slot := .of [.asc, .desc]

/-- Whether a range end counts. -/
def bound : Slot := .word ["open", "closed"]

end Slot

/-! ## Productions -/

/-- What operations of one kind look like. -/
structure Production where
  /-- The forms the positional arguments have. -/
  forms : List (List Slot)
  /-- What may follow them, any number of times. -/
  more : Option Slot := none
  /-- What may be given by name. -/
  named : List (String × Slot) := []
  /-- What may be given by any other name. -/
  other : Option Slot := none
  /-- The names that are always given. -/
  always : List String := []
  deriving DecidableEq

namespace Production

/-- The slot for a name. -/
def slot? (p : Production) (name : String) : Option Slot :=
  (p.named.lookup name).or p.other

/-- Named arguments are such as a production has. -/
structure TakesNamed (p : Production) (named : List (String × Term)) :
    Prop where
  allowed : ∀ e ∈ named, ∃ slot ∈ p.slot? e.1, slot.Fits e.2
  always : ∀ name ∈ p.always, name ∈ named.map Prod.fst
  once : (named.map Prod.fst).Nodup

/-- Arguments are such as a production has. -/
structure Allows (p : Production) (args : List Term)
    (named : List (String × Term)) : Prop where
  positional : ∃ form ∈ p.forms, ∃ rest : List Slot,
    (∀ slot ∈ rest, slot ∈ p.more) ∧
      List.Forall₂ Slot.Fits (form ++ rest) args
  named : p.TakesNamed named

end Production

/-! ## The table -/

/-- The table as it is written down. -/
def documented : Kind → Production
  -- A leaf is no operation.
  | .datum => { forms := [] }
  | .makeArray => { forms := [[]], more := some .value }
  | .makeObj => { forms := [[]], other := some .value }
  | .func => { forms := [[.numbers, .value]] }
  | .var => { forms := [[.number]] }
  | .getField => { forms := [[.value, .text]] }
  | .eq | .ne | .lt | .le | .gt | .ge | .add | .sub | .mul | .div | .mod =>
      { forms := [[.value, .value]] }
  | .and | .or => { forms := [[]], more := some .value }
  | .not => { forms := [[.value]] }
  | .append | .coerceTo | .contains | .default | .hasFields | .matchText =>
      { forms := [[.value, .value]] }
  | .downcase | .keys | .typeOf | .upcase => { forms := [[.value]] }
  | .now => { forms := [[]] }
  | .db => { forms := [[.text]] }
  | .table => { forms := [[.text], [.database, .text]] }
  | .get =>
      { forms := [[.chain, .either .text .number]]
        named := [("attribute", .text)] }
  | .getAll =>
      { forms := [[.chain, .leaf]], named := [("index", .text)] }
  | .between =>
      { forms := [[.chain, .leaf, .leaf]]
        named := [("index", .text), ("left_bound", .bound),
          ("right_bound", .bound)]
        always := ["left_bound", "right_bound"] }
  | .filter | .map | .concatMap => { forms := [[.chain, .func 1]] }
  | .update =>
      { forms := [[.chain, .func 1]]
        named := [("non_atomic", .flag),
          ("return_vals", .flag)] }
  | .replace =>
      { forms := [[.chain, .leaf]]
        named := [("non_atomic", .flag),
          ("return_vals", .flag)] }
  | .delete =>
      { forms := [[.chain]], named := [("return_vals", .flag)] }
  | .insert =>
      { forms := [[.table, .leaf]], named := [("upsert", .flag)] }
  | .orderBy =>
      { forms := [[.chain, .sortKey]], more := some .sortKey }
  | .asc | .desc => { forms := [[.either .text (.func 1)]] }
  | .skip | .limit | .nth => { forms := [[.chain, .number]] }
  | .slice =>
      { forms := [[.chain, .number], [.chain, .number, .number]] }
  | .distinct | .zip => { forms := [[.chain]] }
  -- A call may count any value, a step only a chain.
  | .count => { forms := [[.value]] }
  | .union => { forms := [[.chain, .chain]] }
  | .innerJoin | .outerJoin => { forms := [[.chain, .chain, .func 2]] }
  | .eqJoin =>
      { forms := [[.chain, .text, .chain]]
        named := [("index", .text)] }
  | .reduce =>
      { forms := [[.chain, .func 2]], named := [("base", .leaf)] }
  | .groupedMapReduce =>
      { forms := [[.chain, .func 1, .func 1, .func 2]]
        named := [("base", .leaf)] }
  | .groupBy => { forms := [[.chain, .func 1, .reduction]] }
  | .dbCreate | .dbDrop => { forms := [[.text]] }
  | .dbList => { forms := [[]] }
  | .tableCreate | .tableDrop => { forms := [[.database, .text]] }
  | .tableList => { forms := [[.database]] }
  | .indexCreate =>
      { forms := [[.table, .text], [.table, .text, .func 1]] }
  | .indexDrop => { forms := [[.table, .text]] }
  | .indexList => { forms := [[.table]] }

/-- The table terms keep to: a table may also be marked as readable when
    outdated. -/
def grammar : Kind → Production
  | .table =>
      { documented .table with
        named := [("use_outdated", .flag)] }
  | kind => documented kind

/-! ## Terms of a table -/

mutual

/-- A term and all that is in it, at any depth. -/
def Term.nodes : Term → List Term
  | .datum d => [.datum d]
  | .apply kind args optargs =>
      .apply kind args optargs ::
        (nodesOfArgs args ++ nodesOfNamed optargs)
termination_by structural t => t

/-- All that is in arguments. -/
def nodesOfArgs : List Term → List Term
  | [] => []
  | t :: ts => Term.nodes t ++ nodesOfArgs ts
termination_by structural ts => ts

/-- All that is in named arguments. -/
def nodesOfNamed : List (String × Term) → List Term
  | [] => []
  | (_, t) :: rest => Term.nodes t ++ nodesOfNamed rest
termination_by structural es => es

end

/-- An operation has arguments of its kind; a leaf has none. -/
def Term.Allowed (g : Kind → Production) : Term → Prop
  | .datum _ => True
  | .apply kind args optargs => (g kind).Allows args optargs

/-- Every node keeps to a table. -/
def Term.Obeys (g : Kind → Production) (t : Term) : Prop :=
  ∀ s ∈ t.nodes, s.Allowed g

variable {g : Kind → Production} {s t : Term} {kind : Kind}
  {args : List Term} {optargs : List (String × Term)}

theorem mem_nodesOfArgs :
    s ∈ nodesOfArgs args ↔ ∃ t ∈ args, s ∈ t.nodes := by
  induction args with
  | nil => simp [nodesOfArgs]
  | cons t ts ih => simp [nodesOfArgs, ih]

theorem mem_nodesOfNamed :
    s ∈ nodesOfNamed optargs ↔ ∃ e ∈ optargs, s ∈ e.2.nodes := by
  induction optargs with
  | nil => simp [nodesOfNamed]
  | cons e rest ih => simp [nodesOfNamed, ih]

theorem obeys_leaf (d : Datum) : (Term.datum d).Obeys g := by
  intro s hs
  rw [List.mem_singleton.mp hs]
  exact trivial

theorem obeys_leaves (h : ∀ e ∈ optargs, ∃ d, e.2 = .datum d) :
    ∀ e ∈ optargs, e.2.Obeys g := by
  intro e he
  obtain ⟨d, hd⟩ := h e he
  rw [hd]
  exact obeys_leaf d

/-- A node keeps to a table when it does itself, and its arguments do. -/
theorem obeys_apply (h : (g kind).Allows args optargs)
    (hargs : ∀ t ∈ args, t.Obeys g) (hnamed : ∀ e ∈ optargs, e.2.Obeys g) :
    (Term.apply kind args optargs).Obeys g := by
  intro s hs
  rw [Term.nodes, List.mem_cons, List.mem_append, mem_nodesOfArgs,
    mem_nodesOfNamed] at hs
  rcases hs with rfl | ⟨t, ht, hs⟩ | ⟨e, he, hs⟩
  · exact h
  · exact hargs t ht s hs
  · exact hnamed e he s hs

end ChainQuery
