import ChainQuery.Proofs.Charts

/-! # Layouts — where functions and their parameters end up

    Three things in a chain can be followed into its term: the chains in
    it, its functions, and the uses of their parameters.  A layout tells of
    each where it ends up, of chains and functions also how many variables
    are numbered before, and of a use which function declares what it is a
    use of.  All this is read off the chain alone, in build order.  The
    route:

    * a layout is put together as a term is: one part after another
      (`Layout.next`), each below an edge (`Layout.under`), the body of a
      function with its parameters found (`Layout.function`); however it
      is put together, its functions number different variables, and what
      a function declares is used inside it;
    * `Layout.Fits` says that a layout is right about what stands in a
      term, when numbering starts somewhere; each way of putting layouts
      together keeps it. -/

namespace ChainQuery

open Term

/-! ## Layouts -/

/-- Something in a term: the way to it, and how many variables are
    numbered before it. -/
structure Spot (α : Type) where
  path : Path
  before : Nat
  item : α

/-- A use of a parameter: the way to it, what it is called, and which
    function declares it: which one of the functions of the layout, and
    the position among its parameters. -/
structure Use (ν : Type) where
  path : Path
  name : ν
  binder : Option (Nat × Nat)

/-- What can be followed into a term. -/
structure Layout (ν : Type) where
  /-- How many variables are numbered. -/
  count : Nat
  chains : List (Spot Query)
  /-- The functions, with what their parameters are called. -/
  functions : List (Spot (List ν))
  uses : List (Use ν)
  within : ∀ s ∈ functions, s.before + s.item.length ≤ count
  /-- No two functions number the same variable. -/
  apart : functions.Pairwise fun s s' =>
    s.before + s.item.length ≤ s'.before
  /-- What a function declares is used inside it, under the name it has
      there. -/
  declared : ∀ u ∈ uses, ∀ k i, u.binder = some (k, i) →
    ∃ s, functions[k]? = some s ∧ s.path <+: u.path ∧
      s.item[i]? = some u.name

/-- A spot seen from one edge further up. -/
def Spot.under {α : Type} (e : Edge) (s : Spot α) : Spot α :=
  ⟨e :: s.path, s.before, s.item⟩

/-- A spot with so many more variables numbered before it. -/
def Spot.after {α : Type} (count : Nat) (s : Spot α) : Spot α :=
  ⟨s.path, count + s.before, s.item⟩

/-- A use seen from one edge further up. -/
def Use.under {ν : Type} (e : Edge) (u : Use ν) : Use ν :=
  ⟨e :: u.path, u.name, u.binder⟩

/-- A use with so many more functions laid out before it. -/
def Use.after {ν : Type} (count : Nat) (u : Use ν) : Use ν :=
  ⟨u.path, u.name, u.binder.map fun b => (count + b.1, b.2)⟩

/-- A use in the body of a function.  The function declares it unless one
    further in does. -/
def Use.enclosed {ν : Type} (position? : ν → Option Nat) (u : Use ν) :
    Use ν :=
  ⟨.arg 1 :: u.path, u.name,
    match u.binder with
    | some (k, i) => some (k + 1, i)
    | none => (position? u.name).map fun i => (0, i)⟩

namespace Layout

variable {ν : Type}

/-- Where a name stands last in a list. -/
def position? [DecidableEq ν] (a : ν) : List ν → Option Nat
  | [] => none
  | b :: bs =>
      match position? a bs with
      | some i => some (i + 1)
      | none => if b = a then some 0 else none

/-- At its last position a name stands. -/
theorem get_position [DecidableEq ν] {a : ν} {names : List ν} {i : Nat}
    (h : position? a names = some i) : names[i]? = some a := by
  induction names generalizing i with
  | nil => cases h
  | cons b bs ih =>
      rw [position?] at h
      cases hrest : position? a bs with
      | some j =>
          rw [hrest] at h
          cases h
          exact ih hrest
      | none =>
          rw [hrest] at h
          by_cases hb : b = a
          · simp only [if_pos hb] at h
            cases h
            exact congrArg some hb
          · simp only [if_neg hb] at h
            cases h

/-- Nothing to be followed. -/
def empty : Layout ν where
  count := 0
  chains := []
  functions := []
  uses := []
  within := List.forall_mem_nil _
  apart := .nil
  declared := List.forall_mem_nil _

/-- One use. -/
def use (name : ν) : Layout ν :=
  { empty with
    uses := [⟨[], name, none⟩]
    declared := by
      refine List.forall_mem_singleton.mpr ?_
      rintro k i ⟨⟩ }

/-- A layout seen from one edge further up. -/
def under (e : Edge) (l : Layout ν) : Layout ν where
  count := l.count
  chains := l.chains.map (.under e)
  functions := l.functions.map (.under e)
  uses := l.uses.map (.under e)
  within := List.forall_mem_map.mpr l.within
  apart := List.pairwise_map.mpr l.apart
  declared := by
    refine List.forall_mem_map.mpr fun u hu k i hbinder => ?_
    obtain ⟨s, hs, hprefix, hname⟩ := l.declared u hu k i hbinder
    refine ⟨s.under e, ?_, List.cons_prefix_cons.mpr ⟨rfl, hprefix⟩, hname⟩
    rw [List.getElem?_map, hs]
    rfl

/-- Something in the first of two lists. -/
theorem getElem?_before {α : Type} {as : List α} (bs : List α) {a : α}
    {k : Nat} (h : as[k]? = some a) : (as ++ bs)[k]? = some a :=
  (List.getElem?_append_left (List.getElem?_eq_some_iff.mp h).1).trans h

/-- Something in the second of two lists of spots. -/
theorem getElem?_after {α : Type} {ss rs : List (Spot α)} {s : Spot α}
    {count k : Nat} (h : rs[k]? = some s) :
    (ss ++ rs.map (.after count))[ss.length + k]? = some (s.after count) := by
  rw [List.getElem?_append_right (Nat.le_add_right _ _),
    Nat.add_sub_cancel_left, List.getElem?_map, h]
  rfl

/-- One layout and, numbered after it, another. -/
def next (l r : Layout ν) : Layout ν where
  count := l.count + r.count
  chains := l.chains ++ r.chains.map (.after l.count)
  functions := l.functions ++ r.functions.map (.after l.count)
  uses := l.uses ++ r.uses.map (.after l.functions.length)
  within := by
    refine List.forall_mem_append.mpr ⟨fun s hs => ?_,
      List.forall_mem_map.mpr fun s hs => ?_⟩
    · exact Nat.le_add_right_of_le (l.within s hs)
    · have hle := r.within s hs
      show l.count + s.before + s.item.length ≤ l.count + r.count
      omega
  apart := by
    refine List.pairwise_append.mpr ⟨l.apart,
      List.pairwise_map.mpr (r.apart.imp fun {s s'} hle => ?_), ?_⟩
    · show l.count + s.before + s.item.length ≤ l.count + s'.before
      omega
    · intro s hs
      refine List.forall_mem_map.mpr fun s' _ => ?_
      exact Nat.le_add_right_of_le (l.within s hs)
  declared := by
    refine List.forall_mem_append.mpr ⟨fun u hu k i hbinder => ?_,
      List.forall_mem_map.mpr fun u hu k i hbinder => ?_⟩
    · obtain ⟨s, hs, hdeclared⟩ := l.declared u hu k i hbinder
      exact ⟨s, getElem?_before _ hs, hdeclared⟩
    · obtain ⟨⟨j, p⟩, hinner, heq⟩ := Option.map_eq_some_iff.mp hbinder
      cases heq
      obtain ⟨s, hs, hdeclared⟩ := r.declared u hu j p hinner
      exact ⟨s.after l.count, getElem?_after hs, hdeclared⟩

/-- The layout of positional arguments from the `i`-th on. -/
def args (i : Nat) : List (Layout ν) → Layout ν
  | [] => empty
  | l :: ls => (l.under (.arg i)).next (args (i + 1) ls)

/-- The layout of named arguments. -/
def members : List (String × Layout ν) → Layout ν
  | [] => empty
  | (name, l) :: rest => (l.under (.named name)).next (members rest)

/-- A function: what its parameters are called, and its body. -/
def function [DecidableEq ν] (params : List ν) (body : Layout ν) :
    Layout ν where
  count := params.length + body.count
  chains := body.chains.map fun s =>
    (s.after params.length).under (.arg 1)
  functions := ⟨[], 0, params⟩ ::
    body.functions.map fun s => (s.after params.length).under (.arg 1)
  uses := body.uses.map (.enclosed (position? · params))
  within := by
    refine List.forall_mem_cons.mpr
      ⟨?_, List.forall_mem_map.mpr fun s hs => ?_⟩
    · show 0 + params.length ≤ params.length + body.count
      omega
    · have hle := body.within s hs
      show params.length + s.before + s.item.length
        ≤ params.length + body.count
      omega
  apart := by
    refine List.pairwise_cons.mpr ⟨?_,
      List.pairwise_map.mpr (body.apart.imp fun {s s'} hle => ?_)⟩
    · refine List.forall_mem_map.mpr fun s _ => ?_
      show 0 + params.length ≤ params.length + s.before
      omega
    · show params.length + s.before + s.item.length
        ≤ params.length + s'.before
      omega
  declared := by
    refine List.forall_mem_map.mpr fun u hu k i hbinder => ?_
    cases hinner : u.binder with
    | some b =>
        obtain ⟨j, _⟩ := b
        rw [Use.enclosed, hinner] at hbinder
        cases hbinder
        obtain ⟨s, hs, hprefix, hname⟩ := body.declared u hu j i hinner
        refine ⟨(s.after params.length).under (.arg 1), ?_,
          List.cons_prefix_cons.mpr ⟨rfl, hprefix⟩, hname⟩
        rw [List.getElem?_cons_succ, List.getElem?_map, hs]
        rfl
    | none =>
        rw [Use.enclosed, hinner] at hbinder
        obtain ⟨j, hj, heq⟩ := Option.map_eq_some_iff.mp hbinder
        cases heq
        exact ⟨_, rfl, List.nil_prefix, get_position hj⟩

/-- A layout that is all of a chain. -/
def ofChain (q : Query) (l : Layout ν) : Layout ν :=
  { l with chains := ⟨[], 0, q⟩ :: l.chains }

end Layout

/-! ## The layout of a chain -/

open Layout

mutual

/-- The layout of an expression. -/
def Expr.layout : Expr → Layout Param
  | .param p => use p
  | .literal _ => empty
  | .field target _ => args 0 [Expr.layout target]
  | .compare _ left right =>
      args 0 [Expr.layout left, Expr.layout right]
  | .arith _ left right => args 0 [Expr.layout left, Expr.layout right]
  | .all items => args 0 (itemLayouts items)
  | .any items => args 0 (itemLayouts items)
  | .not e => args 0 [Expr.layout e]
  | .array items => args 0 (itemLayouts items)
  | .object ms => members (memberLayouts ms)
  | .call _ items => args 0 (itemLayouts items)
  | .subquery _ q => ofChain q (args 0 (Query.parts q))
termination_by structural e => e

/-- The layouts of expressions. -/
def itemLayouts : List Expr → List (Layout Param)
  | [] => []
  | e :: es => Expr.layout e :: itemLayouts es
termination_by structural es => es

/-- The layouts of object members. -/
def memberLayouts : List (String × Expr) → List (String × Layout Param)
  | [] => []
  | (name, e) :: rest => (name, Expr.layout e) :: memberLayouts rest
termination_by structural ms => ms

/-- The layout of a function of one row. -/
def RowFunc.layout : RowFunc → Layout Param
  | .mk row body => function [row] (Expr.layout body)
termination_by structural f => f

/-- The layout of a function of two rows. -/
def PairFunc.layout : PairFunc → Layout Param
  | .mk left right body => function [left, right] (Expr.layout body)
termination_by structural f => f

/-- The layout of a sort key.  A selector that goes by a name is no
    function in the term. -/
def SortKey.layout : SortKey → Layout Param
  | .mk selector _ =>
      match selector.toFunc.memberName? with
      | some _ => empty
      | none => args 0 [RowFunc.layout selector]
termination_by structural k => k

/-- The layouts of sort keys. -/
def keyLayouts : List SortKey → List (Layout Param)
  | [] => []
  | k :: ks => SortKey.layout k :: keyLayouts ks
termination_by structural ks => ks

/-- The layouts of the arguments of a chain, its sources first.  Selectors
    that have to be members are read and no functions in the term. -/
def Query.parts : Query → List (Layout Param)
  | .root _ => []
  | .indexCreateWith _ _ key => [empty, empty, RowFunc.layout key]
  | .step source _ => [ofChain source (args 0 (Query.parts source))]
  | .rowStep source _ f =>
      [ofChain source (args 0 (Query.parts source)), RowFunc.layout f]
  | .orderBy source first others =>
      ofChain source (args 0 (Query.parts source)) ::
        SortKey.layout first :: keyLayouts others
  | .union first second =>
      [ofChain first (args 0 (Query.parts first)),
        ofChain second (args 0 (Query.parts second))]
  | .reduce source f _ =>
      [ofChain source (args 0 (Query.parts source)), PairFunc.layout f]
  | .groupBy source _ key =>
      [ofChain source (args 0 (Query.parts source)), RowFunc.layout key]
  | .groupedMapReduce source grouping mapping reduction _ =>
      [ofChain source (args 0 (Query.parts source)),
        RowFunc.layout grouping, RowFunc.layout mapping,
        PairFunc.layout reduction]
  | .join _ left right predicate =>
      [ofChain left (args 0 (Query.parts left)),
        ofChain right (args 0 (Query.parts right)),
        PairFunc.layout predicate]
  | .eqJoin left _ right _ =>
      [ofChain left (args 0 (Query.parts left)), empty,
        ofChain right (args 0 (Query.parts right))]
termination_by structural q => q

end

/-- The layout of a chain. -/
def Query.layout (q : Query) : Layout Param :=
  args 0 q.parts

/-- The layout of a function of any number of parameters. -/
def Func.layout (f : Func) : Layout Param :=
  function f.params f.body.layout

theorem rowFunc_layout (f : RowFunc) : f.layout = f.toFunc.layout := by
  cases f
  rfl

theorem pairFunc_layout (f : PairFunc) : f.layout = f.toFunc.layout := by
  cases f
  rfl

/-- The parameters that a layout uses and no function in it declares. -/
def Layout.free (l : Layout Param) : List Param :=
  l.uses.filterMap fun u => if u.binder = none then some u.name else none

theorem mem_free {l : Layout Param} {p : Param} :
    p ∈ l.free ↔ ∃ u ∈ l.uses, u.binder = none ∧ u.name = p := by
  refine List.mem_filterMap.trans (exists_congr fun u => ?_)
  refine and_congr_right fun _ => ?_
  by_cases hnone : u.binder = none
  · simp [hnone]
  · simp [hnone]

/-! ## Layouts that differ in names only -/

section

variable {ν μ : Type}

/-- A function at the same place with as many parameters. -/
structure Spot.Matches (s : Spot (List ν)) (s' : Spot (List μ)) :
    Prop where
  path : s.path = s'.path
  before : s.before = s'.before
  length : s.item.length = s'.item.length

/-- A use at the same place, declared at the same place. -/
structure Use.Matches (u : Use ν) (v : Use μ) : Prop where
  path : u.path = v.path
  binder : u.binder = v.binder

/-- The same functions and the same uses, whatever they are called. -/
structure Layout.Matches (l : Layout ν) (m : Layout μ) : Prop where
  count : l.count = m.count
  functions : List.Forall₂ Spot.Matches l.functions m.functions
  uses : List.Forall₂ Use.Matches l.uses m.uses

end

/-! ## Layouts that fit -/

variable {c : Converter} {env env' : Environment} {n m : Nat}
  {here there : Path → Term → Prop} {l r : Layout Param}

/-- A layout is right about the things that stand at the ends of paths,
    where numbering starts at `n` and the environment tells what is
    declared outside: at each of its spots stands what it says, and there
    are no other functions and references. -/
structure Layout.Fits (c : Converter) (env : Environment) (n : Nat)
    (here : Path → Term → Prop) (l : Layout Param) : Prop where
  chains : ∀ s ∈ l.chains, s.before ≤ l.count ∧ ∃ inner t m,
    s.item.translate c inner (n + s.before) = (.ok t, m) ∧
      m ≤ n + l.count ∧ here s.path t
  functions : ∀ s ∈ l.functions, ∃ body, here s.path
    (.function (List.range' (n + s.before) s.item.length) body)
  bound : ∀ u ∈ l.uses, ∀ k i, u.binder = some (k, i) →
    ∃ s, l.functions[k]? = some s ∧
      here u.path (.variableRef (n + s.before + i))
  outside : ∀ u ∈ l.uses, u.binder = none →
    ∃ id, env u.name = some id ∧ here u.path (.variableRef id)
  onlyFunctions : ∀ path t, here path t → t.kind = .func →
    ∃ s ∈ l.functions, s.path = path
  onlyUses : ∀ path t, here path t → t.kind = .var →
    ∃ u ∈ l.uses, u.path = path

/-- Functions and references, the nodes that layouts follow. -/
def Term.Kind.Followed (kind : Kind) : Prop :=
  kind = .func ∨ kind = .var

/-- What stands below an edge. -/
def Below (e : Edge) (here : Path → Term → Prop) (path : Path)
    (t : Term) : Prop :=
  ∃ rest, path = e :: rest ∧ here rest t

/-- Where nothing is to be followed, nothing is laid out. -/
theorem fits_empty (h : ∀ path t, here path t → ¬ t.kind.Followed) :
    empty.Fits c env n here where
  chains := List.forall_mem_nil _
  functions := List.forall_mem_nil _
  bound := List.forall_mem_nil _
  outside := List.forall_mem_nil _
  onlyFunctions path t hat hkind := (h path t hat (.inl hkind)).elim
  onlyUses path t hat hkind := (h path t hat (.inr hkind)).elim

/-- A layout fits wherever the same is to be followed. -/
theorem fits_of (h : l.Fits c env n here)
    (hin : ∀ path t, here path t → there path t)
    (hout : ∀ path t, there path t → t.kind.Followed → here path t) :
    l.Fits c env n there where
  chains s hs := by
    obtain ⟨hbefore, inner, t, m, ht, hm, hat⟩ := h.chains s hs
    exact ⟨hbefore, inner, t, m, ht, hm, hin _ _ hat⟩
  functions s hs := by
    obtain ⟨body, hat⟩ := h.functions s hs
    exact ⟨body, hin _ _ hat⟩
  bound u hu k i hbinder := by
    obtain ⟨s, hs, hat⟩ := h.bound u hu k i hbinder
    exact ⟨s, hs, hin _ _ hat⟩
  outside u hu hbinder := by
    obtain ⟨id, hid, hat⟩ := h.outside u hu hbinder
    exact ⟨id, hid, hin _ _ hat⟩
  onlyFunctions path t hat hkind :=
    h.onlyFunctions path t (hout path t hat (.inl hkind)) hkind
  onlyUses path t hat hkind :=
    h.onlyUses path t (hout path t hat (.inr hkind)) hkind

theorem fits_under (e : Edge) (h : l.Fits c env n here) :
    (l.under e).Fits c env n (Below e here) where
  chains := by
    refine List.forall_mem_map.mpr fun s hs => ?_
    obtain ⟨hbefore, inner, t, m, ht, hm, hat⟩ := h.chains s hs
    exact ⟨hbefore, inner, t, m, ht, hm, _, rfl, hat⟩
  functions := by
    refine List.forall_mem_map.mpr fun s hs => ?_
    obtain ⟨body, hat⟩ := h.functions s hs
    exact ⟨body, _, rfl, hat⟩
  bound := by
    refine List.forall_mem_map.mpr fun u hu k i hbinder => ?_
    obtain ⟨s, hs, hat⟩ := h.bound u hu k i hbinder
    refine ⟨s.under e, ?_, _, rfl, hat⟩
    show (l.functions.map _)[k]? = _
    rw [List.getElem?_map, hs]
    rfl
  outside := by
    refine List.forall_mem_map.mpr fun u hu hbinder => ?_
    obtain ⟨id, hid, hat⟩ := h.outside u hu hbinder
    exact ⟨id, hid, _, rfl, hat⟩
  onlyFunctions := by
    rintro _ t ⟨rest, rfl, hat⟩ hkind
    obtain ⟨s, hs, rfl⟩ := h.onlyFunctions rest t hat hkind
    exact ⟨s.under e, List.mem_map_of_mem hs, rfl⟩
  onlyUses := by
    rintro _ t ⟨rest, rfl, hat⟩ hkind
    obtain ⟨u, hu, rfl⟩ := h.onlyUses rest t hat hkind
    exact ⟨u.under e, List.mem_map_of_mem hu, rfl⟩

/-- What is laid out second is numbered after what is laid out first. -/
theorem fits_next (hl : l.Fits c env n here)
    (hr : r.Fits c env (n + l.count) there) :
    (l.next r).Fits c env n fun path t => here path t ∨ there path t where
  chains := by
    refine List.forall_mem_append.mpr ⟨fun s hs => ?_,
      List.forall_mem_map.mpr fun s hs => ?_⟩
    · obtain ⟨hbefore, inner, t, m, ht, hm, hat⟩ := hl.chains s hs
      refine ⟨?_, inner, t, m, ht, ?_, .inl hat⟩
      · exact Nat.le_add_right_of_le hbefore
      · show m ≤ n + (l.count + r.count)
        omega
    · obtain ⟨hbefore, inner, t, m, ht, hm, hat⟩ := hr.chains s hs
      refine ⟨Nat.add_le_add_left hbefore _, inner, t, m, ?_, ?_, .inr hat⟩
      · rw [← ht, Nat.add_assoc]
        rfl
      · show m ≤ n + (l.count + r.count)
        omega
  functions := by
    refine List.forall_mem_append.mpr ⟨fun s hs => ?_,
      List.forall_mem_map.mpr fun s hs => ?_⟩
    · obtain ⟨body, hat⟩ := hl.functions s hs
      exact ⟨body, .inl hat⟩
    · obtain ⟨body, hat⟩ := hr.functions s hs
      refine ⟨body, .inr ?_⟩
      show there s.path (.function
        (List.range' (n + (l.count + s.before)) s.item.length) body)
      rw [← Nat.add_assoc]
      exact hat
  bound := by
    refine List.forall_mem_append.mpr ⟨fun u hu k i hbinder => ?_,
      List.forall_mem_map.mpr fun u hu k i hbinder => ?_⟩
    · obtain ⟨s, hs, hat⟩ := hl.bound u hu k i hbinder
      exact ⟨s, getElem?_before _ hs, .inl hat⟩
    · obtain ⟨⟨j, p⟩, hinner, heq⟩ := Option.map_eq_some_iff.mp hbinder
      cases heq
      obtain ⟨s, hs, hat⟩ := hr.bound u hu j p hinner
      refine ⟨s.after l.count, getElem?_after hs, .inr ?_⟩
      show there u.path (.variableRef (n + (l.count + s.before) + p))
      rw [← Nat.add_assoc n]
      exact hat
  outside := by
    refine List.forall_mem_append.mpr ⟨fun u hu hbinder => ?_,
      List.forall_mem_map.mpr fun u hu hbinder => ?_⟩
    · obtain ⟨id, hid, hat⟩ := hl.outside u hu hbinder
      exact ⟨id, hid, .inl hat⟩
    · obtain ⟨id, hid, hat⟩ :=
        hr.outside u hu (Option.map_eq_none_iff.mp hbinder)
      exact ⟨id, hid, .inr hat⟩
  onlyFunctions := by
    rintro path t (hat | hat) hkind
    · obtain ⟨s, hs, rfl⟩ := hl.onlyFunctions path t hat hkind
      exact ⟨s, List.mem_append_left _ hs, rfl⟩
    · obtain ⟨s, hs, rfl⟩ := hr.onlyFunctions path t hat hkind
      exact ⟨s.after l.count,
        List.mem_append_right _ (List.mem_map_of_mem hs), rfl⟩
  onlyUses := by
    rintro path t (hat | hat) hkind
    · obtain ⟨u, hu, rfl⟩ := hl.onlyUses path t hat hkind
      exact ⟨u, List.mem_append_left _ hu, rfl⟩
    · obtain ⟨u, hu, rfl⟩ := hr.onlyUses path t hat hkind
      exact ⟨u.after _, List.mem_append_right _ (List.mem_map_of_mem hu),
        rfl⟩

theorem fits_ofChain {q : Query} {inner : Environment} {t : Term}
    (ht : q.translate c inner n = (.ok t, n + l.count)) (hat : here [] t)
    (h : l.Fits c env n here) : (ofChain q l).Fits c env n here :=
  { h with
    chains := List.forall_mem_cons.mpr
      ⟨⟨Nat.zero_le _, inner, t, _, ht, Nat.le_refl _, hat⟩, h.chains⟩ }

/-! ## Bare terms -/

/-- A term in which nothing is to be followed. -/
def Term.Bare (t : Term) : Prop :=
  ∀ path s, t.At path s → ¬ s.kind.Followed

variable {kind : Kind} {t : Term} {ts : List Term}

theorem ordinary_not_followed (h : kind.Ordinary) : ¬ kind.Followed := by
  rintro (hfunc | hvar)
  · exact h.1 hfunc
  · exact h.2 hvar

theorem bare_leaf (d : Datum) : (Term.datum d).Bare := by
  intro path s hat
  cases path with
  | nil =>
      rw [show s = .datum d from hat]
      exact ordinary_not_followed (by decide : Kind.datum.Ordinary)
  | cons e path => exact (not_at_leaf hat).elim

theorem bare_decorated (h : t.Decorated kind ts) (hkind : kind.Ordinary)
    (hargs : ∀ u ∈ ts, u.Bare) : t.Bare := by
  obtain ⟨named, rfl, hleaf⟩ := h
  intro path s hat
  cases path with
  | nil =>
      rw [show s = .apply kind ts named from hat]
      exact ordinary_not_followed hkind
  | cons e path =>
      obtain ⟨u, hchild, hat⟩ := hat
      cases e with
      | arg i => exact hargs u (List.mem_of_getElem? hchild) path s hat
      | named name =>
          obtain ⟨d, hd⟩ := hleaf (name, u) hchild
          rw [show u = .datum d from hd] at hat
          exact bare_leaf d path s hat

theorem bare_text (s : String) : (Term.text s).Bare :=
  bare_leaf _

theorem bare_database (name : String) : (databaseTerm name).Bare :=
  bare_decorated (decorated_node _ _) (by decide)
    (List.forall_mem_singleton.mpr (bare_text name))

theorem bare_table (table : Table) : table.term.Bare := by
  refine bare_decorated (decorated_withFlag (decorated_node _ _) _ _)
    (by decide) ?_
  intro u hu
  rcases List.mem_append.mp hu with hdb | hname
  · obtain ⟨db, -, rfl⟩ :=
      Option.map_eq_some_iff.mp (Option.mem_toList.mp hdb)
    exact bare_database db
  · rw [List.mem_singleton.mp hname]
    exact bare_text _

theorem bare_judge {v : Value} (h : c.judge v = .ok t) : t.Bare := by
  obtain ⟨d, -, rfl⟩ := judge_leaf h
  exact bare_leaf d

theorem bare_literals {vs : List Value} (h : c.judgeAll vs = .ok ts) :
    ∀ u ∈ ts, u.Bare := by
  intro u hu
  obtain ⟨i, hi⟩ := List.mem_iff_getElem?.mp hu
  obtain ⟨v, -, hv⟩ := forall₂_right (judgeAll_ok h) hi
  exact bare_judge hv

theorem bare_member {use : SelectorUse} {f : RowFunc}
    (h : f.judgeMember use = .ok t) : t.Bare := by
  obtain ⟨name, -, rfl⟩ := judgeMember_leaf h
  exact bare_text name

theorem bare_reduction {reduction : Reduction}
    (h : reduction.judge = .ok t) : t.Bare :=
  bare_decorated (decorated_reduction h) (by decide) (List.forall_mem_nil _)

theorem bare_root {r : Root} (h : r.judge c = .ok t) : t.Bare := by
  have hnode : ∀ {kind : Kind} {ts : List Term}, kind.Ordinary →
      (∀ u ∈ ts, u.Bare) → (Term.node kind ts).Bare :=
    fun hkind hargs => bare_decorated (decorated_node _ _) hkind hargs
  cases r with
  | literal v => exact bare_judge h
  | literalSeq vs =>
      obtain ⟨items, hitems, hok⟩ := bind_eq_ok.mp h
      cases hok
      exact hnode (by decide) (bare_literals hitems)
  | insert table v upsert =>
      obtain ⟨value, hvalue, hok⟩ := bind_eq_ok.mp h
      cases hok
      refine bare_decorated (decorated_withFlag (decorated_node _ _) _ _)
        (by decide) ?_
      simp [bare_table, bare_judge hvalue]
  | table table =>
      cases h
      exact bare_table table
  | db | dbCreate | dbDrop | dbList | tableCreate | tableDrop | tableList
  | indexCreate | indexDrop | indexList | now =>
      cases h
      exact hnode (by decide) (by simp [bare_text, bare_database, bare_table])

end ChainQuery
