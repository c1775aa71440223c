import ChainQuery.Proofs.Grammar

/-! # Places — where the chains of a chain end up

    A chain contains other chains: the ones its operations take their rows
    from, and those embedded in the bodies of its functions.  Where the
    term of each stands in the term of the whole can be read off the chain
    alone (`Query.places`): sources are among the first arguments of their
    operations, the body of a function comes after the numbers of its
    parameters, and an embedded chain stands where the expression does
    that it is. -/

namespace ChainQuery

open Term

/-! ## Paths -/

namespace Term

/-- One step down in a term: to a positional argument or a named one. -/
inductive Edge where
  | arg (i : Nat)
  | named (name : String)
  deriving DecidableEq, Repr

/-- The way from a term to one inside it. -/
abbrev Path := List Edge

/-- The argument at the end of an edge. -/
def Child (t : Term) : Edge → Term → Prop
  | .arg i, u => t.args[i]? = some u
  | .named name, u => (name, u) ∈ t.optargs

/-- At the end of a path through the first term stands the second. -/
def At : Term → Path → Term → Prop
  | t, [], s => s = t
  | t, e :: path, s => ∃ u, t.Child e u ∧ At u path s

/-- A path through a term leads through the body of a function. -/
def Enclosed (t : Term) (path : Path) : Prop :=
  ∃ outer inner f, path = outer ++ .arg 1 :: inner ∧ t.At outer f ∧
    f.kind = .func

end Term


mutual

/-- The nodes of a term stand somewhere in it. -/
theorem at_of_mem_nodes :
    ∀ t : Term, ∀ s ∈ t.nodes, ∃ path, t.At path s
  | .datum d => fun s hs => ⟨[], List.mem_singleton.mp hs⟩
  | .apply kind args optargs => fun s hs => by
      rw [Term.nodes, List.mem_cons, List.mem_append] at hs
      rcases hs with rfl | hs | hs
      · exact ⟨[], rfl⟩
      · obtain ⟨i, u, path, hu, hat⟩ := at_of_mem_args args s hs
        exact ⟨.arg i :: path, u, hu, hat⟩
      · obtain ⟨name, u, path, hu, hat⟩ := at_of_mem_named optargs s hs
        exact ⟨.named name :: path, u, hu, hat⟩
termination_by structural t => t

theorem at_of_mem_args :
    ∀ ts : List Term, ∀ s ∈ nodesOfArgs ts,
      ∃ (i : Nat) (u : Term) (path : Path),
        ts[i]? = some u ∧ u.At path s
  | [] => fun _ hs => by cases hs
  | t :: ts => fun s hs => by
      rw [nodesOfArgs, List.mem_append] at hs
      rcases hs with hs | hs
      · obtain ⟨path, hat⟩ := at_of_mem_nodes t s hs
        exact ⟨0, t, path, rfl, hat⟩
      · obtain ⟨i, u, path, hu, hat⟩ := at_of_mem_args ts s hs
        exact ⟨i + 1, u, path, hu, hat⟩
termination_by structural ts => ts

theorem at_of_mem_named :
    ∀ es : List (String × Term), ∀ s ∈ nodesOfNamed es,
      ∃ (name : String) (u : Term) (path : Path),
        (name, u) ∈ es ∧ u.At path s
  | [] => fun _ hs => by cases hs
  | (name, t) :: rest => fun s hs => by
      rw [nodesOfNamed, List.mem_append] at hs
      rcases hs with hs | hs
      · obtain ⟨path, hat⟩ := at_of_mem_nodes t s hs
        exact ⟨name, t, path, .head _, hat⟩
      · obtain ⟨other, u, path, hu, hat⟩ := at_of_mem_named rest s hs
        exact ⟨other, u, path, .tail _ hu, hat⟩
termination_by structural es => es

end

theorem enclosed_of_child {t u : Term} {e : Edge} {path : Path}
    (hchild : t.Child e u) (h : u.Enclosed path) :
    t.Enclosed (e :: path) := by
  obtain ⟨outer, inner, f, rfl, hat, hfunc⟩ := h
  exact ⟨e :: outer, inner, f, rfl, ⟨u, hchild, hat⟩, hfunc⟩

/-! ## Places -/

/-- How a chain stands in another. -/
inductive Role where
  /-- It is the whole chain. -/
  | whole
  /-- An operation takes its rows from it. -/
  | source
  /-- It is a value in the body of a function. -/
  | embedded
  deriving DecidableEq, Repr

/-- A chain inside another: where its term stands, and how. -/
structure Place where
  path : Path
  role : Role
  chain : Query

/-- A place seen from one edge further up. -/
def Place.under (e : Edge) (p : Place) : Place :=
  ⟨e :: p.path, p.role, p.chain⟩

/-- The places of positional arguments, given those in each argument from
    the `i`-th on. -/
def placesAt (i : Nat) : List (List Place) → List Place
  | [] => []
  | ps :: rest => ps.map (.under (.arg i)) ++ placesAt (i + 1) rest

mutual

/-- The chains in an expression. -/
def Expr.places : Expr → List Place
  | .param _ => []
  | .literal _ => []
  | .field target _ => placesAt 0 [Expr.places target]
  | .compare _ left right =>
      placesAt 0 [Expr.places left, Expr.places right]
  | .arith _ left right =>
      placesAt 0 [Expr.places left, Expr.places right]
  | .all items => placesAt 0 (itemPlaces items)
  | .any items => placesAt 0 (itemPlaces items)
  | .not e => placesAt 0 [Expr.places e]
  | .array items => placesAt 0 (itemPlaces items)
  | .object members => memberPlaces members
  | .call _ args => placesAt 0 (itemPlaces args)
  | .subquery _ q => ⟨[], .embedded, q⟩ :: Query.inner q
termination_by structural e => e

/-- The chains in each of some expressions. -/
def itemPlaces : List Expr → List (List Place)
  | [] => []
  | e :: es => Expr.places e :: itemPlaces es
termination_by structural es => es

/-- The chains in object members. -/
def memberPlaces : List (String × Expr) → List Place
  | [] => []
  | (name, e) :: rest =>
      (Expr.places e).map (.under (.named name)) ++ memberPlaces rest
termination_by structural members => members

/-- The chains in a function of one row: its body comes after the numbers
    of its parameters. -/
def RowFunc.places : RowFunc → List Place
  | .mk _ body => placesAt 0 [[], Expr.places body]
termination_by structural f => f

/-- The chains in a function of two rows. -/
def PairFunc.places : PairFunc → List Place
  | .mk _ _ body => placesAt 0 [[], Expr.places body]
termination_by structural f => f

/-- The chains in a sort key. -/
def SortKey.places : SortKey → List Place
  | .mk selector _ => placesAt 0 [RowFunc.places selector]
termination_by structural k => k

/-- The chains in each of some sort keys. -/
def keyPlaces : List SortKey → List (List Place)
  | [] => []
  | k :: ks => SortKey.places k :: keyPlaces ks
termination_by structural ks => ks

/-- The chains in a chain, itself left out.  Selectors that have to be
    members are read and have no term of their own. -/
def Query.inner : Query → List Place
  | .root _ => []
  | .indexCreateWith _ _ key => placesAt 0 [[], [], RowFunc.places key]
  | .step source _ =>
      placesAt 0 [⟨[], .source, source⟩ :: Query.inner source]
  | .rowStep source _ f =>
      placesAt 0 [⟨[], .source, source⟩ :: Query.inner source,
        RowFunc.places f]
  | .orderBy source first others =>
      placesAt 0 ((⟨[], .source, source⟩ :: Query.inner source) ::
        SortKey.places first :: keyPlaces others)
  | .union first second =>
      placesAt 0 [⟨[], .source, first⟩ :: Query.inner first,
        ⟨[], .source, second⟩ :: Query.inner second]
  | .reduce source f _ =>
      placesAt 0 [⟨[], .source, source⟩ :: Query.inner source,
        PairFunc.places f]
  | .groupBy source _ key =>
      placesAt 0 [⟨[], .source, source⟩ :: Query.inner source,
        RowFunc.places key]
  | .groupedMapReduce source grouping mapping reduction _ =>
      placesAt 0 [⟨[], .source, source⟩ :: Query.inner source,
        RowFunc.places grouping, RowFunc.places mapping,
        PairFunc.places reduction]
  | .join _ left right predicate =>
      placesAt 0 [⟨[], .source, left⟩ :: Query.inner left,
        ⟨[], .source, right⟩ :: Query.inner right,
        PairFunc.places predicate]
  | .eqJoin left _ right _ =>
      placesAt 0 [⟨[], .source, left⟩ :: Query.inner left, [],
        ⟨[], .source, right⟩ :: Query.inner right]
termination_by structural q => q

end

/-- A chain and the chains in it, for a chain that stands as it does. -/
def Query.placesAs (role : Role) (q : Query) : List Place :=
  ⟨[], role, q⟩ :: q.inner

/-- A chain and all chains in it. -/
def Query.places (q : Query) : List Place :=
  q.placesAs .whole

variable {p : Place} {pss : List (List Place)}

theorem mem_placesAt {k : Nat} :
    p ∈ placesAt k pss ↔ ∃ i ps, ∃ r : Place, pss[i]? = some ps ∧ r ∈ ps ∧
      p = r.under (.arg (k + i)) := by
  induction pss generalizing k with
  | nil => simp [placesAt]
  | cons ps rest ih =>
      rw [placesAt, List.mem_append, List.mem_map, ih]
      constructor
      · rintro (⟨r, hr, rfl⟩ | ⟨i, ps', r, hps, hr, rfl⟩)
        · exact ⟨0, ps, r, rfl, hr, rfl⟩
        · refine ⟨i + 1, ps', r, hps, hr, ?_⟩
          rw [Nat.add_right_comm, Nat.add_assoc]
      · rintro ⟨i, ps', r, hps, hr, rfl⟩
        cases i with
        | zero =>
            cases hps
            exact .inl ⟨r, hr, rfl⟩
        | succ i =>
            refine .inr ⟨i, ps', r, hps, hr, ?_⟩
            rw [Nat.add_right_comm, Nat.add_assoc]

/-- Arguments without chains add no place. -/
theorem placesAt_nil {k : Nat} (h : ∀ ps ∈ pss, ps = []) :
    placesAt k pss = [] := by
  induction pss generalizing k with
  | nil => rfl
  | cons ps rest ih =>
      obtain ⟨hps, hrest⟩ := List.forall_mem_cons.mp h
      rw [placesAt, hps, ih hrest]
      rfl

theorem mem_placesAt_one {ps : List Place} :
    p ∈ placesAt 0 [ps] ↔ ∃ r ∈ ps, p = r.under (.arg 0) := by
  simp [placesAt, eq_comm]

/-- In a function only the body has places. -/
theorem mem_placesAt_body {ps : List Place} :
    p ∈ placesAt 0 [[], ps] ↔ ∃ r ∈ ps, p = r.under (.arg 1) := by
  simp [placesAt, eq_comm]

theorem rowFunc_places (f : RowFunc) :
    f.places = placesAt 0 [[], f.toFunc.body.places] := by
  cases f
  rfl

theorem pairFunc_places (f : PairFunc) :
    f.places = placesAt 0 [[], f.toFunc.body.places] := by
  cases f
  rfl

theorem itemPlaces_eq (es : List Expr) :
    itemPlaces es = es.map Expr.places := by
  induction es with
  | nil => rfl
  | cons e es ih => rw [itemPlaces, ih, List.map_cons]

theorem keyPlaces_eq (ks : List SortKey) :
    keyPlaces ks = ks.map SortKey.places := by
  induction ks with
  | nil => rfl
  | cons k ks ih => rw [keyPlaces, ih, List.map_cons]

theorem mem_memberPlaces {ms : List (String × Expr)} :
    p ∈ memberPlaces ms ↔ ∃ m ∈ ms, ∃ r : Place, r ∈ m.2.places ∧
      p = r.under (.named m.1) := by
  induction ms with
  | nil => simp [memberPlaces]
  | cons m ms ih =>
      obtain ⟨name, e⟩ := m
      rw [memberPlaces, List.mem_append, List.mem_map, ih]
      constructor
      · rintro (⟨r, hr, rfl⟩ | ⟨m, hm, hr⟩)
        · exact ⟨(name, e), .head _, r, hr, rfl⟩
        · exact ⟨m, .tail _ hm, hr⟩
      · rintro ⟨m, hm, r, hr, rfl⟩
        rcases List.mem_cons.mp hm with rfl | hm
        · exact .inl ⟨r, hr, rfl⟩
        · exact .inr ⟨m, hm, r, hr, rfl⟩

end ChainQuery
