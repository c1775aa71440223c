import ChainQuery.Proofs.Charts
import ChainQuery.Proofs.Questions

/-! # Visits — the nodes of a chain in build order

    A walk builds what an operation takes its rows from before the
    operation, its functions from left to right, and the node itself last.
    `Query.visits` lists the nodes of a chain in that order, each with the
    path to where its term is going to stand; references to tables and
    databases are nodes too, and a single literal is none.  The route:

    * the nodes are those of the places of the chain, once for each
      occurrence (`enumerated_hereditary`);
    * a node comes right after the nodes inside it, and lists of which that
      holds can be put together (`Nested`). -/

namespace ChainQuery

open Term Translation

/-! ## Nodes without chains in them -/

/-- Number of positional arguments of the term of a root. -/
def Root.arity : Root → Nat
  | .db _ => 1
  | .table t => t.db.toList.length + 1
  | .dbCreate _ => 1
  | .dbDrop _ => 1
  | .dbList => 0
  | .tableCreate _ _ => 2
  | .tableDrop _ _ => 2
  | .tableList _ => 1
  | .indexCreate _ _ => 2
  | .indexDrop _ _ => 2
  | .indexList _ => 1
  | .literal _ => 0
  | .literalSeq vs => vs.length
  | .now => 0
  | .insert _ _ _ => 2

/-- Number of positional arguments of the term of a chain. -/
def Query.arity : Query → Nat
  | .root r => r.arity
  | .indexCreateWith _ _ _ => 3
  | .step _ s => s.carried.length + 1
  | .rowStep _ _ _ => 2
  | .orderBy _ _ others => others.length + 2
  | .union _ _ => 2
  | .reduce _ _ _ => 2
  | .groupBy _ _ _ => 3
  | .groupedMapReduce _ _ _ _ _ => 4
  | .join _ _ _ _ => 3
  | .eqJoin _ _ _ _ => 3

/-- The database that a table is in, below the table. -/
def Table.references (t : Table) : List Place :=
  t.db.toList.map fun name => ⟨[.arg 0], .source, .root (.db name)⟩

/-- A table that an operation refers to, after its database. -/
def Table.visits (t : Table) : List Place :=
  t.references ++ [⟨[], .source, .root (.table t)⟩]

/-- The database or table that a root refers to. -/
def Root.references : Root → List Place
  | .table t => t.references
  | .tableCreate name _ => [⟨[.arg 0], .source, .root (.db name)⟩]
  | .tableDrop name _ => [⟨[.arg 0], .source, .root (.db name)⟩]
  | .tableList name => [⟨[.arg 0], .source, .root (.db name)⟩]
  | .indexCreate t _ => t.visits.map (.under (.arg 0))
  | .indexDrop t _ => t.visits.map (.under (.arg 0))
  | .indexList t => t.visits.map (.under (.arg 0))
  | .insert t _ _ => t.visits.map (.under (.arg 0))
  | _ => []

/-- The database or table that the first node of a chain refers to. -/
def Query.references : Query → List Place
  | .root r => r.references
  | .indexCreateWith t _ _ => t.visits.map (.under (.arg 0))
  | _ => []

/-- The node of a chain itself.  A single literal is a leaf and no
    node. -/
def Query.itself (role : Role) (q : Query) : List Place :=
  match q with
  | .root (.literal _) => []
  | q => [⟨[], role, q⟩]

/-! ## Visits -/

mutual

/-- The nodes visited in an expression. -/
def Expr.visits : Expr → List Place
  | .param _ => []
  | .literal _ => []
  | .field target _ => placesAt 0 [Expr.visits target]
  | .compare _ left right =>
      placesAt 0 [Expr.visits left, Expr.visits right]
  | .arith _ left right =>
      placesAt 0 [Expr.visits left, Expr.visits right]
  | .all items => placesAt 0 (itemVisits items)
  | .any items => placesAt 0 (itemVisits items)
  | .not e => placesAt 0 [Expr.visits e]
  | .array items => placesAt 0 (itemVisits items)
  | .object members => memberVisits members
  | .call _ args => placesAt 0 (itemVisits args)
  | .subquery _ q => Query.earlier q ++ q.itself .embedded
termination_by structural e => e

/-- The nodes visited in each of some expressions. -/
def itemVisits : List Expr → List (List Place)
  | [] => []
  | e :: es => Expr.visits e :: itemVisits es
termination_by structural es => es

/-- The nodes visited in object members, in the order written. -/
def memberVisits : List (String × Expr) → List Place
  | [] => []
  | (name, e) :: rest =>
      (Expr.visits e).map (.under (.named name)) ++ memberVisits rest
termination_by structural members => members

/-- The nodes visited in a function of one row. -/
def RowFunc.visits : RowFunc → List Place
  | .mk _ body => placesAt 0 [[], Expr.visits body]
termination_by structural f => f

/-- The nodes visited in a function of two rows. -/
def PairFunc.visits : PairFunc → List Place
  | .mk _ _ body => placesAt 0 [[], Expr.visits body]
termination_by structural f => f

/-- The nodes visited in a sort key. -/
def SortKey.visits : SortKey → List Place
  | .mk selector _ => placesAt 0 [RowFunc.visits selector]
termination_by structural k => k

/-- The nodes visited in each of some sort keys. -/
def keyVisits : List SortKey → List (List Place)
  | [] => []
  | k :: ks => SortKey.visits k :: keyVisits ks
termination_by structural ks => ks

/-- The nodes visited before the last one of a chain: those of its sources
    and functions, in build order. -/
def Query.earlier : Query → List Place
  | .root r => r.references
  | .indexCreateWith t _ key =>
      placesAt 0 [t.visits, [], RowFunc.visits key]
  | .step source _ =>
      placesAt 0 [Query.earlier source ++ source.itself .source]
  | .rowStep source _ f =>
      placesAt 0 [Query.earlier source ++ source.itself .source,
        RowFunc.visits f]
  | .orderBy source first others =>
      placesAt 0 ((Query.earlier source ++ source.itself .source) ::
        SortKey.visits first :: keyVisits others)
  | .union first second =>
      placesAt 0 [Query.earlier first ++ first.itself .source,
        Query.earlier second ++ second.itself .source]
  | .reduce source f _ =>
      placesAt 0 [Query.earlier source ++ source.itself .source,
        PairFunc.visits f]
  | .groupBy source _ key =>
      placesAt 0 [Query.earlier source ++ source.itself .source,
        RowFunc.visits key]
  | .groupedMapReduce source grouping mapping reduction _ =>
      placesAt 0 [Query.earlier source ++ source.itself .source,
        RowFunc.visits grouping, RowFunc.visits mapping,
        PairFunc.visits reduction]
  | .join _ left right predicate =>
      placesAt 0 [Query.earlier left ++ left.itself .source,
        Query.earlier right ++ right.itself .source,
        PairFunc.visits predicate]
  | .eqJoin left _ right _ =>
      placesAt 0 [Query.earlier left ++ left.itself .source, [],
        Query.earlier right ++ right.itself .source]
termination_by structural q => q

end

/-- The nodes of a chain in build order, for a chain that stands as it
    does. -/
def Query.visitsAs (role : Role) (q : Query) : List Place :=
  q.earlier ++ q.itself role

/-- The nodes of a chain in build order. -/
def Query.visits (q : Query) : List Place :=
  q.visitsAs .whole

/-! ## The nodes of places -/

/-- A place seen from the top of a longer path. -/
def Place.below (path : Path) (p : Place) : Place :=
  ⟨path ++ p.path, p.role, p.chain⟩

/-- The nodes that are built at a place: the references of its chain and
    the chain itself. -/
def Place.nodes (p : Place) : List Place :=
  (p.chain.references ++ p.chain.itself p.role).map (.below p.path)

theorem nodes_under (e : Edge) (p : Place) :
    (p.under e).nodes = p.nodes.map (.under e) := by
  rw [Place.nodes, Place.nodes, List.map_map]
  rfl

theorem nodes_map_under (e : Edge) (ps : List Place) :
    (ps.map (.under e)).flatMap Place.nodes
      = (ps.flatMap Place.nodes).map (.under e) := by
  induction ps with
  | nil => rfl
  | cons p ps ih =>
      rw [List.map_cons, List.flatMap_cons, List.flatMap_cons, ih,
        nodes_under, List.map_append]

theorem mem_itself {role : Role} {q : Query} {p : Place}
    (h : p ∈ q.itself role) : p = ⟨[], role, q⟩ := by
  unfold Query.itself at h
  split at h
  · cases h
  · exact List.mem_singleton.mp h

/-- What is visited is in the places, node by node. -/
abbrev Visits (vs ps : List Place) : Prop :=
  vs.Perm (ps.flatMap Place.nodes)

theorem visits_none : Visits [] [] :=
  .refl _

theorem visits_under {vs ps : List Place} (e : Edge) (h : Visits vs ps) :
    Visits (vs.map (.under e)) (ps.map (.under e)) := by
  rw [Visits, nodes_map_under]
  exact h.map _

theorem visits_append {vs ws ps qs : List Place} (h : Visits vs ps)
    (h' : Visits ws qs) : Visits (vs ++ ws) (ps ++ qs) := by
  rw [Visits, List.flatMap_append]
  exact h.append h'

theorem visits_args {vss pss : List (List Place)}
    (h : List.Forall₂ Visits vss pss) (k : Nat) :
    Visits (placesAt k vss) (placesAt k pss) := by
  induction h generalizing k with
  | nil => exact .refl _
  | cons hfirst _ ih =>
      exact visits_append (visits_under _ hfirst) (ih (k + 1))

theorem nodes_itself (role : Role) (q : Query) :
    (Place.mk [] role q).nodes = q.references ++ q.itself role :=
  List.map_id _

/-- The nodes before the last one are those of the places in a chain, and
    its own references. -/
def Query.Enumerated (q : Query) : Prop :=
  q.earlier.Perm (q.references ++ q.inner.flatMap Place.nodes)

/-- A node is the last of its visits and the first of its places. -/
theorem visits_as {q : Query} (h : q.Enumerated) (role : Role) :
    Visits (q.visitsAs role) (q.placesAs role) := by
  rw [Visits, Query.placesAs, List.flatMap_cons, nodes_itself,
    List.append_assoc]
  refine (List.Perm.append_right _ h).trans ?_
  rw [List.append_assoc]
  exact List.perm_append_comm.append_left _

theorem itemVisits_eq (es : List Expr) :
    itemVisits es = es.map Expr.visits := by
  induction es with
  | nil => rfl
  | cons e es ih => rw [itemVisits, ih, List.map_cons]

theorem keyVisits_eq (ks : List SortKey) :
    keyVisits ks = ks.map SortKey.visits := by
  induction ks with
  | nil => rfl
  | cons k ks ih => rw [keyVisits, ih, List.map_cons]

theorem visits_items {es : List Expr}
    (h : ∀ e ∈ es, Visits e.visits e.places) :
    Visits (placesAt 0 (itemVisits es)) (placesAt 0 (itemPlaces es)) := by
  rw [itemVisits_eq, itemPlaces_eq]
  refine visits_args ?_ 0
  rw [List.forall₂_map_left_iff, List.forall₂_map_right_iff,
    List.forall₂_same]
  exact h

theorem visits_members {ms : List (String × Expr)}
    (h : ∀ m ∈ ms, Visits m.2.visits m.2.places) :
    Visits (memberVisits ms) (memberPlaces ms) := by
  induction ms with
  | nil => exact .refl _
  | cons m ms ih =>
      obtain ⟨hm, hms⟩ := List.forall_mem_cons.mp h
      exact visits_append (visits_under _ hm) (ih hms)

theorem visits_rowFunc {f : RowFunc}
    (h : Visits f.toFunc.body.visits f.toFunc.body.places) :
    Visits f.visits f.places := by
  cases f
  exact visits_args (.cons visits_none (.cons h .nil)) 0

theorem visits_pairFunc {f : PairFunc}
    (h : Visits f.toFunc.body.visits f.toFunc.body.places) :
    Visits f.visits f.places := by
  cases f
  exact visits_args (.cons visits_none (.cons h .nil)) 0

theorem visits_key {k : SortKey} (h : Visits k.body.visits k.body.places) :
    Visits k.visits k.places := by
  cases k
  exact visits_args (.cons (visits_rowFunc h) .nil) 0

theorem visits_keys {ks : List SortKey}
    (h : ∀ k ∈ ks, Visits k.body.visits k.body.places) :
    List.Forall₂ Visits (keyVisits ks) (keyPlaces ks) := by
  rw [keyVisits_eq, keyPlaces_eq, List.forall₂_map_left_iff,
    List.forall₂_map_right_iff, List.forall₂_same]
  exact fun k hk => visits_key (h k hk)

/-- Every form of node is visited place by place. -/
theorem enumerated_hereditary :
    Hereditary (fun e => Visits e.visits e.places) Query.Enumerated where
  param _ := .refl _
  literal _ := .refl _
  field _ _ he := visits_args (.cons he .nil) 0
  compare _ _ _ ha hb := visits_args (.cons ha (.cons hb .nil)) 0
  arith _ _ _ ha hb := visits_args (.cons ha (.cons hb .nil)) 0
  all _ hes := visits_items hes
  any _ hes := visits_items hes
  not _ he := visits_args (.cons he .nil) 0
  array _ hes := visits_items hes
  object _ hms := visits_members hms
  call _ _ hes := visits_items hes
  subquery _ _ hq := visits_as hq .embedded
  root r := by
    rw [Query.Enumerated, Query.inner, List.flatMap_nil, List.append_nil]
    exact .refl _
  indexCreateWith t _ _ hkey := by
    have hrest := visits_args
      (.cons visits_none (.cons (visits_rowFunc hkey) .nil)) 1
    exact List.Perm.append_left (t.visits.map (.under (.arg 0))) hrest
  step _ _ hq := visits_args (.cons (visits_as hq .source) .nil) 0
  rowStep _ _ _ hq hf :=
    visits_args (.cons (visits_as hq .source)
      (.cons (visits_rowFunc hf) .nil)) 0
  orderBy _ _ _ hq hfirst hothers :=
    visits_args (.cons (visits_as hq .source)
      (.cons (visits_key hfirst) (visits_keys hothers))) 0
  union _ _ ha hb :=
    visits_args (.cons (visits_as ha .source)
      (.cons (visits_as hb .source) .nil)) 0
  reduce _ _ _ hq hf :=
    visits_args (.cons (visits_as hq .source)
      (.cons (visits_pairFunc hf) .nil)) 0
  groupBy _ _ _ hq hkey :=
    visits_args (.cons (visits_as hq .source)
      (.cons (visits_rowFunc hkey) .nil)) 0
  groupedMapReduce _ _ _ _ _ hq hg hm hr :=
    visits_args (.cons (visits_as hq .source)
      (.cons (visits_rowFunc hg) (.cons (visits_rowFunc hm)
        (.cons (visits_pairFunc hr) .nil)))) 0
  join _ _ _ _ ha hb hf :=
    visits_args (.cons (visits_as ha .source)
      (.cons (visits_as hb .source) (.cons (visits_pairFunc hf) .nil))) 0
  eqJoin _ _ _ _ ha hb :=
    visits_args (.cons (visits_as ha .source) (.cons visits_none
      (.cons (visits_as hb .source) .nil))) 0

/-! ## Nesting -/

/-- Right before each node stand the nodes inside it, in their own
    order. -/
def Nested (vs : List Place) : Prop :=
  ∀ before p after, vs = before ++ p :: after →
    ∃ outer, before = outer ++ p.chain.earlier.map (.below p.path)

theorem nested_nil : Nested [] := by
  intro before p after h
  cases before <;> cases h

theorem nested_append {vs ws : List Place} (h : Nested vs)
    (h' : Nested ws) : Nested (vs ++ ws) := by
  intro before p after heq
  rcases List.append_eq_append_iff.mp heq with
    ⟨inner, rfl, hws⟩ | ⟨inner, hvs, hafter⟩
  · obtain ⟨outer, rfl⟩ := h' inner p after hws
    exact ⟨vs ++ outer, (List.append_assoc _ _ _).symm⟩
  · cases inner with
    | nil =>
        -- The node is the first of the second list: none is inside it.
        obtain ⟨outer, hnil⟩ := h' [] p after hafter.symm
        obtain ⟨-, hempty⟩ := List.append_eq_nil_iff.mp hnil.symm
        exact ⟨before, by rw [hempty, List.append_nil]⟩
    | cons p' inner =>
        obtain ⟨rfl, -⟩ := List.cons.inj hafter
        exact h before p inner hvs

theorem nested_under {vs : List Place} (e : Edge) (h : Nested vs) :
    Nested (vs.map (.under e)) := by
  intro before p after heq
  obtain ⟨before, rest, rfl, rfl, hrest⟩ := List.map_eq_append_iff.mp heq
  obtain ⟨r, after, rfl, rfl, -⟩ := List.map_eq_cons_iff.mp hrest
  obtain ⟨outer, rfl⟩ := h before r after rfl
  refine ⟨outer.map (.under e), ?_⟩
  rw [List.map_append, List.map_map]
  rfl

/-- A node after the nodes inside it. -/
theorem nested_last {q : Query} (h : Nested q.earlier) (role : Role) :
    Nested (q.earlier ++ [⟨[], role, q⟩]) := by
  intro before p after heq
  rcases List.append_eq_append_iff.mp heq with
    ⟨inner, rfl, hlast⟩ | ⟨inner, hearlier, hafter⟩
  · cases inner with
    | nil =>
        obtain ⟨rfl, -⟩ := List.cons.inj hlast
        refine ⟨[], ?_⟩
        rw [List.append_nil, List.nil_append]
        exact (List.map_id _).symm
    | cons p' inner =>
        obtain ⟨-, hnil⟩ := List.cons.inj hlast
        cases inner <;> cases hnil
  · cases inner with
    | nil =>
        obtain ⟨rfl, -⟩ := List.cons.inj hafter
        refine ⟨[], ?_⟩
        rw [List.append_nil] at hearlier
        rw [← hearlier, List.nil_append]
        exact (List.map_id _).symm
    | cons p' inner =>
        obtain ⟨rfl, -⟩ := List.cons.inj hafter
        exact h before p inner hearlier

end ChainQuery
