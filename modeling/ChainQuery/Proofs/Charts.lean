import ChainQuery.Proofs.Places
import ChainQuery.Proofs.Shapes

/-! # Charts — the places of a chain are right

    The places of a chain tell where the terms of the chains in it stand.
    They are right in both directions (`Charts`): at each one stands the
    term of its chain, and whatever only a chain can make stands at one.
    The route:

    * an operation is charted when its arguments are (`charts_node`,
      `seats_chain`), so every form of node is (`charted_hereditary`);
    * all places in a function are in its body (`seated_func`), so a chain
      that is embedded in another stands inside a function (`Seats`). -/

namespace ChainQuery

open Term Translation

variable {c : Converter} {env : Environment} {kind : Kind} {t s : Term}
  {args : List Term} {optargs : List (String × Term)}
  {pss : List (List Place)}

/-! ## Charts -/

/-- The positions of the arguments that operations of a kind take rows
    from. -/
def Term.Kind.sources : Kind → List Nat
  | .get | .getAll | .between | .filter | .map | .concatMap | .orderBy
  | .skip | .limit | .slice | .nth | .distinct | .count | .reduce
  | .groupBy | .groupedMapReduce | .zip => [0]
  | .union | .innerJoin | .outerJoin => [0, 1]
  | .eqJoin => [0, 2]
  | _ => []

/-- The kinds of writes. -/
def writeKinds : List Kind :=
  [.update, .replace, .delete, .insert, .dbCreate, .dbDrop, .tableCreate,
   .tableDrop, .indexCreate, .indexDrop]

/-- Only chains make operations of this kind.  Anything may be counted by
    a call. -/
def Term.Kind.ChainOnly (kind : Kind) : Prop :=
  kind.sources ≠ [] ∧ kind ≠ .count ∨ kind ∈ writeKinds

instance (kind : Kind) : Decidable kind.ChainOnly :=
  inferInstanceAs (Decidable (_ ∨ _))

/-- A chain has this term, in some environment. -/
def Query.Makes (c : Converter) (q : Query) (t : Term) : Prop :=
  ∃ env, Gives (q.part c env) t

/-- Places chart a term: at each one stands the term of its chain, and
    what only chains make stands at one. -/
structure Charts (c : Converter) (places : List Place) (t : Term) :
    Prop where
  there : ∀ p ∈ places, ∃ s, t.At p.path s ∧ p.chain.Makes c s
  every : ∀ path s, t.At path s → s.kind.ChainOnly →
    ∃ p ∈ places, p.path = path ∧ p.chain.Makes c s

/-- Places chart a term, and those of embedded chains are in functions. -/
structure Seats (c : Converter) (places : List Place) (t : Term) :
    Prop extends Charts c places t where
  inside : ∀ p ∈ places, p.role = .embedded → t.Enclosed p.path

theorem not_at_leaf {d : Datum} {e : Edge} {path : Path}
    (h : (Term.datum d).At (e :: path) s) : False := by
  obtain ⟨u, hchild, -⟩ := h
  cases e with
  | arg i => cases hchild
  | named name => cases hchild

theorem charts_leaf (d : Datum) : Charts c [] (.datum d) where
  there := List.forall_mem_nil _
  every path s hat hkind := by
    have hdatum : ¬ Kind.ChainOnly .datum := by decide
    cases path with
    | nil =>
        rw [show s = .datum d from hat] at hkind
        exact (hdatum hkind).elim
    | cons e path => exact (not_at_leaf hat).elim

/-- What stands at an argument of each list stands at one of the other. -/
theorem forall₂_left {α β : Type} {R : α → β → Prop} {as : List α}
    {bs : List β} (h : List.Forall₂ R as bs) {i : Nat} {a : α}
    (ha : as[i]? = some a) : ∃ b, bs[i]? = some b ∧ R a b := by
  induction h generalizing i with
  | nil => cases ha
  | cons hab _ ih =>
      cases i with
      | zero =>
          cases ha
          exact ⟨_, rfl, hab⟩
      | succ i => exact ih ha

theorem forall₂_right {α β : Type} {R : α → β → Prop} {as : List α}
    {bs : List β} (h : List.Forall₂ R as bs) {i : Nat} {b : β}
    (hb : bs[i]? = some b) : ∃ a, as[i]? = some a ∧ R a b :=
  forall₂_left h.flip hb

theorem forall₂_mem_left {α β : Type} {R : α → β → Prop} {as : List α}
    {bs : List β} (h : List.Forall₂ R as bs) {a : α} (ha : a ∈ as) :
    ∃ b ∈ bs, R a b := by
  obtain ⟨i, hi⟩ := List.mem_iff_getElem?.mp ha
  obtain ⟨b, hb, hab⟩ := forall₂_left h hi
  exact ⟨b, List.mem_of_getElem? hb, hab⟩

theorem forall₂_mem_right {α β : Type} {R : α → β → Prop} {as : List α}
    {bs : List β} (h : List.Forall₂ R as bs) {b : β} (hb : b ∈ bs) :
    ∃ a ∈ as, R a b :=
  forall₂_mem_left h.flip hb

/-- What stands in arguments is charted from the node above them. -/
theorem there_apply (h : List.Forall₂ (Charts c) pss args) :
    ∀ p ∈ placesAt 0 pss, ∃ s, (Term.apply kind args optargs).At p.path s ∧
      p.chain.Makes c s := by
  intro p hp
  obtain ⟨i, ps, r, hps, hr, rfl⟩ := mem_placesAt.mp hp
  obtain ⟨a, ha, hcharts⟩ := forall₂_left h hps
  obtain ⟨s, hat, hmakes⟩ := hcharts.there r hr
  rw [Nat.zero_add]
  exact ⟨s, ⟨a, ha, hat⟩, hmakes⟩

theorem every_apply (h : List.Forall₂ (Charts c) pss args)
    (hleaf : ∀ o ∈ optargs, ∃ d, o.2 = .datum d) {e : Edge} {path : Path}
    (hat : (Term.apply kind args optargs).At (e :: path) s)
    (hkind : s.kind.ChainOnly) :
    ∃ p ∈ placesAt 0 pss, p.path = e :: path ∧ p.chain.Makes c s := by
  obtain ⟨u, hchild, hat⟩ := hat
  cases e with
  | arg i =>
      obtain ⟨ps, hps, hcharts⟩ := forall₂_right h hchild
      obtain ⟨r, hr, rfl, hmakes⟩ := hcharts.every path s hat hkind
      refine ⟨r.under (.arg i), mem_placesAt.mpr ?_, rfl, hmakes⟩
      exact ⟨i, ps, r, hps, hr, by rw [Nat.zero_add]⟩
  | named name =>
      -- Named arguments are leaves, and below a leaf there is nothing.
      obtain ⟨d, hd⟩ := hleaf (name, u) hchild
      replace hd : u = .datum d := hd
      rw [hd] at hat
      obtain ⟨p, hp, -⟩ := (charts_leaf (c := c) d).every path s hat hkind
      cases hp

/-- An operation that is not only made by chains is charted when its
    arguments are. -/
theorem charts_node (hkind : ¬ kind.ChainOnly)
    (h : List.Forall₂ (Charts c) pss args)
    (hleaf : ∀ o ∈ optargs, ∃ d, o.2 = .datum d) :
    Charts c (placesAt 0 pss) (.apply kind args optargs) where
  there := there_apply h
  every path s hat hs := by
    cases path with
    | nil =>
        rw [show s = .apply kind args optargs from hat] at hs
        exact (hkind hs).elim
    | cons e path => exact every_apply h hleaf hat hs

/-- The operation of a chain is charted by the chain itself and the places
    in its arguments. -/
theorem seats_chain {q : Query} (hq : q.Makes c (.apply kind args optargs))
    (h : List.Forall₂ (Seats c) pss args)
    (hleaf : ∀ o ∈ optargs, ∃ d, o.2 = .datum d) :
    (∀ role, Charts c (⟨[], role, q⟩ :: placesAt 0 pss)
      (.apply kind args optargs)) ∧
    ∀ p ∈ placesAt 0 pss, p.role = .embedded →
      (Term.apply kind args optargs).Enclosed p.path := by
  have hcharts : List.Forall₂ (Charts c) pss args :=
    h.imp fun _ _ hseats => hseats.toCharts
  refine ⟨fun role => ⟨?_, ?_⟩, ?_⟩
  · exact List.forall_mem_cons.mpr ⟨⟨_, rfl, hq⟩, there_apply hcharts⟩
  · intro path s hat hs
    cases path with
    | nil =>
        replace hat : s = .apply kind args optargs := hat
        subst hat
        exact ⟨_, .head _, rfl, hq⟩
    | cons e path =>
        obtain ⟨p, hp, hpath⟩ := every_apply hcharts hleaf hat hs
        exact ⟨p, .tail _ hp, hpath⟩
  · intro p hp hrole
    obtain ⟨i, ps, r, hps, hr, rfl⟩ := mem_placesAt.mp hp
    obtain ⟨a, ha, hseats⟩ := forall₂_left h hps
    rw [Nat.zero_add]
    exact enclosed_of_child ha (hseats.inside r hr hrole)

/-! ## Parts -/

/-- Whatever a part gives, places chart. -/
def Part.Charted (c : Converter) (places : List Place) (x : Part) : Prop :=
  ∀ env t, Gives (x env) t → Charts c places t

/-- Whatever a part of a chain gives, places chart. -/
def Part.Seated (c : Converter) (places : List Place) (x : Part) : Prop :=
  ∀ env t, Gives (x env) t → Seats c places t

/-- Whatever is given by name is a leaf. -/
def NamedLeaves (named : List (String × Part)) : Prop :=
  ∀ env optargs, NamedGive env named optargs →
    ∀ o ∈ optargs, ∃ d, o.2 = .datum d

theorem leaves_none : NamedLeaves [] := by
  intro env optargs h
  cases h
  exact List.forall_mem_nil _

theorem leaves_const {names : List (String × Term)}
    (h : ∀ e ∈ names, ∃ d, e.2 = .datum d) :
    NamedLeaves (constParts names) := by
  intro env optargs hgive
  rw [eq_of_constParts hgive]
  exact h

theorem leaves_base (c : Converter) (base : Option Value) :
    NamedLeaves (basePart c base) := by
  cases base with
  | none => exact leaves_none
  | some v =>
      intro env optargs h
      obtain ⟨o, rest, ⟨-, ho⟩, hrest, rfl⟩ :=
        List.forall₂_cons_left_iff.mp h
      cases hrest
      obtain ⟨d, -, hd⟩ := judge_leaf (gives_ofExcept ho)
      exact List.forall_mem_singleton.mpr ⟨d, hd⟩

/-- The term of a chain among the parts of an operation is among its
    arguments. -/
theorem chain_arg {parts : List Part} {named : List (String × Part)}
    {x : Part} {q : Query} (h : Assembled kind parts named x)
    (hs : Gives (x env) s) {i : Nat} (hi : parts[i]? = some (q.part c)) :
    ∃ rows, s.args[i]? = some rows ∧ Gives (q.part c env) rows := by
  obtain ⟨args, optargs, rfl, hargs, -⟩ := h env s hs
  exact forall₂_left hargs hi

/-- What holds of whatever each part gives holds of the arguments that the
    parts give. -/
theorem related_parts {R : List Place → Term → Prop} {parts : List Part}
    (h : List.Forall₂ (fun ps (x : Part) => ∀ env t, Gives (x env) t →
      R ps t) pss parts) (hgive : PartsGive env parts args) :
    List.Forall₂ R pss args := by
  induction h generalizing args with
  | nil =>
      cases hgive
      exact .nil
  | cons hx _ ih =>
      cases hgive with
      | cons ht hts => exact .cons (hx _ _ ht) (ih hts)

theorem charted_assembled {parts : List Part} {x : Part}
    (h : Assembled kind parts [] x) (hkind : ¬ kind.ChainOnly)
    (hparts : List.Forall₂ (Part.Charted c) pss parts) :
    Part.Charted c (placesAt 0 pss) x := by
  intro env t ht
  obtain ⟨args, optargs, rfl, hargs, hnamed⟩ := h env t ht
  exact charts_node hkind (related_parts hparts hargs)
    (leaves_none env optargs hnamed)

/-- A part that gives leaves has no places. -/
theorem seated_leaf {x : Part}
    (h : ∀ env t, Gives (x env) t → ∃ d, t = .datum d) :
    Part.Seated c [] x := by
  intro env t ht
  obtain ⟨d, rfl⟩ := h env t ht
  exact ⟨charts_leaf d, List.forall_mem_nil _⟩

theorem seated_literal (v : Value) : Part.Seated c [] (.literal c v) :=
  seated_leaf fun _ _ h =>
    (judge_leaf (gives_ofExcept h)).imp fun _ hd => hd.2

theorem seated_text (s : String) :
    Part.Seated c [] (.const (.text s)) :=
  seated_leaf fun _ _ h => ⟨_, gives_pure h⟩

theorem seated_member (use : SelectorUse) (f : RowFunc) :
    Part.Seated c [] (.result (f.judgeMember use)) := by
  refine seated_leaf ?_
  intro env t ht
  obtain ⟨name, -, rfl⟩ := judgeMember_leaf (gives_ofExcept ht)
  exact ⟨_, rfl⟩

/-! ## Expressions and functions -/

/-- What an expression gives is charted by its places. -/
def Expr.Charted (c : Converter) (e : Expr) : Prop :=
  Part.Charted c e.places (e.part c)

/-- What a chain gives is charted by its places, however it stands; and
    the chains embedded in it are in functions. -/
def Query.Charted (c : Converter) (q : Query) : Prop :=
  ∀ env t, Gives (q.part c env) t →
    (∀ role, Charts c (q.placesAs role) t) ∧
    ∀ p ∈ q.inner, p.role = .embedded → t.Enclosed p.path

/-- The numbers of a function are leaves. -/
theorem charts_numbers (ids : List Nat) :
    Charts c [] (.node .makeArray (ids.map .number)) := by
  have hpss : List.Forall₂ (Charts c) (ids.map fun _ => [])
      (ids.map .number) := by
    induction ids with
    | nil => exact .nil
    | cons i ids ih => exact .cons (charts_leaf _) ih
  have hnode : Charts c (placesAt 0 (ids.map fun _ => []))
      (.node .makeArray (ids.map .number)) :=
    charts_node (by decide) hpss (List.forall_mem_nil _)
  rwa [placesAt_nil (by simp)] at hnode

/-- A function is charted when its body is, and all its places are in the
    body. -/
theorem seated_func {f : Func} (h : f.body.Charted c) :
    Part.Seated c (placesAt 0 [[], f.body.places]) (f.part c) := by
  intro env t ht
  obtain ⟨first, body, hbody, rfl⟩ := gives_function ht
  refine ⟨?_, ?_⟩
  · exact charts_node (by decide)
      (.cons (charts_numbers _) (.cons (h _ _ hbody) .nil))
      (List.forall_mem_nil _)
  · -- The way to a place in the body leads through the function itself.
    rintro p hp -
    obtain ⟨r, -, rfl⟩ := mem_placesAt_body.mp hp
    exact ⟨[], r.path, _, rfl, rfl, rfl⟩

theorem seated_rowFunc {f : RowFunc} (h : f.toFunc.body.Charted c) :
    Part.Seated c f.places (f.toFunc.part c) := by
  rw [rowFunc_places]
  exact seated_func h

theorem seated_pairFunc {f : PairFunc} (h : f.toFunc.body.Charted c) :
    Part.Seated c f.places (f.toFunc.part c) := by
  rw [pairFunc_places]
  exact seated_func h

/-- A selector that is named has no chain in it. -/
theorem seated_key {k : SortKey} (h : k.body.Charted c) :
    Part.Seated c k.places (k.part c) := by
  obtain ⟨f, direction⟩ := k
  intro env t ht
  obtain ⟨args, optargs, rfl, hargs, hnamed⟩ :=
    assembled_key c f direction env t ht
  obtain ⟨key, rest, hkey, hrest, rfl⟩ :=
    List.forall₂_cons_left_iff.mp hargs
  cases hrest
  have hkind : ¬ direction.kind.ChainOnly := by
    cases direction <;> decide
  have hseats : Seats c f.places key := by
    rw [RowFunc.keyPart] at hkey
    cases hname : f.toFunc.memberName? with
    | none =>
        rw [hname] at hkey
        exact seated_rowFunc h env key (rowFunc_gives hkey)
    | some name =>
        rw [hname] at hkey
        rw [gives_pure hkey]
        obtain ⟨row, rfl⟩ := memberName_iff.mp hname
        exact ⟨charts_leaf _, List.forall_mem_nil _⟩
  refine ⟨charts_node hkind (.cons hseats.toCharts .nil)
    (leaves_none env optargs hnamed), ?_⟩
  intro p hp hrole
  obtain ⟨r, hr, rfl⟩ := mem_placesAt_one.mp hp
  exact enclosed_of_child rfl (hseats.inside r hr hrole)

theorem charted_items {es : List Expr} (h : ∀ e ∈ es, e.Charted c) :
    List.Forall₂ (Part.Charted c) (itemPlaces es)
      (es.map (Expr.part c)) := by
  rw [itemPlaces_eq, List.forall₂_map_left_iff, List.forall₂_map_right_iff,
    List.forall₂_same]
  exact h

theorem seated_keys {ks : List SortKey} (h : ∀ k ∈ ks, k.body.Charted c) :
    List.Forall₂ (Part.Seated c) (keyPlaces ks)
      (ks.map (SortKey.part c)) := by
  rw [keyPlaces_eq, List.forall₂_map_left_iff, List.forall₂_map_right_iff,
    List.forall₂_same]
  exact fun k hk => seated_key (h k hk)

/-- Members are charted under their names. -/
theorem charted_object {ms : List (String × Expr)}
    (h : ∀ m ∈ ms, m.2.Charted c) : (Expr.object ms).Charted c := by
  intro env t ht
  obtain ⟨out, ts, rfl, hperm, hts⟩ := gives_object c ht
  refine ⟨?_, ?_⟩
  · -- The members are given in the order written and sorted afterwards.
    intro p hp
    obtain ⟨m, hm, r, hr, rfl⟩ := mem_memberPlaces.mp hp
    obtain ⟨i, hi⟩ := List.mem_iff_getElem?.mp hm
    have hpart : (ms.map fun m => (m.1, m.2.part c))[i]?
        = some (m.1, m.2.part c) := by
      rw [List.getElem?_map, hi]
      rfl
    obtain ⟨o, ho, hname, hgive⟩ := forall₂_left hts hpart
    obtain ⟨s, hat, hmakes⟩ := (h m hm env o.2 hgive).there r hr
    have hmem : o ∈ out :=
      hperm.mem_iff.mpr (List.mem_iff_getElem?.mpr ⟨i, ho⟩)
    refine ⟨s, ⟨o.2, ?_, hat⟩, hmakes⟩
    show (m.1, o.2) ∈ out
    rw [show m.1 = o.1 from hname]
    exact hmem
  · intro path s hat hkind
    cases path with
    | nil =>
        have hobject : ¬ Kind.ChainOnly .makeObj := by decide
        rw [show s = .apply .makeObj [] out from hat] at hkind
        exact (hobject hkind).elim
    | cons e path =>
        obtain ⟨u, hchild, hat⟩ := hat
        cases e with
        | arg i => cases hchild
        | named name =>
            obtain ⟨part, hpart, hname, hgive⟩ :=
              mem_namedGive hts (hperm.mem_iff.mp hchild)
            obtain ⟨m, hm, rfl⟩ := List.mem_map.mp hpart
            obtain ⟨r, hr, rfl, hmakes⟩ :=
              (h m hm env u hgive).every path s hat hkind
            refine ⟨r.under (.named name), mem_memberPlaces.mpr ?_, rfl,
              hmakes⟩
            exact ⟨m, hm, r, hr, by rw [show m.1 = name from hname]⟩

/-- Calls are never of a kind that only chains make. -/
theorem charted_call {name : String} {es : List Expr}
    (h : ∀ e ∈ es, e.Charted c) : (Expr.call name es).Charted c := by
  intro env t ht
  have hjudge := call_judged c ht
  obtain ⟨call, hcall, -, -, hkind⟩ := call_of_judge hjudge
  have hall : ∀ call ∈ RemoteCall.all, ¬ call.kind.ChainOnly := by
    decide
  have hnot := hall call hcall
  rw [hkind] at hnot
  exact charted_assembled (assembled_call c hjudge) hnot
    (charted_items h) env t ht

/-! ## Chains -/

/-- As the source of an operation a chain is charted with all in it. -/
theorem seated_source {q : Query} (h : q.Charted c) :
    Part.Seated c (q.placesAs .source) (q.part c) := by
  intro env t ht
  obtain ⟨hcharts, hinside⟩ := h env t ht
  refine ⟨hcharts .source, List.forall_mem_cons.mpr ⟨?_, hinside⟩⟩
  intro hrole
  cases hrole

/-- A chain is charted when its parts are. -/
theorem charted_form {q : Query} {parts : List Part}
    {named : List (String × Part)}
    (h : Assembled kind parts named (q.part c)) (hnamed : NamedLeaves named)
    (hparts : List.Forall₂ (Part.Seated c) pss parts)
    (hinner : q.inner = placesAt 0 pss) : q.Charted c := by
  intro env t ht
  obtain ⟨args, optargs, rfl, hargs, hoptargs⟩ := h env t ht
  simp only [Query.placesAs, hinner]
  exact seats_chain ⟨env, ht⟩ (related_parts hparts hargs)
    (hnamed env optargs hoptargs)

/-- A term without anything that only chains make. -/
theorem seats_bare (hkind : ¬ kind.ChainOnly)
    (h : ∀ t ∈ args, Seats c [] t)
    (hleaf : ∀ o ∈ optargs, ∃ d, o.2 = .datum d) :
    Seats c [] (.apply kind args optargs) := by
  have hcharts : List.Forall₂ (Charts c)
      (List.replicate args.length []) args :=
    forall₂_replicate fun t ht => (h t ht).toCharts
  have hnode := charts_node hkind hcharts hleaf
  rw [placesAt_nil fun ps hps => List.eq_of_mem_replicate hps] at hnode
  exact ⟨hnode, List.forall_mem_nil _⟩

theorem seats_text (s : String) : Seats c [] (.text s) :=
  ⟨charts_leaf _, List.forall_mem_nil _⟩

theorem seats_database (name : String) :
    Seats c [] (databaseTerm name) :=
  seats_bare (by decide) (List.forall_mem_singleton.mpr (seats_text name))
    (List.forall_mem_nil _)

/-- A table is named after its database, if one is given. -/
theorem seats_tableNames (table : Table) :
    ∀ t ∈ (table.db.map databaseTerm).toList ++ [.text table.name],
      Seats c [] t := by
  have hname := seats_text (c := c) table.name
  cases table.db with
  | none => exact List.forall_mem_singleton.mpr hname
  | some db =>
      exact List.forall_mem_cons.mpr ⟨seats_database db,
        List.forall_mem_singleton.mpr hname⟩

theorem seats_table (table : Table) : Seats c [] table.term := by
  rw [table_term]
  exact seats_bare (by decide) (seats_tableNames table) (leaf_flagNames _ _)

/-- Roots have no chains in them: below the top there are references and
    leaves. -/
theorem charted_root (r : Root) : (Query.root r).Charted c := by
  intro env t ht
  have hjudge : r.judge c = .ok t := gives_ofExcept ht
  have happly : ∀ {kind args optargs}, t = .apply kind args optargs →
      (∀ t ∈ args, Seats c [] t) →
      (∀ o ∈ optargs, ∃ d, o.2 = .datum d) →
      (∀ role, Charts c (Query.placesAs role (.root r)) t) ∧
        ∀ p ∈ (Query.root r).inner, p.role = .embedded →
          t.Enclosed p.path := by
    rintro kind args optargs rfl hargs hleaf
    have hseats := seats_chain ⟨env, ht⟩ (forall₂_replicate hargs) hleaf
    rw [placesAt_nil fun ps hps => List.eq_of_mem_replicate hps] at hseats
    exact hseats
  cases r with
  | literal v =>
      obtain ⟨d, -, rfl⟩ := judge_leaf hjudge
      refine ⟨fun role => ⟨?_, ?_⟩, List.forall_mem_nil _⟩
      · exact List.forall_mem_singleton.mpr ⟨_, rfl, env, ht⟩
      · intro path s hat hkind
        obtain ⟨p, hp, -⟩ := (charts_leaf (c := c) d).every path s hat hkind
        cases hp
  | literalSeq vs =>
      obtain ⟨items, hitems, hok⟩ := bind_eq_ok.mp hjudge
      refine happly (Except.ok.inj hok).symm ?_ (List.forall_mem_nil _)
      intro t ht
      obtain ⟨d, rfl⟩ := (admits_literals hitems t ht).2
      exact ⟨charts_leaf d, List.forall_mem_nil _⟩
  | insert table v upsert =>
      obtain ⟨value, hvalue, hok⟩ := bind_eq_ok.mp hjudge
      obtain ⟨d, -, rfl⟩ := judge_leaf hvalue
      have hterm := (Except.ok.inj hok).symm
      rw [insert_term] at hterm
      refine happly hterm (List.forall_mem_cons.mpr ⟨seats_table table,
        List.forall_mem_singleton.mpr ?_⟩) (leaf_flagNames _ _)
      exact ⟨charts_leaf d, List.forall_mem_nil _⟩
  | table table =>
      have hterm := (Except.ok.inj hjudge).symm
      rw [table_term] at hterm
      exact happly hterm (seats_tableNames table) (leaf_flagNames _ _)
  | dbList | now =>
      exact happly (Except.ok.inj hjudge).symm (List.forall_mem_nil _)
        (List.forall_mem_nil _)
  | db name | dbCreate name | dbDrop name =>
      exact happly (Except.ok.inj hjudge).symm
        (List.forall_mem_singleton.mpr (seats_text name))
        (List.forall_mem_nil _)
  | tableList db =>
      exact happly (Except.ok.inj hjudge).symm
        (List.forall_mem_singleton.mpr (seats_database db))
        (List.forall_mem_nil _)
  | tableCreate db name | tableDrop db name =>
      exact happly (Except.ok.inj hjudge).symm
        (List.forall_mem_cons.mpr ⟨seats_database db,
          List.forall_mem_singleton.mpr (seats_text name)⟩)
        (List.forall_mem_nil _)
  | indexList table =>
      exact happly (Except.ok.inj hjudge).symm
        (List.forall_mem_singleton.mpr (seats_table table))
        (List.forall_mem_nil _)
  | indexCreate table name | indexDrop table name =>
      exact happly (Except.ok.inj hjudge).symm
        (List.forall_mem_cons.mpr ⟨seats_table table,
          List.forall_mem_singleton.mpr (seats_text name)⟩)
        (List.forall_mem_nil _)

/-- The literals of a step add no place. -/
theorem charted_step {q : Query} (s : Step) (h : q.Charted c) :
    (Query.step q s).Charted c := by
  have hliterals : List.Forall₂ (Part.Seated c)
      (s.literals.map fun _ => []) (s.literals.map (.literal c)) := by
    rw [List.forall₂_map_left_iff, List.forall₂_map_right_iff,
      List.forall₂_same]
    exact fun v _ => seated_literal v
  refine charted_form (assembled_step c q s)
    (leaves_const (step_names_leaf s))
    (.cons (seated_source h) hliterals) ?_
  rw [placesAt, placesAt_nil (k := 0 + 1)]
  · rfl
  · intro ps hps
    obtain ⟨v, -, rfl⟩ := List.mem_map.mp hps
    rfl

/-- Every form of node is charted by its places. -/
theorem charted_hereditary (c : Converter) :
    Hereditary (Expr.Charted c) (Query.Charted c) where
  param p env t ht := by
    obtain ⟨id, -, rfl⟩ := gives_param ht
    have hnumber : List.Forall₂ (Charts c) [[]] [Term.number id] :=
      .cons (charts_leaf _) .nil
    exact charts_node (by decide) hnumber (List.forall_mem_nil _)
  literal v env t ht := (seated_literal v env t ht).toCharts
  field e name he := by
    have hparts : List.Forall₂ (Part.Charted c) [e.places, []]
        [e.part c, .const (.text name)] :=
      .cons he (.cons (fun env t h => (seated_text name env t h).toCharts)
        .nil)
    have hfield : Part.Charted c (placesAt 0 [e.places, []])
        (Expr.part c (.field e name)) :=
      charted_assembled (assembled_field c e name) (by decide) hparts
    exact hfield
  compare op a b ha hb := by
    have hkind : ¬ op.kind.ChainOnly := by cases op <;> decide
    exact charted_assembled (assembled_compare c op a b) hkind
      (.cons ha (.cons hb .nil))
  arith op a b ha hb := by
    have hkind : ¬ op.kind.ChainOnly := by cases op <;> decide
    exact charted_assembled (assembled_arith c op a b) hkind
      (.cons ha (.cons hb .nil))
  all es hes :=
    charted_assembled (assembled_all c es) (by decide) (charted_items hes)
  any es hes :=
    charted_assembled (assembled_any c es) (by decide) (charted_items hes)
  not e he :=
    charted_assembled (assembled_not c e) (by decide) (.cons he .nil)
  array es hes :=
    charted_assembled (assembled_array c es) (by decide)
      (charted_items hes)
  object _ hms := charted_object hms
  call _ _ hes := charted_call hes
  subquery _ _ hq env t ht := (hq env t ht).1 .embedded
  root r := charted_root r
  indexCreateWith table name key hkey :=
    charted_form (assembled_indexCreateWith c table name key) leaves_none
      (.cons (fun env t h => gives_pure h ▸ seats_table table)
        (.cons (seated_text name) (.cons (seated_rowFunc hkey) .nil))) rfl
  step _ s hq := charted_step s hq
  rowStep q s f hq hf :=
    charted_form (assembled_rowStep c q s f)
      (leaves_const (rowStep_names_leaf s))
      (.cons (seated_source hq) (.cons (seated_rowFunc hf) .nil)) rfl
  orderBy q first others hq hfirst hothers :=
    charted_form (assembled_orderBy c q first others) leaves_none
      (.cons (seated_source hq)
        (.cons (seated_key hfirst) (seated_keys hothers))) rfl
  union a b ha hb :=
    charted_form (assembled_union c a b) leaves_none
      (.cons (seated_source ha) (.cons (seated_source hb) .nil)) rfl
  reduce q f base hq hf :=
    charted_form (assembled_reduce c q f base) (leaves_base c base)
      (.cons (seated_source hq) (.cons (seated_pairFunc hf) .nil)) rfl
  groupBy q reduction key hq hkey := by
    have hobject : Part.Seated c [] (.result reduction.judge) := by
      intro env t ht
      obtain ⟨d, rfl, -⟩ := judge_reduction (gives_ofExcept ht)
      exact seats_bare (by decide) (List.forall_mem_nil _)
        (List.forall_mem_singleton.mpr ⟨d, rfl⟩)
    have hparts : List.Forall₂ (Part.Seated c)
        [q.placesAs .source, key.places, []]
        [q.part c, key.toFunc.part c, .result reduction.judge] :=
      .cons (seated_source hq)
        (.cons (seated_rowFunc hkey) (.cons hobject .nil))
    exact charted_form (assembled_groupBy c q reduction key) leaves_none
      hparts rfl
  groupedMapReduce q g m r base hq hg hm hr :=
    charted_form (assembled_groupedMapReduce c q g m r base)
      (leaves_base c base)
      (.cons (seated_source hq) (.cons (seated_rowFunc hg)
        (.cons (seated_rowFunc hm) (.cons (seated_pairFunc hr) .nil)))) rfl
  join kind a b f ha hb hf :=
    charted_form (assembled_join c kind a b f) leaves_none
      (.cons (seated_source ha)
        (.cons (seated_source hb) (.cons (seated_pairFunc hf) .nil))) rfl
  eqJoin a member b index ha hb := by
    refine charted_form (assembled_eqJoin c a member b index)
      (leaves_const ?_)
      (.cons (seated_source ha) (.cons (seated_member .eqJoin member)
        (.cons (seated_source hb) .nil))) rfl
    intro e he
    obtain ⟨s, -, rfl⟩ := List.mem_map.mp he
    exact ⟨_, rfl⟩

end ChainQuery
