import ChainQuery.Proofs.Visits

/-! # Traces — occasions in the order of visits

    Each node of a chain is traced once, on the last of its own occasions.
    `Tells` says of occasions and visits that they go together: the nodes
    that are traced are the nodes that are visited, in the same order, the
    occasions of each stand together, and where nothing is in the way no
    two nodes stand in one place.  It passes through arguments
    (`tells_args`) and members (`tells_members`), and a node comes to be
    built after what is inside it (`tells_node`), so every form of node
    tells its visits (`tells_hereditary`). -/

namespace ChainQuery

open Term Translation

/-! ## What occasions trace -/

/-- The event of a node that is built. -/
def Place.event (p : Place) : Event :=
  .built p.chain.kind p.chain.arity

/-- The node that is traced on an occasion. -/
def Occasion.trace? : Occasion → Option Event
  | .literal _ => none
  | .built kind args => some (.built kind args)
  | .stop _ => none

/-- The nodes that are traced on occasions. -/
def traces (os : List Occasion) : List Event :=
  os.filterMap Occasion.trace?

theorem traces_append (xs ys : List Occasion) :
    traces (xs ++ ys) = traces xs ++ traces ys :=
  List.filterMap_append

variable {xs ys os : List Occasion} {vs ws : List Place}

/-- The occasions of a node stand together, its own the last of them, and
    of the nodes traced it is the `i`-th. -/
def BuiltAt (os : List Occasion) (i : Nat) (q : Query) : Prop :=
  ∃ declared inner before after,
    q.occasions declared = inner ++ [.built q.kind q.arity] ∧
      os = (before ++ inner) ++ .built q.kind q.arity :: after ∧
      (traces (before ++ inner)).length = i

theorem builtAt_left {i : Nat} {q : Query} (h : BuiltAt xs i q) :
    BuiltAt (xs ++ ys) i q := by
  obtain ⟨declared, inner, before, after, hown, rfl, hcount⟩ := h
  refine ⟨declared, inner, before, after ++ ys, hown, ?_, hcount⟩
  rw [List.append_assoc, List.cons_append]

theorem builtAt_right {i : Nat} {q : Query} (h : BuiltAt ys i q) :
    BuiltAt (xs ++ ys) ((traces xs).length + i) q := by
  obtain ⟨declared, inner, before, after, hown, rfl, hcount⟩ := h
  refine ⟨declared, inner, xs ++ before, after, hown, ?_, ?_⟩
  · simp only [List.append_assoc]
  · rw [List.append_assoc, traces_append, List.length_append, hcount]

/-- Occasions tell visits: they trace their nodes, each of them with the
    other occasions of its own chain right before it; and what stops them
    is an expression that has no term.  Where nothing is in the way, every
    node has a place of its own. -/
structure Tells (os : List Occasion) (vs : List Place) : Prop where
  traced : traces os = vs.map Place.event
  nested : Nested vs
  builtAt : ∀ (i : Nat) v, vs[i]? = some v → BuiltAt os i v.chain
  distinct : ∀ c, obstacles c os = [] → (vs.map Place.path).Nodup
  stops : ∀ e, .stop e ∈ os → ∃ u, e = .unsupported u

/-- Literals, and what has no term, trace nothing. -/
theorem tells_silent (h : traces os = [])
    (hstops : ∀ e, .stop e ∈ os → ∃ u, e = .unsupported u) :
    Tells os [] where
  traced := h
  nested := nested_nil
  builtAt _ _ hv := by cases hv
  distinct _ _ := .nil
  stops := hstops

theorem tells_nil : Tells [] [] :=
  tells_silent rfl fun _ h => absurd h List.not_mem_nil

theorem tells_append (h : Tells xs vs) (h' : Tells ys ws)
    (hapart : ∀ c, obstacles c (xs ++ ys) = [] →
      ∀ v ∈ vs, ∀ w ∈ ws, v.path ≠ w.path) :
    Tells (xs ++ ys) (vs ++ ws) where
  traced := by rw [traces_append, List.map_append, h.traced, h'.traced]
  nested := nested_append h.nested h'.nested
  builtAt i v hv := by
    by_cases hi : i < vs.length
    · rw [List.getElem?_append_left hi] at hv
      exact builtAt_left (h.builtAt i v hv)
    · -- Counted among all nodes, those traced on the left come first.
      have hle := Nat.not_lt.mp hi
      rw [List.getElem?_append_right hle] at hv
      have hlater : BuiltAt (xs ++ ys)
          ((traces xs).length + (i - vs.length)) v.chain :=
        builtAt_right (h'.builtAt _ v hv)
      rw [h.traced, List.length_map, Nat.add_sub_of_le hle] at hlater
      exact hlater
  distinct c hnone := by
    have hparts := hnone
    rw [obstacles_append] at hparts
    obtain ⟨hxs, hys⟩ := List.append_eq_nil_iff.mp hparts
    rw [List.map_append, List.nodup_append]
    refine ⟨h.distinct c hxs, h'.distinct c hys, ?_⟩
    intro path hpath path' hpath'
    obtain ⟨v, hv, rfl⟩ := List.mem_map.mp hpath
    obtain ⟨w, hw, rfl⟩ := List.mem_map.mp hpath'
    exact hapart c hnone v hv w hw
  stops e he := (List.mem_append.mp he).elim (h.stops e) (h'.stops e)

theorem tells_under (e : Edge) (h : Tells os vs) :
    Tells os (vs.map (.under e)) where
  traced := by
    rw [h.traced, List.map_map]
    rfl
  nested := nested_under e h.nested
  builtAt i v hv := by
    rw [List.getElem?_map] at hv
    obtain ⟨r, hr, rfl⟩ := Option.map_eq_some_iff.mp hv
    exact h.builtAt i r hr
  distinct c hnone := by
    have hpaths : (vs.map (.under e)).map Place.path
        = (vs.map Place.path).map (e :: ·) := by
      rw [List.map_map, List.map_map]
      rfl
    rw [hpaths]
    exact List.Pairwise.map (e :: ·)
      (fun _ _ hne heq => hne (List.cons.inj heq).2) (h.distinct c hnone)
  stops := h.stops

/-- The occasions of arguments in sequence. -/
theorem tells_args {k : Nat} {vss : List (List Place)} (h : Tells xs vs)
    (hrest : Tells ys (placesAt (k + 1) vss)) :
    Tells (xs ++ ys) (placesAt k (vs :: vss)) :=
  tells_append (tells_under _ h) hrest fun _ _ v hv w hw heq => by
    obtain ⟨r, -, rfl⟩ := List.mem_map.mp hv
    obtain ⟨i, ps, r', -, -, rfl⟩ := mem_placesAt.mp hw
    have hedge : Edge.arg k = .arg (k + 1 + i) := (List.cons.inj heq).1
    have hindex := Edge.arg.inj hedge
    omega

theorem tells_last_arg {k : Nat} (h : Tells xs vs) :
    Tells xs (placesAt k [vs]) := by
  have hargs : Tells (xs ++ []) (placesAt k [vs]) :=
    tells_args h tells_nil
  rwa [List.append_nil] at hargs

/-- An argument that traces nothing. -/
theorem tells_silent_arg {k : Nat} {vss : List (List Place)}
    (h : Tells os (placesAt (k + 1) vss)) :
    Tells os (placesAt k ([] :: vss)) :=
  h

/-- What is inside a node is not in its place. -/
theorem path_of_earlier {q : Query} : ∀ v ∈ q.earlier, v.path ≠ [] := by
  intro v hv
  have hargs : ∀ {k vss}, v ∈ placesAt k vss → v.path ≠ [] := by
    intro k vss hmem
    obtain ⟨i, ps, r, -, -, rfl⟩ := mem_placesAt.mp hmem
    exact List.cons_ne_nil _ _
  have hunder : ∀ {e} {vs : List Place},
      v ∈ vs.map (Place.under e) → v.path ≠ [] := by
    intro e vs hmem
    obtain ⟨r, -, rfl⟩ := List.mem_map.mp hmem
    exact List.cons_ne_nil _ _
  cases q with
  | root r =>
      cases r with
      | table t =>
          obtain ⟨name, -, rfl⟩ := List.mem_map.mp hv
          exact List.cons_ne_nil _ _
      | tableCreate | tableDrop | tableList =>
          rw [List.mem_singleton.mp hv]
          exact List.cons_ne_nil _ _
      | indexCreate | indexDrop | indexList | insert => exact hunder hv
      | _ => cases hv
  | _ => exact hargs hv

/-- A node comes to be built after what is inside it. -/
theorem tells_node {q : Query} (declared : List Param) (role : Role)
    (h : Tells os q.earlier)
    (hown : q.occasions declared
      = os ++ [.built q.kind q.arity]) :
    Tells (q.occasions declared) (q.earlier ++ [⟨[], role, q⟩]) where
  traced := by
    rw [hown, traces_append, h.traced, List.map_append]
    rfl
  nested := nested_last h.nested role
  builtAt i v hv := by
    by_cases hi : i < q.earlier.length
    · rw [List.getElem?_append_left hi] at hv
      rw [hown]
      exact builtAt_left (h.builtAt i v hv)
    · have hle := Nat.not_lt.mp hi
      rw [List.getElem?_append_right hle] at hv
      cases hlast : i - q.earlier.length with
      | zero =>
          rw [hlast] at hv
          cases hv
          refine ⟨declared, os, [], [], hown, hown, ?_⟩
          rw [List.nil_append, h.traced, List.length_map]
          exact Nat.le_antisymm hle (Nat.sub_eq_zero_iff_le.mp hlast)
      | succ k =>
          rw [hlast] at hv
          cases hv
  distinct c hnone := by
    rw [hown, obstacles_append] at hnone
    obtain ⟨hinner, -⟩ := List.append_eq_nil_iff.mp hnone
    rw [List.map_append, List.nodup_append]
    refine ⟨h.distinct c hinner, List.pairwise_singleton _ _, ?_⟩
    intro path hpath path' hpath'
    obtain ⟨v, hv, rfl⟩ := List.mem_map.mp hpath
    cases List.mem_singleton.mp hpath'
    exact path_of_earlier v hv
  stops e he := by
    rw [hown] at he
    rcases List.mem_append.mp he with he | he
    · exact h.stops e he
    · cases List.mem_singleton.mp he

theorem tells_then_silent (h : Tells xs vs) (h' : Tells ys []) :
    Tells (xs ++ ys) vs := by
  have hall := tells_append h h' fun _ _ _ _ w hw => by cases hw
  rwa [List.append_nil] at hall

theorem tells_append_silent (h : Tells xs []) (h' : Tells ys ws) :
    Tells (xs ++ ys) ws :=
  tells_append h h' fun _ _ v hv => by cases hv

theorem tells_literals (literals : List Value) :
    Tells (literalOccasions literals) [] := by
  refine tells_silent ?_ fun e he => ?_
  · rw [traces, literalOccasions, List.filterMap_map]
    exact List.filterMap_eq_nil_iff.mpr fun _ _ => rfl
  · obtain ⟨v, -, hv⟩ := List.mem_map.mp he
    cases hv

theorem tells_stops {es : List TermError}
    (h : ∀ e ∈ es, ∃ u, e = .unsupported u) :
    Tells (es.map .stop) [] := by
  refine tells_silent ?_ fun e he => ?_
  · rw [traces, List.filterMap_map]
    exact List.filterMap_eq_nil_iff.mpr fun _ _ => rfl
  · obtain ⟨e', he', heq⟩ := List.mem_map.mp he
    cases heq
    exact h e he'

theorem tells_unsupported (u : Unsupported) :
    Tells [.stop (.unsupported u)] [] := by
  have hstop : ∀ e ∈ [TermError.unsupported u], ∃ v, e = .unsupported v :=
    List.forall_mem_singleton.mpr ⟨u, rfl⟩
  exact tells_stops hstop

/-! ## Roots and selectors -/

theorem tells_database (name : String) :
    Tells [.built .db 1] [⟨[], .source, .root (.db name)⟩] :=
  tells_node (q := .root (.db name)) [] .source tells_nil rfl

/-- A table comes after its database. -/
theorem tells_table (t : Table) (role : Role) :
    Tells t.occasions (t.references ++ [⟨[], role, .root (.table t)⟩]) := by
  obtain ⟨db, name, useOutdated⟩ := t
  cases db with
  | none =>
      exact tells_node (q := .root (.table ⟨none, name, useOutdated⟩))
        [] role tells_nil rfl
  | some db =>
      exact tells_node (q := .root (.table ⟨some db, name, useOutdated⟩))
        [] role (tells_under (.arg 0) (tells_database db)) rfl

theorem tells_root (r : Root) (declared : List Param) (role : Role) :
    Tells (Query.occasions declared (.root r))
      (Query.visitsAs role (.root r)) := by
  cases r with
  | db | dbCreate | dbDrop | dbList | now =>
      exact tells_node declared role tells_nil rfl
  | table t => exact tells_table t role
  | tableCreate db name | tableDrop db name | tableList db =>
      exact tells_node declared role
        (tells_under (.arg 0) (tells_database db)) rfl
  | indexCreate t name | indexDrop t name | indexList t =>
      exact tells_node declared role
        (tells_under (.arg 0) (tells_table t .source)) rfl
  | literal v => exact tells_literals [v]
  | literalSeq vs => exact tells_node declared role (tells_literals vs) rfl
  | insert t v upsert =>
      exact tells_node declared role (tells_then_silent
        (tells_under (.arg 0) (tells_table t .source)) (tells_literals [v]))
        (List.append_assoc _ _ _).symm

theorem unsupported_of_call {name : String} {given : Nat} :
    ∀ e ∈ RemoteCall.violations name given, ∃ u, e = .unsupported u := by
  rw [RemoteCall.violations]
  cases RemoteCall.find? name with
  | none => exact List.forall_mem_singleton.mpr ⟨_, rfl⟩
  | some call =>
      by_cases ha : call.arity = given
      · simp only [if_pos ha]
        exact List.forall_mem_nil _
      · simp only [if_neg ha]
        exact List.forall_mem_singleton.mpr ⟨_, rfl⟩

theorem unsupported_of_member {use : SelectorUse} {f : RowFunc} :
    ∀ e ∈ f.memberViolations use, ∃ u, e = .unsupported u := by
  rw [RowFunc.memberViolations]
  cases f.toFunc.memberName? with
  | some name => exact List.forall_mem_nil _
  | none => exact List.forall_mem_singleton.mpr ⟨_, rfl⟩

theorem unsupported_of_reduction {r : Reduction} :
    ∀ e ∈ r.violations, ∃ u, e = .unsupported u := by
  cases r with
  | count => exact List.forall_mem_nil _
  | sum f | average f => exact unsupported_of_member

/-! ## Expressions and chains -/

/-- The occasions of an expression tell its visits. -/
def Expr.Tells (e : Expr) : Prop :=
  ∀ declared, ChainQuery.Tells (e.occasions declared) e.visits

/-- The occasions of a chain tell its visits. -/
def Query.Tells (q : Query) : Prop :=
  ∀ declared role,
    ChainQuery.Tells (q.occasions declared) (q.visitsAs role)

variable {declared : List Param}

theorem tells_items {es : List Expr} (h : ∀ e ∈ es, e.Tells) (k : Nat) :
    Tells (itemOccasions declared es) (placesAt k (itemVisits es)) := by
  induction es generalizing k with
  | nil => exact tells_nil
  | cons e es ih =>
      obtain ⟨he, hes⟩ := List.forall_mem_cons.mp h
      exact tells_args (he declared) (ih hes (k + 1))

/-- What is visited in members is under their names. -/
theorem mem_memberVisits {ms : List (String × Expr)} {w : Place}
    (h : w ∈ memberVisits ms) :
    ∃ m ∈ ms, ∃ r, w = Place.under (.named m.1) r := by
  induction ms with
  | nil => cases h
  | cons m ms ih =>
      rw [memberVisits] at h
      rcases List.mem_append.mp h with h | h
      · obtain ⟨r, -, rfl⟩ := List.mem_map.mp h
        exact ⟨m, .head _, r, rfl⟩
      · obtain ⟨m', hm', r, rfl⟩ := ih h
        exact ⟨m', .tail _ hm', r, rfl⟩

/-- Members that nothing is in the way of have names that did not occur
    earlier. -/
theorem names_of_unobstructed {c : Converter} {ms : List (String × Expr)}
    {earlier : List String}
    (h : obstacles c (memberOccasions declared earlier ms) = []) :
    ∀ m ∈ ms, m.1 ∉ earlier := by
  induction ms generalizing earlier with
  | nil => exact List.forall_mem_nil _
  | cons m ms ih =>
      obtain ⟨name, e⟩ := m
      rw [memberOccasions, obstacles_append, obstacles_append] at h
      obtain ⟨-, h⟩ := List.append_eq_nil_iff.mp h
      obtain ⟨hname, hrest⟩ := List.append_eq_nil_iff.mp h
      refine List.forall_mem_cons.mpr ⟨fun hmem => ?_, ?_⟩
      · rw [if_pos hmem] at hname
        cases hname
      · intro m hm hmem
        exact ih hrest m hm (List.mem_cons_of_mem _ hmem)

theorem tells_members {ms : List (String × Expr)}
    (h : ∀ m ∈ ms, m.2.Tells) (earlier : List String) :
    Tells (memberOccasions declared earlier ms) (memberVisits ms) := by
  induction ms generalizing earlier with
  | nil => exact tells_nil
  | cons m ms ih =>
      obtain ⟨name, e⟩ := m
      obtain ⟨he, hms⟩ := List.forall_mem_cons.mp h
      rw [memberOccasions, memberVisits]
      have hrest : Tells ((if name ∈ earlier then
          [.stop (.unsupported (.duplicateMember name))] else []) ++
          memberOccasions declared (name :: earlier) ms)
          (memberVisits ms) := by
        have hothers := ih hms (name :: earlier)
        by_cases hname : name ∈ earlier
        · rw [if_pos hname]
          exact tells_append_silent (tells_unsupported _) hothers
        · rw [if_neg hname]
          exact hothers
      refine tells_append (tells_under _ (he declared)) hrest ?_
      -- In one place with a later member they would have one name, and
      -- the later of them would be a stop.
      intro c hnone v hv w hw heq
      obtain ⟨r, -, rfl⟩ := List.mem_map.mp hv
      obtain ⟨m, hm, r', rfl⟩ := mem_memberVisits hw
      have hedge : Edge.named name = .named m.1 := (List.cons.inj heq).1
      rw [obstacles_append, obstacles_append] at hnone
      obtain ⟨-, hlater⟩ := List.append_eq_nil_iff.mp hnone
      obtain ⟨-, hlater⟩ := List.append_eq_nil_iff.mp hlater
      refine names_of_unobstructed hlater m hm ?_
      rw [← Edge.named.inj hedge]
      exact List.mem_cons_self

theorem tells_rowFunc {f : RowFunc} (h : f.toFunc.body.Tells) :
    Tells (f.occasions declared) f.visits := by
  obtain ⟨row, body⟩ := f
  exact tells_silent_arg (tells_last_arg (h _))

theorem tells_pairFunc {f : PairFunc} (h : f.toFunc.body.Tells) :
    Tells (f.occasions declared) f.visits := by
  obtain ⟨left, right, body⟩ := f
  exact tells_silent_arg (tells_last_arg (h _))

/-- A key that goes by a name has no nodes. -/
theorem tells_key {k : SortKey} (h : k.body.Tells) :
    Tells (k.occasions declared) k.visits := by
  obtain ⟨selector, direction⟩ := k
  rw [SortKey.occasions, SortKey.visits]
  cases hname : selector.toFunc.memberName? with
  | some name =>
      obtain ⟨row, rfl⟩ := memberName_iff.mp hname
      exact tells_nil
  | none => exact tells_last_arg (tells_rowFunc h)

theorem tells_keys {ks : List SortKey} (h : ∀ k ∈ ks, k.body.Tells)
    (k : Nat) :
    Tells (keyOccasions declared ks) (placesAt k (keyVisits ks)) := by
  induction ks generalizing k with
  | nil => exact tells_nil
  | cons key ks ih =>
      obtain ⟨hkey, hks⟩ := List.forall_mem_cons.mp h
      exact tells_args (tells_key hkey) (ih hks (k + 1))

/-- Every form of node tells its visits. -/
theorem tells_hereditary : Hereditary Expr.Tells Query.Tells where
  param p declared := by
    rw [Expr.occasions, Expr.visits]
    by_cases hp : p ∈ declared
    · rw [if_pos hp]
      exact tells_nil
    · rw [if_neg hp]
      exact tells_unsupported _
  literal v _ := tells_literals [v]
  field _ _ he declared := tells_last_arg (he declared)
  compare _ _ _ ha hb declared :=
    tells_args (ha declared) (tells_last_arg (hb declared))
  arith _ _ _ ha hb declared :=
    tells_args (ha declared) (tells_last_arg (hb declared))
  all _ hes _ := tells_items hes 0
  any _ hes _ := tells_items hes 0
  not _ he declared := tells_last_arg (he declared)
  array _ hes _ := tells_items hes 0
  object _ hms _ := tells_members hms []
  call _ _ hes _ :=
    tells_append_silent (tells_stops unsupported_of_call)
      (tells_items hes 0)
  subquery _ _ hq declared := hq declared .embedded
  root r declared role := tells_root r declared role
  indexCreateWith t _ _ hkey declared role :=
    tells_node declared role
      (tells_args (tells_table t .source)
        (tells_silent_arg (tells_last_arg (tells_rowFunc hkey))))
      (List.append_assoc _ _ _).symm
  step _ s hq declared role :=
    tells_node declared role
      (tells_then_silent (tells_last_arg (hq declared .source))
        (tells_literals s.carried))
      (List.append_assoc _ _ _).symm
  rowStep _ _ _ hq hf declared role :=
    tells_node declared role
      (tells_args (hq declared .source)
        (tells_last_arg (tells_rowFunc hf)))
      (List.append_assoc _ _ _).symm
  orderBy _ _ _ hq hfirst hothers declared role :=
    tells_node declared role
      (tells_args (hq declared .source)
        (tells_args (tells_key hfirst) (tells_keys hothers 2)))
      (by simp only [Query.occasions, List.append_assoc]; rfl)
  union _ _ ha hb declared role :=
    tells_node declared role
      (tells_args (ha declared .source)
        (tells_last_arg (hb declared .source)))
      (List.append_assoc _ _ _).symm
  reduce _ _ base hq hf declared role :=
    tells_node declared role
      (tells_args (hq declared .source)
        (tells_then_silent (tells_last_arg (tells_pairFunc hf))
          (tells_literals base.toList)))
      (by simp only [Query.occasions, List.append_assoc]; rfl)
  groupBy _ _ _ hq hkey declared role :=
    tells_node declared role
      (tells_args (hq declared .source)
        (tells_then_silent (tells_last_arg (tells_rowFunc hkey))
          (tells_stops unsupported_of_reduction)))
      (by simp only [Query.occasions, List.append_assoc]; rfl)
  groupedMapReduce _ _ _ _ base hq hg hm hr declared role :=
    tells_node declared role
      (tells_args (hq declared .source)
        (tells_args (tells_rowFunc hg) (tells_args (tells_rowFunc hm)
          (tells_then_silent (tells_last_arg (tells_pairFunc hr))
            (tells_literals base.toList)))))
      (by simp only [Query.occasions, List.append_assoc]; rfl)
  join _ _ _ _ ha hb hf declared role :=
    tells_node declared role
      (tells_args (ha declared .source) (tells_args (hb declared .source)
        (tells_last_arg (tells_pairFunc hf))))
      (by simp only [Query.occasions, List.append_assoc]; rfl)
  eqJoin _ _ _ _ ha hb declared role :=
    tells_node declared role
      (tells_args (ha declared .source)
        (tells_append_silent (tells_stops unsupported_of_member)
          (tells_silent_arg (tells_last_arg (hb declared .source)))))
      (by simp only [Query.occasions, List.append_assoc]; rfl)

end ChainQuery
