import ChainQuery.Proofs.Acceptance
import ChainQuery.Proofs.Fitting

/-! # Outside — parameters that no function around declares

    Of all that can be wrong with a chain, a free parameter is the one
    thing that depends on where the chain stands: it is a use that no
    function in the chain declares, and none outside either.  So what a
    layout tells of uses and functions decides which free parameters there
    are.  The route:

    * the free parameters of a layout put together from parts are those
      of the parts, without what a function declares (`mem_free_args`,
      `mem_free_function`);
    * `Exposes` says that exactly the free parameters of a layout are
      found wrong; it passes through parts in a row (`exposes_cons`) and
      functions (`exposes_function`), so every form of node has it
      (`exposed_hereditary`). -/

namespace ChainQuery

open Layout

variable {l r : Layout Param} {ls : List (Layout Param)} {p : Param}

/-! ## Free parameters of layouts -/

@[simp] theorem free_empty : (empty : Layout Param).free = [] :=
  rfl

@[simp] theorem free_under (e : Term.Edge) (l : Layout Param) :
    (l.under e).free = l.free :=
  List.filterMap_map

@[simp] theorem free_next (l r : Layout Param) :
    (l.next r).free = l.free ++ r.free := by
  rw [free, next, List.filterMap_append, List.filterMap_map]
  refine congrArg (l.free ++ ·) (List.filterMap_congr fun u _ => ?_)
  cases hbinder : u.binder <;> simp [Use.after, hbinder]

theorem free_args_cons (i : Nat) (l : Layout Param)
    (ls : List (Layout Param)) :
    (args i (l :: ls)).free = l.free ++ (args (i + 1) ls).free := by
  rw [args, free_next, free_under]

theorem free_members_cons (name : String) (l : Layout Param)
    (ls : List (String × Layout Param)) :
    (members ((name, l) :: ls)).free = l.free ++ (members ls).free := by
  rw [members, free_next, free_under]

/-- A function declares its parameters. -/
theorem mem_free_function {params : List Param} :
    p ∈ (function params l).free ↔
      p ∈ l.free ∧ p ∉ params := by
  have hdeclares : ∀ u : Use Param,
      (u.enclosed (position? · params)).binder = none ↔
        u.binder = none ∧ u.name ∉ params := by
    intro u
    rw [Use.enclosed]
    cases u.binder with
    | some b => simp
    | none =>
        rw [Option.map_eq_none_iff, position_eq, ← lastPosition_isSome,
          Option.not_isSome_iff_eq_none]
        exact ⟨fun h => ⟨rfl, h⟩, fun h => h.2⟩
  simp only [mem_free]
  constructor
  · rintro ⟨_, henclosed, hnone, rfl⟩
    obtain ⟨u, hu, rfl⟩ := List.mem_map.mp henclosed
    obtain ⟨hnone, hout⟩ := (hdeclares u).mp hnone
    exact ⟨⟨u, hu, hnone, rfl⟩, hout⟩
  · rintro ⟨⟨u, hu, hnone, rfl⟩, hout⟩
    exact ⟨_, List.mem_map_of_mem hu, (hdeclares u).mpr ⟨hnone, hout⟩, rfl⟩

/-! ## Parts that expose free parameters -/

variable {c : Converter} {declared : List Param} {vs ws : List TermError}

/-- The free parameters among what is wrong are those of a layout that are
    not declared outside. -/
def Exposes (declared : List Param) (l : Layout Param)
    (vs : List TermError) : Prop :=
  ∀ p, .unsupported (.freeParam p) ∈ vs ↔ p ∈ l.free ∧ p ∉ declared

/-- Nothing that is wrong is a free parameter. -/
def Silent (vs : List TermError) : Prop :=
  ∀ p, .unsupported (.freeParam p) ∉ vs

theorem exposes_silent (h : Silent vs) : Exposes declared empty vs := by
  intro p
  simp [h p]

theorem exposes_append (h : Exposes declared l vs)
    (h' : Exposes declared r ws) :
    Exposes declared (l.next r) (vs ++ ws) := by
  intro p
  rw [List.mem_append, h p, h' p, free_next, List.mem_append]
  exact or_and_right.symm

theorem exposes_cons {i : Nat} (h : Exposes declared l vs)
    (h' : Exposes declared (args (i + 1) ls) ws) :
    Exposes declared (args i (l :: ls)) (vs ++ ws) := by
  intro p
  rw [free_args_cons, ← free_next]
  exact exposes_append h h' p

/-- A single part. -/
theorem exposes_one {i : Nat} (h : Exposes declared l vs) :
    Exposes declared (args i [l]) vs := by
  have hnil : Exposes declared (args (i + 1) []) [] :=
    exposes_silent fun _ => List.not_mem_nil
  rw [← List.append_nil vs]
  exact exposes_cons h hnil

/-- The last part, and what is wrong apart from the parts. -/
theorem exposes_last {i : Nat} (h : Exposes declared l vs)
    (h' : Silent ws) : Exposes declared (args i [l]) (vs ++ ws) :=
  exposes_cons h (exposes_silent h')

/-- A part in which nothing is followed. -/
theorem exposes_skip {i : Nat}
    (h : Exposes declared (args (i + 1) ls) vs) :
    Exposes declared (args i (empty :: ls)) vs :=
  exposes_cons (exposes_silent fun _ => List.not_mem_nil) h

theorem exposes_function {params : List Param}
    (h : Exposes (params ++ declared) l vs) :
    Exposes declared (function params l) vs := by
  intro p
  rw [h p, mem_free_function, List.mem_append, not_or, and_assoc]

/-! ## What is no parameter -/

theorem silent_literal (c : Converter) (v : Value) :
    Silent (c.violations v) := by
  intro p hp
  rcases List.mem_append.mp hp with hp | hp
  · obtain ⟨kind, -, heq⟩ := List.mem_map.mp hp
    cases heq
  · cases hconvert : c.convert v with
    | ok d =>
        rw [hconvert] at hp
        cases hp
    | error e =>
        rw [hconvert] at hp
        cases List.mem_singleton.mp hp

theorem silent_literals (c : Converter) (values : List Value) :
    Silent (values.flatMap c.violations) := by
  intro p hp
  obtain ⟨v, -, hp⟩ := List.mem_flatMap.mp hp
  exact silent_literal c v p hp

theorem silent_call (name : String) (given : Nat) :
    Silent (RemoteCall.violations name given) := by
  intro p hp
  unfold RemoteCall.violations at hp
  split at hp
  · cases List.mem_singleton.mp hp
  · split at hp
    · cases hp
    · cases List.mem_singleton.mp hp

theorem silent_member (use : SelectorUse) (f : RowFunc) :
    Silent (f.memberViolations use) := by
  intro p hp
  unfold RowFunc.memberViolations at hp
  split at hp
  · cases hp
  · cases List.mem_singleton.mp hp

theorem silent_reduction (r : Reduction) : Silent r.violations := by
  cases r with
  | count => exact fun _ => List.not_mem_nil
  | sum f => exact silent_member .sum f
  | average f => exact silent_member .average f

theorem silent_duplicate (name : String) (earlier : List String) :
    Silent (if name ∈ earlier then
      [.unsupported (.duplicateMember name)] else []) := by
  intro p hp
  split at hp
  · cases List.mem_singleton.mp hp
  · cases hp

/-! ## Expressions and chains -/

/-- The free parameters of an expression are those of its layout. -/
def Expr.Exposed (c : Converter) (e : Expr) : Prop :=
  ∀ declared, Exposes declared e.layout (e.violations c declared)

/-- The free parameters of a chain are those of its layout. -/
def Query.Exposed (c : Converter) (q : Query) : Prop :=
  ∀ declared, Exposes declared q.layout (q.violations c declared)

theorem exposes_rowFunc {f : RowFunc} (h : f.toFunc.body.Exposed c) :
    Exposes declared f.layout (f.violations c declared) := by
  obtain ⟨row, body⟩ := f
  exact exposes_function (h (row :: declared))

theorem exposes_pairFunc {f : PairFunc} (h : f.toFunc.body.Exposed c) :
    Exposes declared f.layout (f.violations c declared) := by
  obtain ⟨left, right, body⟩ := f
  exact exposes_function (h (left :: right :: declared))

/-- A selector that goes by a name uses its own row only. -/
theorem exposes_key {k : SortKey} (h : k.body.Exposed c) :
    Exposes declared k.layout (k.violations c declared) := by
  obtain ⟨f, direction⟩ := k
  rw [SortKey.layout, SortKey.violations]
  cases hname : f.toFunc.memberName? with
  | some name =>
      obtain ⟨row, rfl⟩ := memberName_iff.mp hname
      refine exposes_silent fun p hp => ?_
      rw [RowFunc.violations, Expr.violations, Expr.violations,
        if_pos (.head _)] at hp
      cases hp
  | none => exact exposes_one (exposes_rowFunc h)

theorem exposes_keys {ks : List SortKey} (h : ∀ k ∈ ks, k.body.Exposed c)
    (i : Nat) :
    Exposes declared (args i (keyLayouts ks))
      (keyViolations c declared ks) := by
  induction ks generalizing i with
  | nil => exact exposes_silent fun _ => List.not_mem_nil
  | cons k ks ih =>
      obtain ⟨hk, hks⟩ := List.forall_mem_cons.mp h
      exact exposes_cons (exposes_key hk) (ih hks (i + 1))

theorem exposes_items {es : List Expr} (h : ∀ e ∈ es, e.Exposed c)
    (i : Nat) :
    Exposes declared (args i (itemLayouts es))
      (itemViolations c declared es) := by
  induction es generalizing i with
  | nil => exact exposes_silent fun _ => List.not_mem_nil
  | cons e es ih =>
      obtain ⟨he, hes⟩ := List.forall_mem_cons.mp h
      exact exposes_cons (he declared) (ih hes (i + 1))

theorem exposes_members {ms : List (String × Expr)}
    (h : ∀ m ∈ ms, m.2.Exposed c) (earlier : List String) :
    Exposes declared (members (memberLayouts ms))
      (memberViolations c declared earlier ms) := by
  induction ms generalizing earlier with
  | nil => exact exposes_silent fun _ => List.not_mem_nil
  | cons m ms ih =>
      obtain ⟨name, e⟩ := m
      obtain ⟨he, hms⟩ := List.forall_mem_cons.mp h
      have hrest : Exposes declared
          (empty.next (members (memberLayouts ms))) _ :=
        exposes_append (exposes_silent (silent_duplicate name earlier))
          (ih hms (name :: earlier))
      intro p
      have hp := exposes_append (he declared) hrest p
      rw [free_next, free_next, free_empty, List.nil_append] at hp
      rw [memberLayouts, free_members_cons]
      exact hp

/-- Every form of node exposes its free parameters when its parts do. -/
theorem exposed_hereditary (c : Converter) :
    Hereditary (Expr.Exposed c) (Query.Exposed c) where
  param p declared q := by
    rw [Expr.violations, Expr.layout]
    by_cases hp : p ∈ declared
    · rw [if_pos hp]
      refine iff_of_false List.not_mem_nil fun h => h.2 ?_
      rwa [List.mem_singleton.mp h.1]
    · rw [if_neg hp]
      constructor
      · intro h
        cases List.mem_singleton.mp h
        exact ⟨.head _, hp⟩
      · rintro ⟨h, -⟩
        rw [List.mem_singleton.mp h]
        exact .head _
  literal v _ := exposes_silent (silent_literal c v)
  field _ _ he declared := exposes_one (he declared)
  compare _ _ _ ha hb declared :=
    exposes_cons (ha declared) (exposes_one (hb declared))
  arith _ _ _ ha hb declared :=
    exposes_cons (ha declared) (exposes_one (hb declared))
  all _ hes _ := exposes_items hes 0
  any _ hes _ := exposes_items hes 0
  not _ he declared := exposes_one (he declared)
  array _ hes _ := exposes_items hes 0
  object _ hms _ := exposes_members hms []
  call name es hes _ p := by
    rw [Expr.violations, List.mem_append,
      or_iff_right (silent_call name es.length p)]
    exact exposes_items hes 0 p
  subquery _ _ hq := hq
  root r _ := exposes_silent (silent_literals c r.literals)
  indexCreateWith _ _ _ hkey _ :=
    exposes_skip (exposes_skip (exposes_one (exposes_rowFunc hkey)))
  step _ s hq declared :=
    exposes_last (hq declared) (silent_literals c s.carried)
  rowStep _ _ _ hq hf declared :=
    exposes_cons (hq declared) (exposes_one (exposes_rowFunc hf))
  orderBy _ _ _ hq hfirst hothers declared :=
    exposes_cons (hq declared)
      (exposes_cons (exposes_key hfirst) (exposes_keys hothers 2))
  union _ _ ha hb declared :=
    exposes_cons (ha declared) (exposes_one (hb declared))
  reduce _ _ base hq hf declared :=
    exposes_cons (hq declared)
      (exposes_last (exposes_pairFunc hf) (silent_literals c base.toList))
  groupBy _ r _ hq hkey declared :=
    exposes_cons (hq declared)
      (exposes_last (exposes_rowFunc hkey) (silent_reduction r))
  groupedMapReduce _ _ _ _ base hq hg hm hr declared :=
    exposes_cons (hq declared)
      (exposes_cons (exposes_rowFunc hg)
        (exposes_cons (exposes_rowFunc hm)
          (exposes_last (exposes_pairFunc hr)
            (silent_literals c base.toList))))
  join _ _ _ _ ha hb hf declared :=
    exposes_cons (ha declared)
      (exposes_cons (hb declared) (exposes_one (exposes_pairFunc hf)))
  eqJoin _ member _ _ ha hb declared :=
    exposes_cons (ha declared)
      (exposes_cons (exposes_silent (silent_member .eqJoin member))
        (exposes_one (hb declared)))

end ChainQuery
