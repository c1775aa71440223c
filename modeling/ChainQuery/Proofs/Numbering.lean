import ChainQuery.Proofs.Binary64
import ChainQuery.Proofs.Runs
import ChainQuery.Proofs.Variables
import Mathlib.Data.List.Perm.Subperm

/-! # Numbering — every variable is declared once and used inside

    Over any sequence of jobs on one context the numbers listed in a term
    are exactly those used up by its job, each once, and every reference
    stands below a function that lists its number.  The route:

    * `Translation.Counts` follows the numbers declared so far through a
      translation, together with what its result is like; it passes
      through sequences (`counts_bind`) and functions (`counts_function`),
      so each form of node is a few lines (`counted_hereditary`);
    * the numbers in an environment are listed around the term
      (`Environment.Within`), which keeps references inside;
    * jobs use up stretches of numbers one after another, so the terms of
      a run together declare a part of one long stretch
      (`returned_subperm`). -/

namespace ChainQuery

open Term Translation

/-! ## Stretches of numbers -/

/-- Exactly the numbers from `n` up to but without `m`, in some order. -/
def Numbered (xs : List Binary64) (n m : Nat) : Prop :=
  n ≤ m ∧ xs.Perm ((List.range' n (m - n)).map Binary64.ofNat)

theorem numbered_nil (n : Nat) : Numbered [] n n := by
  refine ⟨Nat.le_refl n, ?_⟩
  rw [Nat.sub_self]
  exact List.Perm.refl _

/-- Taking numbers lengthens a stretch. -/
theorem numbered_take {xs : List Binary64} {n m : Nat}
    (h : Numbered xs n m) (count : Nat) :
    Numbered (xs ++ (List.range' m count).map Binary64.ofNat) n
      (m + count) := by
  refine ⟨Nat.le_add_right_of_le h.1, ?_⟩
  have hcount : m + count - n = m - n + count := by
    have := h.1
    omega
  rw [hcount, ← List.range'_append_1, Nat.add_sub_cancel' h.1,
    List.map_append]
  exact h.2.append_right _

/-- Numbers that are different numbers, pair by pair. -/
def Apart (xs : List Binary64) : Prop :=
  xs.Pairwise fun x y => x.same y = false

/-- Numbers are apart in any order. -/
theorem apart_perm {xs ys : List Binary64} (h : xs.Perm ys)
    (hxs : Apart xs) : Apart ys := by
  refine (h.pairwise_iff ?_).mp hxs
  intro x y hxy
  rw [Binary64.same_comm, hxy]

/-- Up to `2 ^ 53` a stretch has different numbers, and so has whatever
    is left of it. -/
theorem apart_of_subperm {xs : List Binary64} {n m : Nat}
    (hm : n + m ≤ 2 ^ 53 + 1)
    (h : xs.Subperm ((List.range' n m).map Binary64.ofNat)) :
    Apart xs := by
  obtain ⟨ys, hperm, hsub⟩ := h
  refine apart_perm hperm (List.Pairwise.sublist hsub ?_)
  refine List.pairwise_map.mpr ?_
  refine (List.pairwise_lt_range' (s := n) (n := m)).imp_of_mem ?_
  intro i j hi hj hlt
  have hi := List.mem_range'_1.mp hi
  have hj := List.mem_range'_1.mp hj
  refine Bool.eq_false_iff.mpr fun hsame => ?_
  exact Nat.ne_of_lt hlt (Binary64.ofNat_same (by omega) (by omega) hsame)

/-! ## Counting -/

variable {α β : Type} {xs ys : List Binary64}

/-- Where `xs` is the stretch of numbers up to the next one, `y` only
    moves the next number up; and the result it may give has `P` and
    extends the stretch to `d`. -/
def Translation.Counts (xs : List Binary64) (y : Translation α)
    (d : α → List Binary64) (P : α → Prop) : Prop :=
  ∀ k n, Numbered xs k n → n ≤ (y n).2 ∧
    ∀ a, (y n).1 = .ok a → Numbered (d a) k (y n).2 ∧ P a

theorem counts_pure {a : α} {d : α → List Binary64} {P : α → Prop}
    (h : xs.Perm (d a)) (hP : P a) : Counts xs (pure a) d P := by
  intro k n hxs
  refine ⟨Nat.le_refl n, ?_⟩
  intro b hb
  cases hb
  exact ⟨⟨hxs.1, h.symm.trans hxs.2⟩, hP⟩

theorem counts_fail (e : TermError) (d : α → List Binary64)
    (P : α → Prop) : Counts xs (fail e) d P := by
  intro k n hxs
  refine ⟨Nat.le_refl n, ?_⟩
  intro a h
  cases h

/-- Sequences count in sequence. -/
theorem counts_bind {x : Translation α} {f : α → Translation β}
    {d : α → List Binary64} {P : α → Prop} {d' : β → List Binary64}
    {P' : β → Prop} (hx : Counts xs x d P)
    (hf : ∀ a, P a → Counts (d a) (f a) d' P') :
    Counts xs (x >>= f) d' P' := by
  intro k n hxs
  show n ≤ (andThen x f n).2 ∧ ∀ b, (andThen x f n).1 = .ok b →
    Numbered (d' b) k (andThen x f n).2 ∧ P' b
  obtain ⟨hle, hok⟩ := hx k n hxs
  rw [andThen]
  rcases hxn : x n with ⟨r, m⟩
  rw [hxn] at hle hok
  cases r with
  | error e =>
      refine ⟨hle, ?_⟩
      intro b hb
      cases hb
  | ok a =>
      obtain ⟨hnum, hP⟩ := hok a rfl
      obtain ⟨hle', hok'⟩ := hf a hP k m hnum
      exact ⟨Nat.le_trans hle hle', hok'⟩

/-- A part that uses no number only has to be known by its result. -/
theorem counts_bind_except {r : Except TermError α}
    {f : α → Translation β} {d : β → List Binary64} {P : β → Prop}
    (h : ∀ a, r = .ok a → Counts xs (f a) d P) :
    Counts xs (ofExcept r >>= f) d P := by
  cases r with
  | error e => exact counts_fail e d P
  | ok a => exact h a rfl

/-- Numbers that are taken lengthen the stretch. -/
theorem counts_take (count : Nat) :
    Counts xs (take count)
      (fun first => xs ++ (List.range' first count).map Binary64.ofNat)
      (fun _ => True) := by
  intro k n hxs
  refine ⟨Nat.le_add_right n count, ?_⟩
  intro first hfirst
  cases hfirst
  exact ⟨numbered_take hxs count, trivial⟩

/-- The order of what is declared does not count. -/
theorem counts_perm {y : Translation α} {d : α → List Binary64}
    {P : α → Prop} (h : xs.Perm ys) (hy : Counts ys y d P) :
    Counts xs y d P :=
  fun k n hxs => hy k n ⟨hxs.1, h.symm.trans hxs.2⟩

/-! ## Translations that count -/

/-- Every variable in an environment is listed by a function around. -/
def Environment.Within (env : Environment) (around : List Binary64) :
    Prop :=
  ∀ p id, env p = some id → Binary64.ofNat id ∈ around

/-- A translation of a closed term that declares what it uses up. -/
def Translation.CountsTerm (around : List Binary64)
    (y : Translation Term) : Prop :=
  ∀ xs, Counts xs y (fun t => xs ++ t.declared) (Closed around)

/-- The same of a list of terms. -/
def Translation.CountsArgs (around : List Binary64)
    (y : Translation (List Term)) : Prop :=
  ∀ xs, Counts xs y (fun ts => xs ++ declaredArgs ts) (ArgsClosed around)

variable {c : Converter} {env : Environment} {around : List Binary64}
  {kind : Kind} {args : List Term}

/-- The node of counted arguments. -/
theorem counts_decorated {t : Term} (h : t.Decorated kind args)
    (hk : kind.Ordinary) (hxs : ys = xs ++ declaredArgs args)
    (hargs : ArgsClosed around args) :
    Counts ys (pure t) (fun t => xs ++ t.declared) (Closed around) := by
  subst hxs
  refine counts_pure ?_ (closed_decorated h hk hargs)
  rw [declared_decorated h hk]

theorem counts_node (hk : kind.Ordinary)
    (hxs : ys = xs ++ declaredArgs args) (hargs : ArgsClosed around args) :
    Counts ys (pure (.node kind args)) (fun t => xs ++ t.declared)
      (Closed around) :=
  counts_decorated (decorated_node kind args) hk hxs hargs

/-- A term in which nothing is declared or referred to. -/
theorem counts_inert {r : Except TermError Term}
    (h : ∀ t, r = .ok t → t.Inert) : CountsTerm around (ofExcept r) := by
  intro xs
  cases r with
  | error e => exact counts_fail e _ _
  | ok t =>
      obtain ⟨hnone, hclosed⟩ := h t rfl
      refine counts_pure ?_ (hclosed around)
      rw [hnone, List.append_nil]

/-- A last position is a position. -/
theorem lastPosition_lt {p : Param} {ps : List Param} {i : Nat}
    (h : lastPosition? p ps = some i) : i < ps.length := by
  induction ps generalizing i with
  | nil => cases h
  | cons q qs ih =>
      rw [lastPosition?] at h
      cases hqs : lastPosition? p qs with
      | some j =>
          rw [hqs] at h
          cases h
          exact Nat.succ_lt_succ (ih hqs)
      | none =>
          rw [hqs] at h
          by_cases hq : q = p
          · simp only [if_pos hq] at h
            cases h
            exact Nat.succ_pos _
          · simp only [if_neg hq] at h
            cases h

/-- Inside a function its numbers are listed around too. -/
theorem within_declare (h : env.Within around) (params : List Param)
    (first : Nat) :
    (env.declare params first).Within
      ((List.range' first params.length).map Binary64.ofNat ++ around) := by
  intro p id hid
  rw [Environment.declare] at hid
  refine List.mem_append.mpr ?_
  cases hpos : lastPosition? p params with
  | some i =>
      rw [hpos] at hid
      cases hid
      have hlt := lastPosition_lt hpos
      refine Or.inl (List.mem_map_of_mem (List.mem_range'_1.mpr ?_))
      omega
  | none =>
      rw [hpos] at hid
      exact Or.inr (h p id hid)

/-- A function lists its numbers. -/
theorem listed_function (ids : List Nat) (body : Term) :
    listed [.node .makeArray (ids.map .number), body]
      = ids.map Binary64.ofNat := by
  show (ids.map Term.number).filterMap _ = _
  rw [List.filterMap_map]
  exact congrFun List.filterMap_eq_map' ids

/-- The numbers of a function are leaves. -/
theorem inert_numbers (ids : List Nat) :
    (Term.node .makeArray (ids.map .number)).Inert := by
  refine inert_node _ (by decide) ?_
  intro a ha
  obtain ⟨id, -, rfl⟩ := List.mem_map.mp ha
  exact inert_leaf _

/-- A function declares its numbers, then what its body declares. -/
theorem declared_function (ids : List Nat) (body : Term) :
    (Term.function ids body).declared
      = ids.map Binary64.ofNat ++ body.declared := by
  rw [Term.function, Term.node, declared, if_pos rfl, listed_function,
    declaredArgs, (inert_numbers ids).1, declaredArgs, declaredArgs,
    declaredNamed, List.nil_append, List.append_nil, List.append_nil]

/-- Functions count: the references of a body may be to the numbers its
    function lists. -/
theorem counts_function {params : List Param}
    {body : Environment → Translation Term} (henv : env.Within around)
    (h : ∀ inner around', inner.Within around' →
      CountsTerm around' (body inner)) :
    CountsTerm around (functionTranslate params env body) := by
  intro xs
  refine counts_bind (counts_take params.length) fun first _ => ?_
  -- Its own numbers are around the body before they are around the term.
  have hin := within_declare henv params first
  refine counts_bind (h _ _ hin _) fun t ht => ?_
  refine counts_pure ?_ ?_
  · show List.Perm _ (xs ++ (Term.function _ t).declared)
    rw [declared_function, List.append_assoc]
  · rw [Term.node, Closed, if_pos rfl, listed_function]
    exact ⟨fun h => absurd h (by decide),
      ⟨(inert_numbers _).2 _, ht, trivial⟩, trivial⟩

/-- A reference declares nothing and carries a number from around. -/
theorem counts_reference (henv : env.Within around) (p : Param) :
    CountsTerm around (env.reference p) := by
  intro xs
  rw [Environment.reference]
  cases hp : env p with
  | none => exact counts_fail _ _ _
  | some id =>
      refine counts_pure ?_ ?_
      · rw [Term.node, declared, if_neg (by decide)]
        show xs.Perm (xs ++ [])
        rw [List.append_nil]
      · exact ⟨fun _ => ⟨_, henv p id hp, rfl⟩, ⟨trivial, trivial⟩, trivial⟩

/-! ## Expressions and chains -/

/-- In every environment, the term of an expression is closed and declares
    what it uses up. -/
def Expr.Counted (c : Converter) (e : Expr) : Prop :=
  ∀ env around, Environment.Within env around →
    CountsTerm around (e.translate c env)

/-- In every environment, the term of a chain is closed and declares what
    it uses up. -/
def Query.Counted (c : Converter) (q : Query) : Prop :=
  ∀ env around, Environment.Within env around →
    CountsTerm around (q.translate c env)

theorem counts_func {f : Func} (h : f.body.Counted c)
    (henv : env.Within around) : CountsTerm around (f.translate c env) :=
  counts_function henv h

theorem counts_rowFunc {f : RowFunc} (h : f.toFunc.body.Counted c)
    (henv : env.Within around) : CountsTerm around (f.translate c env) := by
  rw [rowFunc_translate]
  exact counts_func h henv

theorem counts_pairFunc {f : PairFunc} (h : f.toFunc.body.Counted c)
    (henv : env.Within around) : CountsTerm around (f.translate c env) := by
  rw [pairFunc_translate]
  exact counts_func h henv

theorem counts_items {es : List Expr} (h : ∀ e ∈ es, e.Counted c)
    (henv : env.Within around) :
    CountsArgs around (translateItems c env es) := by
  intro xs
  induction es generalizing xs with
  | nil =>
      refine counts_pure ?_ trivial
      rw [declaredArgs, List.append_nil]
  | cons e es ih =>
      obtain ⟨he, hes⟩ := List.forall_mem_cons.mp h
      rw [translateItems]
      refine counts_bind (he env around henv xs) fun t ht => ?_
      refine counts_bind (ih hes _) fun ts hts => ?_
      refine counts_pure ?_ ⟨ht, hts⟩
      rw [declaredArgs, List.append_assoc]

/-- Members count too, wherever a put leaves them. -/
theorem counts_members {ms : List (String × Expr)}
    (h : ∀ m ∈ ms, m.2.Counted c) (henv : env.Within around)
    (xs : List Binary64) {done : List (String × Term)}
    (hdone : NamedClosed around done) :
    Counts (xs ++ declaredNamed done) (translateMembers c env ms done)
      (fun out => xs ++ declaredNamed out) (NamedClosed around) := by
  induction ms generalizing done with
  | nil => exact counts_pure (List.Perm.refl _) hdone
  | cons m ms ih =>
      obtain ⟨name, e⟩ := m
      obtain ⟨he, hms⟩ := List.forall_mem_cons.mp h
      rw [translateMembers]
      refine counts_bind (he env around henv _) fun t ht => ?_
      by_cases hd : Entries.has name done = true
      · rw [if_pos hd]
        exact counts_fail _ _ _
      · rw [if_neg hd]
        -- A put may land before members that were done earlier, so what is
        -- declared is only the same in another order.
        have hput := Entries.put_perm t (mt Entries.has_iff.mpr hd)
        refine counts_perm ?_ (ih hms (namedClosed_perm hput ⟨ht, hdone⟩))
        rw [List.append_assoc]
        refine List.Perm.append_left xs ?_
        exact List.perm_append_comm.trans (declaredNamed_perm hput).symm

theorem counts_key {k : SortKey} (h : k.body.Counted c)
    (henv : env.Within around) :
    CountsTerm around (k.translate c env) := by
  obtain ⟨selector, direction⟩ := k
  intro xs
  rw [translate_key]
  refine counts_bind (d := fun t => xs ++ t.declared)
    (P := Closed around) ?_ fun t ht => ?_
  · cases selector.toFunc.memberName? with
    | some name =>
        refine counts_inert (r := .ok (.text name)) ?_ xs
        intro t ht
        cases ht
        exact inert_text name
    | none => exact counts_rowFunc h henv xs
  · exact counts_node (ordinary_direction direction)
      (by simp [declaredArgs]) ⟨ht, trivial⟩

theorem counts_keys {ks : List SortKey} (h : ∀ k ∈ ks, k.body.Counted c)
    (henv : env.Within around) :
    CountsArgs around (translateKeys c env ks) := by
  intro xs
  induction ks generalizing xs with
  | nil =>
      refine counts_pure ?_ trivial
      rw [declaredArgs, List.append_nil]
  | cons k ks ih =>
      obtain ⟨hk, hks⟩ := List.forall_mem_cons.mp h
      rw [translateKeys]
      refine counts_bind (counts_key hk henv xs) fun t ht => ?_
      refine counts_bind (ih hks _) fun ts hts => ?_
      refine counts_pure ?_ ⟨ht, hts⟩
      rw [declaredArgs, List.append_assoc]

/-- Translations count, form by form. -/
theorem counted_hereditary (c : Converter) :
    Hereditary (Expr.Counted c) (Query.Counted c) where
  param p _ _ henv := counts_reference henv p
  literal v _ _ _ := counts_inert fun _ => inert_judge
  field _ _ he env around henv xs := by
    refine counts_bind (he env around henv xs) fun t ht => ?_
    exact counts_node (by decide)
      (by simp [declaredArgs, (inert_text _).1])
      ⟨ht, (inert_text _).2 _, trivial⟩
  compare op _ _ ha hb env around henv xs := by
    refine counts_bind (ha env around henv xs) fun a hclosed => ?_
    refine counts_bind (hb env around henv _) fun b hclosed' => ?_
    exact counts_node (ordinary_compare op) (by simp [declaredArgs])
      ⟨hclosed, hclosed', trivial⟩
  arith op _ _ ha hb env around henv xs := by
    refine counts_bind (ha env around henv xs) fun a hclosed => ?_
    refine counts_bind (hb env around henv _) fun b hclosed' => ?_
    exact counts_node (ordinary_arith op) (by simp [declaredArgs])
      ⟨hclosed, hclosed', trivial⟩
  all _ hes env around henv xs :=
    counts_bind (counts_items hes henv xs) fun _ =>
      counts_node (by decide) rfl
  any _ hes env around henv xs :=
    counts_bind (counts_items hes henv xs) fun _ =>
      counts_node (by decide) rfl
  not _ he env around henv xs := by
    refine counts_bind (he env around henv xs) fun t ht => ?_
    exact counts_node (by decide) (by simp [declaredArgs]) ⟨ht, trivial⟩
  array _ hes env around henv xs :=
    counts_bind (counts_items hes henv xs) fun _ =>
      counts_node (by decide) rfl
  object ms hms env around henv xs := by
    have hnil : NamedClosed around [] := trivial
    have hcount := counts_members hms henv xs hnil
    rw [declaredNamed, List.append_nil] at hcount
    refine counts_bind hcount fun out h => ?_
    exact counts_pure (List.Perm.refl _)
      ⟨fun hkind => absurd hkind (by decide), trivial, h⟩
  call name es hes env around henv xs := by
    refine counts_bind_except fun kind hkind => ?_
    refine counts_bind (counts_items hes henv xs) fun ts hts => ?_
    exact counts_node (ordinary_call hkind) rfl hts
  subquery _ _ hq := hq
  root r _ _ _ := counts_inert fun _ => inert_root
  indexCreateWith t name _ hkey env around henv xs := by
    refine counts_bind (counts_rowFunc hkey henv xs) fun key h => ?_
    exact counts_node (by decide)
      (by simp [declaredArgs, (inert_table t).1, (inert_text name).1])
      ⟨(inert_table t).2 _, (inert_text name).2 _, h, trivial⟩
  step _ s hq env around henv xs := by
    refine counts_bind (hq env around henv xs) fun source h => ?_
    refine counts_bind_except fun literals hlit => ?_
    obtain ⟨hnone, hclosed⟩ := inert_args (inert_literals hlit)
    exact counts_decorated (decorated_step s _) (ordinary_step s)
      (by simp [declaredArgs, hnone]) ⟨h, hclosed _⟩
  rowStep _ s _ hq hf env around henv xs := by
    refine counts_bind (hq env around henv xs) fun source h => ?_
    refine counts_bind (counts_rowFunc hf henv _) fun f h' => ?_
    exact counts_decorated (decorated_rowStep s _) (ordinary_rowStep s)
      (by simp [declaredArgs]) ⟨h, h', trivial⟩
  orderBy _ _ _ hq hfirst hothers env around henv xs := by
    refine counts_bind (hq env around henv xs) fun source h => ?_
    refine counts_bind (counts_key hfirst henv _) fun first h' => ?_
    refine counts_bind (counts_keys hothers henv _) fun others h'' => ?_
    exact counts_node (by decide) (by simp [declaredArgs]) ⟨h, h', h''⟩
  union _ _ ha hb env around henv xs := by
    refine counts_bind (ha env around henv xs) fun a h => ?_
    refine counts_bind (hb env around henv _) fun b h' => ?_
    exact counts_node (by decide) (by simp [declaredArgs])
      ⟨h, h', trivial⟩
  reduce _ _ base hq hf env around henv xs := by
    refine counts_bind (hq env around henv xs) fun source h => ?_
    refine counts_bind (counts_pairFunc hf henv _) fun f h' => ?_
    refine counts_bind_except fun b hb => ?_
    exact counts_decorated (decorated_base hb (decorated_node _ _))
      (by decide) (by simp [declaredArgs]) ⟨h, h', trivial⟩
  groupBy _ reduction _ hq hkey env around henv xs := by
    refine counts_bind (hq env around henv xs) fun source h => ?_
    refine counts_bind (counts_rowFunc hkey henv _) fun key h' => ?_
    refine counts_bind_except fun object hobject => ?_
    have hinert := inert_reduction hobject
    exact counts_node (by decide) (by simp [declaredArgs, hinert.1])
      ⟨h, h', hinert.2 _, trivial⟩
  groupedMapReduce _ _ _ _ base hq hg hm hr env around henv xs := by
    refine counts_bind (hq env around henv xs) fun source h => ?_
    refine counts_bind (counts_rowFunc hg henv _) fun grouping hg => ?_
    refine counts_bind (counts_rowFunc hm henv _) fun mapping hm => ?_
    refine counts_bind (counts_pairFunc hr henv _) fun reduction hr => ?_
    refine counts_bind_except fun b hb => ?_
    exact counts_decorated (decorated_base hb (decorated_node _ _))
      (by decide) (by simp [declaredArgs]) ⟨h, hg, hm, hr, trivial⟩
  join kind _ _ _ ha hb hf env around henv xs := by
    refine counts_bind (ha env around henv xs) fun left h => ?_
    refine counts_bind (hb env around henv _) fun right h' => ?_
    refine counts_bind (counts_pairFunc hf henv _) fun f h'' => ?_
    exact counts_node (ordinary_join kind) (by simp [declaredArgs])
      ⟨h, h', h'', trivial⟩
  eqJoin _ member _ index ha hb env around henv xs := by
    refine counts_bind (ha env around henv xs) fun left h => ?_
    refine counts_bind_except fun name hname => ?_
    have hinert := inert_member hname
    refine counts_bind (hb env around henv _) fun right h' => ?_
    exact counts_decorated (decorated_withText (decorated_node _ _) _ _)
      (by decide) (by simp [declaredArgs, hinert.1])
      ⟨h, hinert.2 _, h', trivial⟩

/-! ## Runs -/

/-- The term of a job is closed and declares what it uses up. -/
theorem counts_job (c : Converter) (job : Job) :
    CountsTerm [] (job.translate c (.ofScope [])) := by
  have hnone : Environment.Within (.ofScope []) [] := by
    intro p id h
    cases h
  have hcount := counted_hereditary c
  cases job with
  | query q => exact hcount.query q _ _ hnone
  | func f => exact counts_func (hcount.expr f.body) hnone
  | expr e => exact hcount.expr e _ _ hnone
  | literal v => exact counts_inert fun _ => inert_judge

/-- One job: it moves the next number up, leaves nothing in scope, and
    the term it may give is closed and declares the stretch used up. -/
theorem job_counts (c : Converter) (job : Job) (n : Nat) :
    ∃ m, (job.walk c ⟨n, []⟩).context = ⟨m, []⟩ ∧ n ≤ m ∧
      ∀ t, (job.walk c ⟨n, []⟩).result = .ok t →
        Numbered t.declared n m ∧ t.Closed [] := by
  obtain ⟨hr, hc⟩ := follows_job c job [] n
  obtain ⟨hle, hok⟩ := counts_job c job [] n n (numbered_nil n)
  refine ⟨_, hc, hle, ?_⟩
  rw [hr]
  exact hok

theorem contextAfter_next_le (c : Converter) (jobs : List Job) (n : Nat) :
    n ≤ (contextAfter c ⟨n, []⟩ jobs).next := by
  induction jobs generalizing n with
  | nil => exact Nat.le_refl n
  | cons job jobs ih =>
      obtain ⟨m, hm, hle, -⟩ := job_counts c job n
      rw [contextAfter, hm]
      exact Nat.le_trans hle (ih m)

/-- A run: every turn lies within the stretch used up by all, and its
    term declares the stretch used up by the turn. -/
theorem turn_counts {c : Converter} {jobs : List Job} {n : Nat}
    {turn : Turn} (h : turn ∈ turns c ⟨n, []⟩ jobs) :
    n ≤ turn.before.next ∧
      turn.outcome.context.next ≤ (contextAfter c ⟨n, []⟩ jobs).next ∧
      ∀ t, turn.outcome.result = .ok t →
        Numbered t.declared turn.before.next turn.outcome.context.next ∧
          t.Closed [] := by
  induction jobs generalizing n with
  | nil => cases h
  | cons job jobs ih =>
      obtain ⟨m, hm, hle, hok⟩ := job_counts c job n
      rcases List.mem_cons.mp h with rfl | hmem
      · refine ⟨Nat.le_refl n, ?_, ?_⟩
        · rw [contextAfter, hm]
          exact contextAfter_next_le c jobs m
        · rw [hm]
          exact hok
      · rw [hm] at hmem
        rw [contextAfter, hm]
        obtain ⟨hlo, hhi, hterm⟩ := ih hmem
        exact ⟨Nat.le_trans hle hlo, hhi, hterm⟩

/-- The terms of a run together declare a part of the stretch it uses up:
    what failing jobs used up is missing. -/
theorem returned_subperm (c : Converter) (jobs : List Job) (n : Nat) :
    ((returned c ⟨n, []⟩ jobs).flatMap Term.declared).Subperm
      ((List.range' n ((contextAfter c ⟨n, []⟩ jobs).next - n)).map
        Binary64.ofNat) := by
  induction jobs generalizing n with
  | nil => exact List.nil_subperm
  | cons job jobs ih =>
      obtain ⟨m, hm, hle, hok⟩ := job_counts c job n
      have hrest := contextAfter_next_le c jobs m
      have htail := ih m
      rw [contextAfter, hm, returned, turns, hm]
      generalize (contextAfter c ⟨m, []⟩ jobs).next = last at hrest htail ⊢
      have hsplit : List.range' n (last - n)
          = List.range' n (m - n) ++ List.range' m (last - m) := by
        have hlen : last - n = m - n + (last - m) := by omega
        rw [hlen, ← List.range'_append_1, Nat.add_sub_cancel' hle]
      rw [hsplit, List.map_append]
      -- A job that fails leaves a gap in the stretch.
      cases hres : (job.walk c ⟨n, []⟩).result with
      | error e =>
          rw [List.filterMap_cons_none (by simp [hres, Except.toOption])]
          exact htail.trans (List.sublist_append_right _ _).subperm
      | ok t =>
          rw [List.filterMap_cons_some
            (by simp [hres, Except.toOption] : _ = some t)]
          rw [List.flatMap_cons]
          exact List.Subperm.append (hok t hres).1.2.subperm htail

/-- **Generated variables are unique and closed.**  Over any jobs done on
    one fresh context, failing ones included, as long as fewer than
    `2 ^ 53` numbers are used up: each term declares exactly the numbers
    its job used up, each once; no two terms declare the same number; and
    every reference in a term carries a number that a function around it
    lists.  In particular the term of a chain generated on its own
    declares exactly the numbers from `1` on. -/
theorem declared_unique_closed (c : Converter) (jobs : List Job)
    (h : (contextAfter c .fresh jobs).next ≤ 2 ^ 53) :
    (∀ turn ∈ turns c .fresh jobs, ∀ t, turn.outcome.result = .ok t →
      Numbered t.declared turn.before.next turn.outcome.context.next ∧
        Apart t.declared ∧ t.Closed []) ∧
    Apart ((returned c .fresh jobs).flatMap Term.declared) ∧
    ∀ q t, (Query.generate c q).result = .ok t →
      (Query.generate c q).context.next ≤ 2 ^ 53 →
        Numbered t.declared 1 (Query.generate c q).context.next ∧
          Apart t.declared ∧ t.Closed [] := by
  refine ⟨?_, ?_, ?_⟩
  · intro turn hturn t ht
    obtain ⟨-, hle, hok⟩ := turn_counts hturn
    obtain ⟨hnum, hclosed⟩ := hok t ht
    refine ⟨hnum, ?_, hclosed⟩
    refine apart_of_subperm ?_ hnum.2.subperm
    rw [Nat.add_sub_cancel' hnum.1]
    exact Nat.le_succ_of_le (Nat.le_trans hle h)
  · refine apart_of_subperm ?_ (returned_subperm c jobs 1)
    have hle := contextAfter_next_le c jobs 1
    rw [Nat.add_sub_cancel' hle]
    exact Nat.le_succ_of_le h
  · intro q t ht hq
    obtain ⟨m, hm, -, hok⟩ := job_counts c (.query q) 1
    have hnext : (Query.generate c q).context.next = m :=
      congrArg Context.next hm
    obtain ⟨hnum, hclosed⟩ := hok t ht
    rw [hnext] at hq ⊢
    refine ⟨hnum, ?_, hclosed⟩
    refine apart_of_subperm ?_ hnum.2.subperm
    rw [Nat.add_sub_cancel' hnum.1]
    exact Nat.le_succ_of_le hq

/-- Jobs of every sort: one chain four times, once in a job that fails
    inside a function after it. -/
def mixedJobs : List Job :=
  let row : Param := ⟨0⟩
  let chain : Query :=
    .rowStep (.root (.table ⟨none, "t", false⟩)) .map
      (.mk row (.param row))
  [.query chain,
   .query (.rowStep chain .filter (.mk row (.call "unheard_of" []))),
   .expr (.all [.subquery 0 chain, .subquery 1 chain]),
   .func ⟨[⟨1⟩, ⟨2⟩], .param ⟨2⟩⟩,
   .literal (.bool true)]

theorem declared_unique_closed_mixedJobs :
    (contextAfter (.standard .strict) .fresh mixedJobs).next = 8 ∧
      (returned (.standard .strict) .fresh mixedJobs).length = 4 ∧
      Apart ((returned (.standard .strict) .fresh mixedJobs).flatMap
        Term.declared) := by
  have hnext :
      (contextAfter (.standard .strict) .fresh mixedJobs).next = 8 := by
    decide
  refine ⟨hnext, by decide, ?_⟩
  have hbound : (contextAfter (.standard .strict) .fresh mixedJobs).next
      ≤ 2 ^ 53 := by
    rw [hnext]
    decide
  exact (declared_unique_closed _ mixedJobs hbound).2.1

end ChainQuery
