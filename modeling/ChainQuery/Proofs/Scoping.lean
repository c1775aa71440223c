import ChainQuery.Proofs.Induction
import ChainQuery.Proofs.Translation

/-! # Scoping — the scope of a walk is an environment

    A walk enters and leaves functions by changing the scope in its
    context; a translation hands down an environment instead.  The two
    agree, result for result and number for number, in every context.
    The route:

    * `Walk.Follows` says that a walk in a fixed scope does what a
      translation does and leaves that scope behind; it passes through
      sequences (`follows_bind`);
    * entering a function in a scope is declaring its parameters in the
      environment of the scope (`resolve_enter`), so it passes through
      functions (`follows_function`);
    * every form of node is made of these two (`lexical_hereditary`). -/

namespace ChainQuery

open Walk

variable {α β : Type} {scope : List (Param × Nat)}

/-! ## Following -/

/-- Walked in `scope`, `x` gives what `y` gives, uses the numbers that `y`
    uses, and leaves the scope as it was. -/
def Walk.Follows (scope : List (Param × Nat)) (x : Walk α)
    (y : Translation α) : Prop :=
  ∀ n, (x ⟨n, scope⟩).result = (y n).1 ∧
    (x ⟨n, scope⟩).context = ⟨(y n).2, scope⟩

theorem follows_done (a : α) : Follows scope (pure a) (pure a) :=
  fun _ => ⟨rfl, rfl⟩

theorem follows_unsupported (u : Unsupported) :
    Follows scope (unsupported u : Walk α)
      (Translation.fail (.unsupported u)) :=
  fun _ => ⟨rfl, rfl⟩

theorem follows_node (kind : Term.Kind) (args : List Term) :
    Follows scope (node kind args) (pure (.node kind args)) :=
  fun _ => ⟨rfl, rfl⟩

/-- Sequences follow sequences. -/
theorem follows_bind {x : Walk α} {f : α → Walk β} {y : Translation α}
    {g : α → Translation β} (hx : Follows scope x y)
    (hf : ∀ a, Follows scope (f a) (g a)) :
    Follows scope (x >>= f) (y >>= g) := by
  intro n
  show (andThen x f ⟨n, scope⟩).result = (Translation.andThen y g n).1 ∧
    (andThen x f ⟨n, scope⟩).context
      = ⟨(Translation.andThen y g n).2, scope⟩
  obtain ⟨hr, hc⟩ := hx n
  rw [andThen, Translation.andThen]
  rcases hxn : x ⟨n, scope⟩ with ⟨r, middle, notes⟩
  rcases hyn : y n with ⟨s, m⟩
  rw [hxn, hyn] at hr hc
  simp only at hr hc
  subst hr hc
  cases r with
  | ok a => exact hf a m
  | error e => exact ⟨rfl, rfl⟩

/-- A first part that only gives a result does not show. -/
theorem follows_bind_done {x : Walk α} {f : α → Walk β} {a : α}
    {y : Translation β} (hx : Follows scope x (pure a))
    (hf : Follows scope (f a) y) : Follows scope (x >>= f) y := by
  intro n
  show (andThen x f ⟨n, scope⟩).result = (y n).1 ∧
    (andThen x f ⟨n, scope⟩).context = ⟨(y n).2, scope⟩
  obtain ⟨hr, hc⟩ := hx n
  rw [andThen]
  rcases hxn : x ⟨n, scope⟩ with ⟨r, middle, notes⟩
  rw [hxn] at hr hc
  replace hr : r = .ok a := hr
  replace hc : middle = ⟨n, scope⟩ := hc
  subst hr hc
  exact hf n

/-- A sequence gives a result when both parts do, the second one in the
    context that the first leaves. -/
theorem bind_result_iff {x : Walk α} {f : α → Walk β} {ctx : Context}
    {b : β} : ((x >>= f) ctx).result = .ok b ↔
      ∃ a, (x ctx).result = .ok a ∧
        (f a (x ctx).context).result = .ok b := by
  show (andThen x f ctx).result = .ok b ↔ _
  rw [andThen]
  rcases x ctx with ⟨r, middle, notes⟩
  cases r with
  | error e =>
      constructor
      · intro h
        cases h
      · rintro ⟨a, ha, -⟩
        cases ha
  | ok a =>
      constructor
      · intro h
        exact ⟨a, rfl, h⟩
      · rintro ⟨_, ⟨⟩, h⟩
        exact h

/-- What a result does first, it may do in a part of its own. -/
theorem ofExcept_bind (r : Except TermError α)
    (f : α → Except TermError β) :
    Translation.ofExcept (r >>= f)
      = Translation.ofExcept r >>= fun a => Translation.ofExcept (f a) := by
  funext n
  cases r with
  | ok a => rfl
  | error e => rfl

/-! ## Literals and roots -/

/-- Kinds in sequence are allowed in sequence. -/
theorem allow_append (c : Converter) (ks ls : List Value.Kind) :
    c.allow (ks ++ ls) = c.allow ks >>= fun _ => c.allow ls := by
  induction ks with
  | nil => rfl
  | cons k ks ih =>
      rw [List.cons_append, Converter.allow, Converter.allow, ih]
      by_cases hk : c.supports k = true
      · rw [if_pos hk, if_pos hk]
      · rw [if_neg hk, if_neg hk]
        rfl

/-- A kind that is required first is allowed first. -/
theorem follows_requireKind (c : Converter) (kind : Value.Kind)
    (ks : List Value.Kind) {rest : Walk Unit}
    (h : Follows scope rest (.ofExcept (c.allow ks))) :
    Follows scope (c.requireKind kind >>= fun _ => rest)
      (.ofExcept (c.allow (kind :: ks))) := by
  rw [Converter.allow]
  by_cases hk : c.supports kind = true
  · rw [if_pos hk]
    refine follows_bind_done (a := ()) ?_ h
    rw [Converter.requireKind, if_pos hk]
    exact fun _ => ⟨rfl, rfl⟩
  · rw [if_neg hk, Converter.requireKind, if_neg hk]
    exact fun _ => ⟨rfl, rfl⟩

/-- The support check of a stack is that of the kinds on it. -/
theorem follows_requirePending (c : Converter) (pending : List Value) :
    Follows scope (c.requirePending pending)
      (.ofExcept (c.allow (Value.kindsOfItems pending))) := by
  induction pending using Converter.requirePending.induct with
  | case1 =>
      rw [Converter.requirePending]
      exact follows_done ()
  | case2 v pending ih =>
      rw [Converter.requirePending, Value.kindsOfItems_push]
      exact follows_requireKind c v.kind _ ih

/-- A literal is judged whole: all its kinds, then its conversion. -/
theorem follows_literal (c : Converter) (v : Value) :
    Follows scope (c.literal v) (.ofExcept (c.judge v)) := by
  rw [Converter.judge, ofExcept_bind, ← Value.kindsOfItems_one]
  refine follows_bind (follows_requirePending c [v]) fun _ => ?_
  refine follows_bind_done (a := ()) (fun _ => ⟨rfl, rfl⟩) ?_
  cases c.convert v with
  | ok d => exact fun _ => ⟨rfl, rfl⟩
  | error e => exact fun _ => ⟨rfl, rfl⟩

theorem follows_literals (c : Converter) (vs : List Value) :
    Follows scope (c.literals vs) (.ofExcept (c.judgeAll vs)) := by
  induction vs with
  | nil => exact follows_done []
  | cons v vs ih =>
      rw [Converter.literals, Converter.judgeAll, ofExcept_bind]
      refine follows_bind (follows_literal c v) fun t => ?_
      rw [ofExcept_bind]
      exact follows_bind ih fun ts => follows_done (t :: ts)

theorem follows_optionalLiteral (c : Converter) (base : Option Value) :
    Follows scope (c.optionalLiteral base)
      (.ofExcept (c.judgeOptional base)) := by
  cases base with
  | none => exact follows_done none
  | some v =>
      rw [Converter.optionalLiteral, Converter.judgeOptional, ofExcept_bind]
      exact follows_bind (follows_literal c v) fun t =>
        follows_done (some t)

theorem follows_member (use : SelectorUse) (f : RowFunc) :
    Follows scope (f.member use) (.ofExcept (f.judgeMember use)) := by
  rw [RowFunc.member, RowFunc.judgeMember]
  cases f.toFunc.memberName? with
  | some name => exact follows_done (Term.text name)
  | none => exact fun _ => ⟨rfl, rfl⟩

theorem follows_reduction (r : Reduction) :
    Follows scope r.walk (.ofExcept r.judge) := by
  cases r with
  | count => exact follows_done _
  | sum f =>
      rw [Reduction.walk, Reduction.judge, ofExcept_bind]
      exact follows_bind (follows_member .sum f) fun _ => follows_done _
  | average f =>
      rw [Reduction.walk, Reduction.judge, ofExcept_bind]
      exact follows_bind (follows_member .average f) fun _ =>
        follows_done _

theorem follows_check (name : String) (given : Nat) :
    Follows scope (RemoteCall.check name given)
      (.ofExcept (RemoteCall.judge name given)) := by
  rw [RemoteCall.check, RemoteCall.judge]
  cases RemoteCall.find? name with
  | none => exact follows_unsupported (.unknownCall name)
  | some call =>
      by_cases h : call.arity = given
      · simp only [if_pos h]
        exact follows_done call.kind
      · simp only [if_neg h]
        exact follows_unsupported (.wrongArity name given call.arity)

theorem follows_table (t : Table) : Follows scope t.walk (pure t.term) := by
  obtain ⟨db, name, useOutdated⟩ := t
  cases db with
  | none => exact fun _ => ⟨rfl, rfl⟩
  | some db => exact fun _ => ⟨rfl, rfl⟩

/-- A root uses no number and meets no parameter. -/
theorem follows_root (c : Converter) (r : Root) :
    Follows scope (r.walk c) (.ofExcept (r.judge c)) := by
  cases r with
  | db name => exact follows_node .db [.text name]
  | table t => exact follows_table t
  | dbCreate name => exact follows_node .dbCreate [.text name]
  | dbDrop name => exact follows_node .dbDrop [.text name]
  | dbList => exact follows_node .dbList []
  | tableCreate db name =>
      exact follows_bind_done (follows_node .db [.text db])
        (follows_node _ _)
  | tableDrop db name =>
      exact follows_bind_done (follows_node .db [.text db])
        (follows_node _ _)
  | tableList db =>
      exact follows_bind_done (follows_node .db [.text db])
        (follows_node _ _)
  | indexCreate t name =>
      exact follows_bind_done (follows_table t) (follows_node _ _)
  | indexDrop t name =>
      exact follows_bind_done (follows_table t) (follows_node _ _)
  | indexList t =>
      exact follows_bind_done (follows_table t) (follows_node _ _)
  | literal v => exact follows_literal c v
  | literalSeq vs =>
      rw [Root.walk, Root.judge, ofExcept_bind]
      exact follows_bind (follows_literals c vs) fun items =>
        follows_node .makeArray items
  | now => exact follows_node .now []
  | insert t v upsert =>
      rw [Root.walk, Root.judge, ofExcept_bind]
      refine follows_bind_done (follows_table t) ?_
      exact follows_bind (follows_literal c v) fun value =>
        follows_bind_done (follows_node .insert [t.term, value])
          (follows_done _)

/-! ## Functions

    Entering a function puts its parameters on top of the scope, the last
    one innermost, so that looking a parameter up from the top finds its
    last position among them before anything outside. -/

/-- What the parameters in a scope stand for. -/
def Environment.ofScope (scope : List (Param × Nat)) : Environment :=
  fun p => scope.lookup p

/-- Entering numbers the parameters in order and stacks them. -/
theorem enter_eq (n : Nat) (params : List Param) :
    Context.enter ⟨n, scope⟩ params
      = ⟨n + params.length,
          (params.zip (List.range' n params.length)).reverse ++ scope⟩ := by
  induction params generalizing n scope with
  | nil => rfl
  | cons p ps ih =>
      show Context.enter ⟨n + 1, (p, n) :: scope⟩ ps = _
      rw [ih (n + 1)]
      simp [List.range'_succ, Nat.add_comm, Nat.add_left_comm]

/-- Leaving undoes what entering did to the scope. -/
theorem drop_enter (n : Nat) (params : List Param) :
    (Context.enter ⟨n, scope⟩ params).scope.drop params.length = scope := by
  rw [enter_eq]
  exact List.drop_left' (by simp)

/-- Looking up from the top of the scope finds the last position first. -/
theorem resolve_enter (n : Nat) (params : List Param) :
    Environment.ofScope (Context.enter ⟨n, scope⟩ params).scope
      = (Environment.ofScope scope).declare params n := by
  induction params generalizing n scope with
  | nil => rfl
  | cons q qs ih =>
      -- The first parameter is entered first and the others on top of it,
      -- so the others are looked up before it.
      show Environment.ofScope
        (Context.enter ⟨n + 1, (q, n) :: scope⟩ qs).scope = _
      rw [ih (n + 1)]
      funext p
      rw [Environment.declare, Environment.declare, lastPosition?]
      cases lastPosition? p qs with
      | some i =>
          show some (n + 1 + i) = some (n + (i + 1))
          rw [Nat.add_right_comm, Nat.add_assoc]
      | none =>
          rw [Environment.ofScope, Environment.ofScope, List.lookup_cons]
          by_cases hqp : q = p
          · simp [hqp]
          · have hpq : (p == q) = false := by simpa using Ne.symm hqp
            simp [hqp, hpq]

/-- Functions follow functions when their bodies do, wherever the numbers
    of their parameters start. -/
theorem follows_function {params : List Param} {body : Walk Term}
    {bodyOf : Environment → Translation Term}
    (h : ∀ inner, Follows inner body (bodyOf (.ofScope inner))) :
    Follows scope (functionWalk params body)
      (functionTranslate params (.ofScope scope) bodyOf) := by
  intro n
  -- The body starts in the context that entering leaves.
  have hin := h (Context.enter ⟨n, scope⟩ params).scope (n + params.length)
  have hctx : (⟨n + params.length,
      (Context.enter ⟨n, scope⟩ params).scope⟩ : Context)
        = Context.enter ⟨n, scope⟩ params := by
    rw [enter_eq]
  rw [hctx, resolve_enter] at hin
  show (andThen (withParams params body) _ ⟨n, scope⟩).result
      = (Translation.andThen (bodyOf _) _ (n + params.length)).1 ∧
    (andThen (withParams params body) _ ⟨n, scope⟩).context
      = ⟨(Translation.andThen (bodyOf _) _ (n + params.length)).2, scope⟩
  rw [andThen, withParams, Translation.andThen]
  rcases hb : body (Context.enter ⟨n, scope⟩ params) with ⟨r, inner, notes⟩
  rcases ht : bodyOf ((Environment.ofScope scope).declare params n)
    (n + params.length) with ⟨s, m⟩
  rw [hb, ht] at hin
  obtain ⟨hr, hc⟩ := hin
  simp only at hr hc
  subst hr hc
  have hleave : Context.leave
      ⟨m, (Context.enter ⟨n, scope⟩ params).scope⟩ params.length
        = ⟨m, scope⟩ := by
    rw [Context.leave, drop_enter]
  -- The scope is left behind a failed body as well.
  cases r with
  | ok t => exact ⟨rfl, hleave⟩
  | error e => exact ⟨rfl, hleave⟩

/-- A function of one row is a function of one parameter. -/
theorem rowFunc_walk (c : Converter) (f : RowFunc) :
    f.walk c = f.toFunc.walk c := by
  cases f
  rfl

theorem rowFunc_translate (c : Converter) (env : Environment)
    (f : RowFunc) : f.translate c env = f.toFunc.translate c env := by
  cases f
  rfl

/-- A function of two rows is a function of two parameters. -/
theorem pairFunc_walk (c : Converter) (f : PairFunc) :
    f.walk c = f.toFunc.walk c := by
  cases f
  rfl

theorem pairFunc_translate (c : Converter) (env : Environment)
    (f : PairFunc) : f.translate c env = f.toFunc.translate c env := by
  cases f
  rfl

/-! ## Expressions and chains -/

/-- In every scope the walk of an expression follows its translation. -/
def Expr.Lexical (c : Converter) (e : Expr) : Prop :=
  ∀ scope, Follows scope (e.walk c) (e.translate c (.ofScope scope))

/-- In every scope the walk of a chain follows its translation. -/
def Query.Lexical (c : Converter) (q : Query) : Prop :=
  ∀ scope, Follows scope (q.walk c) (q.translate c (.ofScope scope))

variable {c : Converter}

theorem follows_func {f : Func} (h : f.body.Lexical c) :
    Follows scope (f.walk c) (f.translate c (.ofScope scope)) :=
  follows_function h

theorem follows_rowFunc {f : RowFunc} (h : f.toFunc.body.Lexical c) :
    Follows scope (f.walk c) (f.translate c (.ofScope scope)) := by
  rw [rowFunc_walk, rowFunc_translate]
  exact follows_func h

theorem follows_pairFunc {f : PairFunc} (h : f.toFunc.body.Lexical c) :
    Follows scope (f.walk c) (f.translate c (.ofScope scope)) := by
  rw [pairFunc_walk, pairFunc_translate]
  exact follows_func h

theorem follows_param (p : Param) :
    Follows scope (Expr.walk c (.param p))
      (Expr.translate c (.ofScope scope) (.param p)) := by
  intro n
  show (andThen (variableOf p) _ ⟨n, scope⟩).result
      = (Environment.reference (.ofScope scope) p n).1 ∧
    (andThen (variableOf p) _ ⟨n, scope⟩).context
      = ⟨(Environment.reference (.ofScope scope) p n).2, scope⟩
  simp only [andThen, variableOf, Environment.reference,
    Environment.ofScope, Context.resolve?]
  cases scope.lookup p with
  | some id => exact ⟨rfl, rfl⟩
  | none => exact ⟨rfl, rfl⟩

theorem follows_items {es : List Expr} (h : ∀ e ∈ es, e.Lexical c) :
    Follows scope (walkItems c es)
      (translateItems c (.ofScope scope) es) := by
  induction es with
  | nil => exact follows_done []
  | cons e es ih =>
      obtain ⟨he, hes⟩ := List.forall_mem_cons.mp h
      rw [walkItems, translateItems]
      exact follows_bind (he scope) fun t =>
        follows_bind (ih hes) fun ts => follows_done (t :: ts)

theorem follows_members {ms : List (String × Expr)}
    (h : ∀ m ∈ ms, m.2.Lexical c) (done : List (String × Term)) :
    Follows scope (walkMembers c ms done)
      (translateMembers c (.ofScope scope) ms done) := by
  induction ms generalizing done with
  | nil => exact follows_done done
  | cons m ms ih =>
      obtain ⟨name, e⟩ := m
      obtain ⟨he, hms⟩ := List.forall_mem_cons.mp h
      rw [walkMembers, translateMembers]
      refine follows_bind (he scope) fun t => ?_
      by_cases hd : Entries.has name done = true
      · rw [if_pos hd, if_pos hd]
        exact follows_unsupported (.duplicateMember name)
      · rw [if_neg hd, if_neg hd]
        exact ih hms (Entries.put name t done)

theorem follows_key {k : SortKey} (h : k.body.Lexical c) :
    Follows scope (k.walk c) (k.translate c (.ofScope scope)) := by
  obtain ⟨selector, direction⟩ := k
  rw [SortKey.walk, translate_key]
  refine follows_bind ?_ fun key => follows_done _
  cases selector.toFunc.memberName? with
  | some name => exact follows_done (Term.text name)
  | none => exact follows_rowFunc h

theorem follows_keys {ks : List SortKey} (h : ∀ k ∈ ks, k.body.Lexical c) :
    Follows scope (walkKeys c ks)
      (translateKeys c (.ofScope scope) ks) := by
  induction ks with
  | nil => exact follows_done []
  | cons k ks ih =>
      obtain ⟨hk, hks⟩ := List.forall_mem_cons.mp h
      rw [walkKeys, translateKeys]
      exact follows_bind (follows_key hk) fun t =>
        follows_bind (ih hks) fun ts => follows_done (t :: ts)

/-- Walks follow translations, form by form. -/
theorem lexical_hereditary (c : Converter) :
    Hereditary (Expr.Lexical c) (Query.Lexical c) where
  param p _ := follows_param p
  literal v _ := follows_literal c v
  field _ _ he scope := follows_bind (he scope) fun _ => follows_done _
  compare _ _ _ ha hb scope :=
    follows_bind (ha scope) fun _ =>
      follows_bind (hb scope) fun _ => follows_done _
  arith _ _ _ ha hb scope :=
    follows_bind (ha scope) fun _ =>
      follows_bind (hb scope) fun _ => follows_done _
  all _ hes _ := follows_bind (follows_items hes) fun _ => follows_done _
  any _ hes _ := follows_bind (follows_items hes) fun _ => follows_done _
  not _ he scope := follows_bind (he scope) fun _ => follows_done _
  array _ hes _ := follows_bind (follows_items hes) fun _ => follows_done _
  object _ hms _ :=
    follows_bind (follows_members hms []) fun _ => follows_done _
  call name es hes _ :=
    follows_bind (follows_check name es.length) fun _ =>
      follows_bind (follows_items hes) fun _ => follows_done _
  subquery _ _ hq := hq
  root r _ := follows_root c r
  indexCreateWith t _ _ hkey _ :=
    follows_bind_done (follows_table t) <|
      follows_bind (follows_rowFunc hkey) fun _ => follows_node _ _
  step _ s hq scope :=
    follows_bind (hq scope) fun _ =>
      follows_bind (follows_literals c s.literals) fun _ =>
        follows_bind_done (follows_node _ _) (follows_done _)
  rowStep _ _ _ hq hf scope :=
    follows_bind (hq scope) fun _ =>
      follows_bind (follows_rowFunc hf) fun _ =>
        follows_bind_done (follows_node _ _) (follows_done _)
  orderBy _ _ _ hq hfirst hothers scope :=
    follows_bind (hq scope) fun _ =>
      follows_bind (follows_key hfirst) fun _ =>
        follows_bind (follows_keys hothers) fun _ => follows_node _ _
  union _ _ ha hb scope :=
    follows_bind (ha scope) fun _ =>
      follows_bind (hb scope) fun _ => follows_node _ _
  reduce _ _ base hq hf scope :=
    follows_bind (hq scope) fun _ =>
      follows_bind (follows_pairFunc hf) fun _ =>
        follows_bind (follows_optionalLiteral c base) fun _ =>
          follows_bind_done (follows_node _ _) (follows_done _)
  groupBy _ reduction _ hq hkey scope :=
    follows_bind (hq scope) fun _ =>
      follows_bind (follows_rowFunc hkey) fun _ =>
        follows_bind (follows_reduction reduction) fun _ =>
          follows_node _ _
  groupedMapReduce _ _ _ _ base hq hg hm hr scope :=
    follows_bind (hq scope) fun _ =>
      follows_bind (follows_rowFunc hg) fun _ =>
        follows_bind (follows_rowFunc hm) fun _ =>
          follows_bind (follows_pairFunc hr) fun _ =>
            follows_bind (follows_optionalLiteral c base) fun _ =>
              follows_bind_done (follows_node _ _) (follows_done _)
  join _ _ _ _ ha hb hf scope :=
    follows_bind (ha scope) fun _ =>
      follows_bind (hb scope) fun _ =>
        follows_bind (follows_pairFunc hf) fun _ => follows_node _ _
  eqJoin _ member _ _ ha hb scope :=
    follows_bind (ha scope) fun _ =>
      follows_bind (follows_member .eqJoin member) fun _ =>
        follows_bind (hb scope) fun _ =>
          follows_bind_done (follows_node _ _) (follows_done _)

/-- **Binding is lexical.**  In every context, walking a chain, a function
    or an expression gives the term or the error, and uses up the numbers,
    that its translation does in the environment of the context, and
    leaves the scope as it was: each parameter stands for what the
    innermost function around it that declares it was given, or else for
    its innermost binding in the context, and functions side by side know
    nothing of each other. -/
theorem walk_eq_translate (c : Converter) (ctx : Context) :
    (∀ q : Query,
      (q.walk c ctx).result = (q.translate c ctx.resolve? ctx.next).1 ∧
      (q.walk c ctx).context
        = ⟨(q.translate c ctx.resolve? ctx.next).2, ctx.scope⟩) ∧
    (∀ f : Func,
      (f.walk c ctx).result = (f.translate c ctx.resolve? ctx.next).1 ∧
      (f.walk c ctx).context
        = ⟨(f.translate c ctx.resolve? ctx.next).2, ctx.scope⟩) ∧
    (∀ e : Expr,
      (e.walk c ctx).result = (e.translate c ctx.resolve? ctx.next).1 ∧
      (e.walk c ctx).context
        = ⟨(e.translate c ctx.resolve? ctx.next).2, ctx.scope⟩) := by
  have hchain := lexical_hereditary c
  refine ⟨?_, ?_, ?_⟩
  · intro q
    exact hchain.query q ctx.scope ctx.next
  · intro f
    exact follows_func (hchain.expr f.body) ctx.next
  · intro e
    exact hchain.expr e ctx.scope ctx.next

end ChainQuery
