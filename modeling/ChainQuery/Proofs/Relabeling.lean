import ChainQuery.Proofs.Runs

/-! # Relabeling — the same chain with other parameters

    Parameters are told apart by numbers that nobody chose.  Put other
    parameters in their places, different ones for different ones, in a
    chain and in the scope it is walked in, and the walk does the same: it
    asks the same questions, uses the same numbers and ends with the same
    term, or with the same error about the parameter that took the place
    of the one it was about.  The route:

    * `Walk.Relabels` compares two walks in every context and its relabeled
      copy; it passes through sequences (`relabels_bind`);
    * a relabeled scope resolves relabeled parameters alike
      (`resolve_relabel`), so it passes through functions
      (`relabels_withParams`);
    * a selector reads the member of its own row before and after
      (`memberName_relabel`).

    Both of the last two need different parameters to stay different. -/

namespace ChainQuery

open Walk

/-! ## Relabelings -/

/-- Other parameters for parameters, different ones for different ones;
    and other identities for embedded queries, of which nothing is
    asked. -/
structure Relabeling where
  param : Param → Param
  identity : Nat → Nat
  injective : Function.Injective param

mutual

/-- An expression with its parameters relabeled. -/
def Expr.relabel (r : Relabeling) : Expr → Expr
  | .param p => .param (r.param p)
  | .literal v => .literal v
  | .field target name => .field (Expr.relabel r target) name
  | .compare op left right =>
      .compare op (Expr.relabel r left) (Expr.relabel r right)
  | .arith op left right =>
      .arith op (Expr.relabel r left) (Expr.relabel r right)
  | .all items => .all (relabelItems r items)
  | .any items => .any (relabelItems r items)
  | .not e => .not (Expr.relabel r e)
  | .array items => .array (relabelItems r items)
  | .object members => .object (relabelMembers r members)
  | .call name args => .call name (relabelItems r args)
  | .subquery identity q =>
      .subquery (r.identity identity) (Query.relabel r q)
termination_by structural e => e

/-- Expressions with their parameters relabeled. -/
def relabelItems (r : Relabeling) : List Expr → List Expr
  | [] => []
  | e :: es => Expr.relabel r e :: relabelItems r es
termination_by structural es => es

/-- Object members with their parameters relabeled. -/
def relabelMembers (r : Relabeling) :
    List (String × Expr) → List (String × Expr)
  | [] => []
  | (name, e) :: rest => (name, Expr.relabel r e) :: relabelMembers r rest
termination_by structural members => members

/-- A function of one row with its parameters relabeled. -/
def RowFunc.relabel (r : Relabeling) : RowFunc → RowFunc
  | .mk row body => .mk (r.param row) (Expr.relabel r body)
termination_by structural f => f

/-- A function of two rows with its parameters relabeled. -/
def PairFunc.relabel (r : Relabeling) : PairFunc → PairFunc
  | .mk left right body =>
      .mk (r.param left) (r.param right) (Expr.relabel r body)
termination_by structural f => f

/-- A sort key with its parameters relabeled. -/
def SortKey.relabel (r : Relabeling) : SortKey → SortKey
  | .mk selector direction => .mk (RowFunc.relabel r selector) direction
termination_by structural k => k

/-- Sort keys with their parameters relabeled. -/
def relabelKeys (r : Relabeling) : List SortKey → List SortKey
  | [] => []
  | k :: ks => SortKey.relabel r k :: relabelKeys r ks
termination_by structural ks => ks

/-- A reduction with its parameters relabeled. -/
def Reduction.relabel (r : Relabeling) : Reduction → Reduction
  | .count => .count
  | .sum member => .sum (RowFunc.relabel r member)
  | .average member => .average (RowFunc.relabel r member)
termination_by structural reduction => reduction

/-- A chain with its parameters relabeled. -/
def Query.relabel (r : Relabeling) : Query → Query
  | .root root => .root root
  | .indexCreateWith t name key =>
      .indexCreateWith t name (RowFunc.relabel r key)
  | .step source s => .step (Query.relabel r source) s
  | .rowStep source s f =>
      .rowStep (Query.relabel r source) s (RowFunc.relabel r f)
  | .orderBy source first others =>
      .orderBy (Query.relabel r source) (SortKey.relabel r first)
        (relabelKeys r others)
  | .union first second =>
      .union (Query.relabel r first) (Query.relabel r second)
  | .reduce source f base =>
      .reduce (Query.relabel r source) (PairFunc.relabel r f) base
  | .groupBy source reduction key =>
      .groupBy (Query.relabel r source) (Reduction.relabel r reduction)
        (RowFunc.relabel r key)
  | .groupedMapReduce source grouping mapping reduction base =>
      .groupedMapReduce (Query.relabel r source)
        (RowFunc.relabel r grouping) (RowFunc.relabel r mapping)
        (PairFunc.relabel r reduction) base
  | .join kind left right predicate =>
      .join kind (Query.relabel r left) (Query.relabel r right)
        (PairFunc.relabel r predicate)
  | .eqJoin left member right index =>
      .eqJoin (Query.relabel r left) (RowFunc.relabel r member)
        (Query.relabel r right) index
termination_by structural q => q

end

/-- A function with its parameters relabeled. -/
def Func.relabel (r : Relabeling) (f : Func) : Func :=
  ⟨f.params.map r.param, f.body.relabel r⟩

/-- A job with its parameters relabeled. -/
def Job.relabel (r : Relabeling) : Job → Job
  | .query q => .query (q.relabel r)
  | .func f => .func (f.relabel r)
  | .expr e => .expr (e.relabel r)
  | .literal v => .literal v

/-- A context whose scope has its parameters relabeled. -/
def Context.relabel (r : Relabeling) (ctx : Context) : Context :=
  ⟨ctx.next, ctx.scope.map fun b => (r.param b.1, b.2)⟩

/-- An error about the parameter in the place of another. -/
def TermError.relabel (r : Relabeling) : TermError → TermError
  | .unsupported (.freeParam p) => .unsupported (.freeParam (r.param p))
  | e => e

/-- An event with its error relabeled. -/
def Event.relabel (r : Relabeling) : Event → Event
  | .built kind args => .built kind args
  | .expressionFailed e => .expressionFailed (e.relabel r)
  | .selectorFailed e => .selectorFailed (e.relabel r)
  | .generated kind nodes => .generated kind nodes
  | .failed e => .failed (e.relabel r)

/-- A note with its error relabeled; questions have none. -/
def Note.relabel (r : Relabeling) : Note → Note
  | .asked q => .asked q
  | .reported e => .reported (e.relabel r)

variable {α β : Type} {r : Relabeling} {c : Converter}

/-- An outcome with errors and scope relabeled. -/
def Outcome.relabel (r : Relabeling) (o : Outcome α) : Outcome α :=
  ⟨o.result.mapError (.relabel r), o.context.relabel r,
   o.notes.map (.relabel r)⟩

theorem relabelItems_eq (es : List Expr) :
    relabelItems r es = es.map (Expr.relabel r) := by
  induction es with
  | nil => rfl
  | cons e es ih => rw [relabelItems, ih, List.map_cons]

theorem relabelItems_length (es : List Expr) :
    (relabelItems r es).length = es.length := by
  rw [relabelItems_eq, List.length_map]

theorem rowFunc_relabel (f : RowFunc) :
    (f.relabel r).toFunc = f.toFunc.relabel r := by
  cases f
  rfl

theorem pairFunc_relabel (f : PairFunc) :
    (f.relabel r).toFunc = f.toFunc.relabel r := by
  cases f
  rfl

/-! ## Selectors and scopes -/

theorem form_relabel (e : Expr) : (e.relabel r).form = e.form := by
  cases e <;> rfl

/-- A selector reads the member of its own row, before and after. -/
theorem memberName_relabel (f : Func) :
    (f.relabel r).memberName? = f.memberName? := by
  obtain ⟨params, body⟩ := f
  cases params with
  | nil => rfl
  | cons first rest =>
      cases body with
      | field target name =>
          cases target with
          | param p =>
              -- Only here are two parameters compared.
              show (if r.param p = r.param first then some name else none)
                = if p = first then some name else none
              simp only [r.injective.eq_iff]
          | _ => rfl
      | _ => rfl

/-- A relabeled scope resolves relabeled parameters alike. -/
theorem resolve_relabel (ctx : Context) (p : Param) :
    (ctx.relabel r).resolve? (r.param p) = ctx.resolve? p := by
  obtain ⟨next, scope⟩ := ctx
  show (scope.map fun b => (r.param b.1, b.2)).lookup (r.param p)
    = scope.lookup p
  induction scope with
  | nil => rfl
  | cons b scope ih =>
      have hkey : (r.param p == r.param b.1) = (p == b.1) := by
        rw [Bool.eq_iff_iff, beq_iff_eq, beq_iff_eq, r.injective.eq_iff]
      rw [List.map_cons, List.lookup_cons, List.lookup_cons, hkey, ih]

theorem enter_relabel (ctx : Context) (params : List Param) :
    (ctx.relabel r).enter (params.map r.param)
      = (ctx.enter params).relabel r := by
  induction params generalizing ctx with
  | nil => rfl
  | cons p params ih => exact ih (ctx.bindParam p)

theorem leave_relabel (ctx : Context) (count : Nat) :
    (ctx.relabel r).leave count = (ctx.leave count).relabel r := by
  simp [Context.relabel, Context.leave, List.map_drop]

/-! ## Walks -/

/-- In every context whose scope is relabeled, the second walk does what
    the first does, relabeled. -/
def Walk.Relabels (r : Relabeling) (x y : Walk α) : Prop :=
  ∀ ctx, y (ctx.relabel r) = (x ctx).relabel r

theorem relabels_done (a : α) : Relabels r (pure a) (pure a) :=
  fun _ => rfl

theorem relabels_write (q : Question) :
    Relabels r (write (.asked q)) (write (.asked q)) :=
  fun _ => rfl

theorem relabels_convert (e : ConvertError) :
    Relabels r (fail (.convert e) : Walk α) (fail (.convert e)) :=
  fun _ => rfl

theorem relabels_node (kind : Term.Kind) (args : List Term) :
    Relabels r (node kind args) (node kind args) :=
  fun _ => rfl

/-- Sequences relabel sequences. -/
theorem relabels_bind {x y : Walk α} {f g : α → Walk β}
    (hx : Relabels r x y) (hf : ∀ a, Relabels r (f a) (g a)) :
    Relabels r (x >>= f) (y >>= g) := by
  intro ctx
  show andThen y g (ctx.relabel r) = (andThen x f ctx).relabel r
  rw [andThen, andThen, hx ctx]
  rcases x ctx with ⟨result, middle, notes⟩
  cases result with
  | error e => rfl
  | ok a =>
      -- The second step starts where the first one, relabeled, ended.
      show (⟨(g a (middle.relabel r)).result,
        (g a (middle.relabel r)).context, _⟩ : Outcome β) = _
      rw [hf a middle]
      simp [Outcome.relabel]

/-- A parameter resolves alike, or is reported as the one in its place. -/
theorem relabels_variableOf (p : Param) :
    Relabels r (variableOf p) (variableOf (r.param p)) := by
  intro ctx
  rw [variableOf, variableOf, resolve_relabel]
  cases ctx.resolve? p with
  | some id => rfl
  | none => rfl

/-- Functions relabel functions when their bodies do. -/
theorem relabels_withParams {params : List Param} {x y : Walk α}
    (h : Relabels r x y) :
    Relabels r (withParams params x)
      (withParams (params.map r.param) y) := by
  intro ctx
  rw [withParams, withParams, enter_relabel, h (ctx.enter params),
    List.length_map]
  rcases x (ctx.enter params) with ⟨result, inner, notes⟩
  show (⟨_, (inner.relabel r).leave params.length, _⟩ : Outcome _) = _
  rw [leave_relabel]
  cases result with
  | ok a => rfl
  | error e => rfl

theorem relabels_function {params : List Param} {x y : Walk Term}
    (h : Relabels r x y) :
    Relabels r (functionWalk params x)
      (functionWalk (params.map r.param) y) :=
  relabels_bind (relabels_withParams h) fun _ => relabels_done _

/-! ## Literals and roots

    These mention no parameter and are the same on both sides. -/

theorem relabels_requireKind (kind : Value.Kind) :
    Relabels r (c.requireKind kind) (c.requireKind kind) := by
  rw [Converter.requireKind]
  refine relabels_bind (relabels_write _) fun _ => ?_
  by_cases hk : c.supports kind = true
  · rw [if_pos hk]
    exact relabels_done ()
  · rw [if_neg hk]
    exact relabels_convert _

theorem relabels_requirePending (pending : List Value) :
    Relabels r (c.requirePending pending) (c.requirePending pending) := by
  induction pending using Converter.requirePending.induct with
  | case1 =>
      rw [Converter.requirePending]
      exact relabels_done ()
  | case2 v pending ih =>
      rw [Converter.requirePending]
      exact relabels_bind (relabels_requireKind v.kind) fun _ => ih

theorem relabels_literal (v : Value) :
    Relabels r (c.literal v) (c.literal v) := by
  refine relabels_bind (relabels_requirePending [v]) fun _ => ?_
  refine relabels_bind (relabels_write _) fun _ => ?_
  cases c.convert v with
  | ok d => exact relabels_done _
  | error e => exact relabels_convert e

theorem relabels_literals (vs : List Value) :
    Relabels r (c.literals vs) (c.literals vs) := by
  induction vs with
  | nil => exact relabels_done []
  | cons v vs ih =>
      rw [Converter.literals]
      exact relabels_bind (relabels_literal v) fun _ =>
        relabels_bind ih fun _ => relabels_done _

theorem relabels_optionalLiteral (base : Option Value) :
    Relabels r (c.optionalLiteral base) (c.optionalLiteral base) := by
  cases base with
  | none => exact relabels_done none
  | some v =>
      exact relabels_bind (relabels_literal v) fun _ => relabels_done _

theorem relabels_check (name : String) (given : Nat) :
    Relabels r (RemoteCall.check name given)
      (RemoteCall.check name given) := by
  rw [RemoteCall.check]
  cases RemoteCall.find? name with
  | none => exact fun _ => rfl
  | some call =>
      simp only
      by_cases hg : call.arity = given
      · rw [if_pos hg]
        exact relabels_done _
      · rw [if_neg hg]
        exact fun _ => rfl

theorem relabels_database (name : String) :
    Relabels r (databaseWalk name) (databaseWalk name) :=
  relabels_node _ _

theorem relabels_table (t : Table) : Relabels r t.walk t.walk := by
  obtain ⟨db, name, useOutdated⟩ := t
  cases db with
  | none => exact fun _ => rfl
  | some db => exact fun _ => rfl

theorem relabels_root (root : Root) :
    Relabels r (root.walk c) (root.walk c) := by
  cases root with
  | literal v => exact relabels_literal v
  | literalSeq vs =>
      exact relabels_bind (relabels_literals vs) fun _ =>
        relabels_node _ _
  | table t => exact relabels_table t
  | insert t v upsert =>
      exact relabels_bind (relabels_table t) fun _ =>
        relabels_bind (relabels_literal v) fun _ =>
          relabels_bind (relabels_node _ _) fun _ => relabels_done _
  | db | dbCreate | dbDrop | dbList | now => exact relabels_node _ _
  | tableCreate | tableDrop | tableList =>
      exact relabels_bind (relabels_database _) fun _ =>
        relabels_node _ _
  | indexCreate t | indexDrop t | indexList t =>
      exact relabels_bind (relabels_table t) fun _ => relabels_node _ _

/-! ## Expressions and chains -/

/-- A relabeled expression is walked alike. -/
def Expr.Relabels (r : Relabeling) (c : Converter) (e : Expr) : Prop :=
  Walk.Relabels r (e.walk c) ((e.relabel r).walk c)

/-- A relabeled chain is walked alike. -/
def Query.Relabels (r : Relabeling) (c : Converter) (q : Query) : Prop :=
  Walk.Relabels r (q.walk c) ((q.relabel r).walk c)

theorem relabels_func {f : Func} (h : f.body.Relabels r c) :
    Walk.Relabels r (f.walk c) ((f.relabel r).walk c) :=
  relabels_function h

theorem relabels_rowFunc {f : RowFunc} (h : f.toFunc.body.Relabels r c) :
    Walk.Relabels r (f.walk c) ((f.relabel r).walk c) := by
  rw [rowFunc_walk, rowFunc_walk, rowFunc_relabel]
  exact relabels_func h

theorem relabels_pairFunc {f : PairFunc} (h : f.toFunc.body.Relabels r c) :
    Walk.Relabels r (f.walk c) ((f.relabel r).walk c) := by
  rw [pairFunc_walk, pairFunc_walk, pairFunc_relabel]
  exact relabels_func h

theorem relabels_member (use : SelectorUse) (f : RowFunc) :
    Walk.Relabels r (f.member use) ((f.relabel r).member use) := by
  rw [RowFunc.member, RowFunc.member, rowFunc_relabel, memberName_relabel]
  cases f.toFunc.memberName? with
  | some name => exact relabels_done _
  | none =>
      show Walk.Relabels r _
        (notMember use (f.toFunc.body.relabel r).form)
      rw [form_relabel]
      exact fun _ => rfl

theorem relabels_reduction (reduction : Reduction) :
    Walk.Relabels r reduction.walk (reduction.relabel r).walk := by
  cases reduction with
  | count => exact relabels_done _
  | sum f =>
      exact relabels_bind (relabels_member .sum f) fun _ =>
        relabels_done _
  | average f =>
      exact relabels_bind (relabels_member .average f) fun _ =>
        relabels_done _

theorem relabels_items {es : List Expr} (h : ∀ e ∈ es, e.Relabels r c) :
    Walk.Relabels r (walkItems c es) (walkItems c (relabelItems r es)) := by
  induction es with
  | nil => exact relabels_done []
  | cons e es ih =>
      obtain ⟨he, hes⟩ := List.forall_mem_cons.mp h
      rw [relabelItems, walkItems, walkItems]
      exact relabels_bind he fun _ =>
        relabels_bind (ih hes) fun _ => relabels_done _

theorem relabels_members {ms : List (String × Expr)}
    (h : ∀ m ∈ ms, m.2.Relabels r c) (done : List (String × Term)) :
    Walk.Relabels r (walkMembers c ms done)
      (walkMembers c (relabelMembers r ms) done) := by
  induction ms generalizing done with
  | nil => exact relabels_done done
  | cons m ms ih =>
      obtain ⟨name, e⟩ := m
      obtain ⟨he, hms⟩ := List.forall_mem_cons.mp h
      rw [relabelMembers, walkMembers, walkMembers]
      refine relabels_bind he fun t => ?_
      by_cases hd : Entries.has name done = true
      · rw [if_pos hd, if_pos hd]
        exact fun _ => rfl
      · rw [if_neg hd, if_neg hd]
        exact ih hms (Entries.put name t done)

theorem relabels_key {k : SortKey} (h : k.body.Relabels r c) :
    Walk.Relabels r (k.walk c) ((k.relabel r).walk c) := by
  obtain ⟨selector, direction⟩ := k
  rw [SortKey.relabel, SortKey.walk, SortKey.walk, rowFunc_relabel,
    memberName_relabel]
  refine relabels_bind ?_ fun _ => relabels_done _
  cases selector.toFunc.memberName? with
  | some name => exact relabels_done _
  | none => exact relabels_rowFunc h

theorem relabels_keys {ks : List SortKey}
    (h : ∀ k ∈ ks, k.body.Relabels r c) :
    Walk.Relabels r (walkKeys c ks) (walkKeys c (relabelKeys r ks)) := by
  induction ks with
  | nil => exact relabels_done []
  | cons k ks ih =>
      obtain ⟨hk, hks⟩ := List.forall_mem_cons.mp h
      rw [relabelKeys, walkKeys, walkKeys]
      exact relabels_bind (relabels_key hk) fun _ =>
        relabels_bind (ih hks) fun _ => relabels_done _

/-- Every form of node is walked alike. -/
theorem relabels_hereditary (r : Relabeling) (c : Converter) :
    Hereditary (Expr.Relabels r c) (Query.Relabels r c) where
  param p :=
    relabels_bind (relabels_variableOf p) fun _ => relabels_done _
  literal v := relabels_literal v
  field _ _ he := relabels_bind he fun _ => relabels_done _
  compare _ _ _ ha hb :=
    relabels_bind ha fun _ => relabels_bind hb fun _ => relabels_done _
  arith _ _ _ ha hb :=
    relabels_bind ha fun _ => relabels_bind hb fun _ => relabels_done _
  all _ hes := relabels_bind (relabels_items hes) fun _ => relabels_done _
  any _ hes := relabels_bind (relabels_items hes) fun _ => relabels_done _
  not _ he := relabels_bind he fun _ => relabels_done _
  array _ hes := relabels_bind (relabels_items hes) fun _ => relabels_done _
  object _ hms :=
    relabels_bind (relabels_members hms []) fun _ => relabels_done _
  call name es hes := by
    rw [Expr.Relabels, Expr.relabel, Expr.walk, Expr.walk,
      relabelItems_length]
    exact relabels_bind (relabels_check name es.length) fun _ =>
      relabels_bind (relabels_items hes) fun _ => relabels_done _
  subquery _ _ hq := hq
  root root := relabels_root root
  indexCreateWith t _ _ hkey :=
    relabels_bind (relabels_table t) fun _ =>
      relabels_bind (relabels_rowFunc hkey) fun _ => relabels_node _ _
  step _ s hq :=
    relabels_bind hq fun _ =>
      relabels_bind (relabels_literals s.literals) fun _ =>
        relabels_bind (relabels_node _ _) fun _ => relabels_done _
  rowStep _ _ _ hq hf :=
    relabels_bind hq fun _ =>
      relabels_bind (relabels_rowFunc hf) fun _ =>
        relabels_bind (relabels_node _ _) fun _ => relabels_done _
  orderBy _ _ _ hq hfirst hothers :=
    relabels_bind hq fun _ =>
      relabels_bind (relabels_key hfirst) fun _ =>
        relabels_bind (relabels_keys hothers) fun _ => relabels_node _ _
  union _ _ ha hb :=
    relabels_bind ha fun _ =>
      relabels_bind hb fun _ => relabels_node _ _
  reduce _ _ base hq hf :=
    relabels_bind hq fun _ =>
      relabels_bind (relabels_pairFunc hf) fun _ =>
        relabels_bind (relabels_optionalLiteral base) fun _ =>
          relabels_bind (relabels_node _ _) fun _ => relabels_done _
  groupBy _ reduction _ hq hkey :=
    relabels_bind hq fun _ =>
      relabels_bind (relabels_rowFunc hkey) fun _ =>
        relabels_bind (relabels_reduction reduction) fun _ =>
          relabels_node _ _
  groupedMapReduce _ _ _ _ base hq hg hm hr :=
    relabels_bind hq fun _ =>
      relabels_bind (relabels_rowFunc hg) fun _ =>
        relabels_bind (relabels_rowFunc hm) fun _ =>
          relabels_bind (relabels_pairFunc hr) fun _ =>
            relabels_bind (relabels_optionalLiteral base) fun _ =>
              relabels_bind (relabels_node _ _) fun _ => relabels_done _
  join _ _ _ _ ha hb hf :=
    relabels_bind ha fun _ =>
      relabels_bind hb fun _ =>
        relabels_bind (relabels_pairFunc hf) fun _ => relabels_node _ _
  eqJoin _ member _ _ ha hb :=
    relabels_bind ha fun _ =>
      relabels_bind (relabels_member .eqJoin member) fun _ =>
        relabels_bind hb fun _ =>
          relabels_bind (relabels_node _ _) fun _ => relabels_done _

/-- Every job is walked alike. -/
theorem relabels_job (r : Relabeling) (c : Converter) (job : Job) :
    Walk.Relabels r (job.walk c) ((job.relabel r).walk c) := by
  cases job with
  | query q => exact (relabels_hereditary r c).query q
  | func f => exact relabels_func ((relabels_hereditary r c).expr f.body)
  | expr e => exact (relabels_hereditary r c).expr e
  | literal v => exact relabels_literal v

/-! ## Outcomes -/

/-- An error without the number of the parameter it is about. -/
def TermError.unnumbered : TermError → TermError
  | .unsupported (.freeParam _) => .unsupported (.freeParam ⟨0⟩)
  | e => e

/-- Outcomes that differ at most in the numbers of parameters in errors:
    the same term or an error of the same cause, the same numbers used up,
    the same questions asked. -/
structure Outcome.Matches (o o' : Outcome Term) : Prop where
  result : o.result.mapError TermError.unnumbered
    = o'.result.mapError TermError.unnumbered
  next : o.context.next = o'.context.next
  questions : Note.questions o.notes = Note.questions o'.notes

theorem Outcome.Matches.symm {o o' : Outcome Term} (h : o.Matches o') :
    o'.Matches o :=
  ⟨h.result.symm, h.next.symm, h.questions.symm⟩

theorem Outcome.Matches.trans {o o' o'' : Outcome Term}
    (h : o.Matches o') (h' : o'.Matches o'') : o.Matches o'' :=
  ⟨h.result.trans h'.result, h.next.trans h'.next,
    h.questions.trans h'.questions⟩

theorem questions_relabel (notes : List Note) :
    Note.questions (notes.map (Note.relabel r)) = Note.questions notes := by
  induction notes with
  | nil => rfl
  | cons note notes ih =>
      cases note with
      | asked q => exact congrArg (q :: ·) ih
      | reported e => exact ih

theorem unnumbered_relabel (result : Except TermError Term) :
    (result.mapError (TermError.relabel r)).mapError
        TermError.unnumbered
      = result.mapError TermError.unnumbered := by
  cases result with
  | ok t => rfl
  | error e =>
      cases e with
      | convert e => rfl
      | unsupported u => cases u <;> rfl

theorem matches_relabel (o : Outcome Term) : o.Matches (o.relabel r) where
  result := (unnumbered_relabel o.result).symm
  next := rfl
  questions := (questions_relabel o.notes).symm

/-- A relabeled chain is generated alike, events included. -/
theorem generate_relabel (c : Converter) (q : Query) :
    (q.relabel r).generate c = (q.generate c).relabel r := by
  have hwalk : (q.relabel r).walk c .fresh = (q.walk c .fresh).relabel r :=
    relabels_job r c (.query q) .fresh
  rw [Query.generate, Query.generate, hwalk]
  rcases q.walk c .fresh with ⟨result, context, notes⟩
  cases result with
  | ok t =>
      show _ = Outcome.mk _ _ (List.map (Note.relabel r) (notes ++ [_]))
      rw [List.map_append]
      rfl
  | error e =>
      show _ = Outcome.mk _ _ (List.map (Note.relabel r) (notes ++ [_]))
      rw [List.map_append]
      rfl

end ChainQuery
