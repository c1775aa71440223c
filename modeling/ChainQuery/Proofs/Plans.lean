import Mathlib.Logic.Relation
import ChainQuery.Proofs.Runs

/-! # Plans — a walk taken one step at a time

    A walk says what comes of a context, and nothing of what the context is
    like on the way.  A plan is the same generation as something to be
    done: look a parameter up, open a function, end.  A point is how far a
    plan has been carried out, with the context and the functions that are
    open, and one step leads from point to point; parameters enter the
    scope one at a time.  The route:

    * `Walk.Plays` says that a plan carried out from any context comes to
      the result of the walk and to the context that the walk leaves
      behind; it passes through sequences (`plays_bind`) and functions
      (`plays_function`);
    * parts that neither open functions nor meet parameters are plans that
      end at once (`plays_result`), and all forms of node are made of these
      (`played_hereditary`);
    * so the points of a plan are the points of its walk
      (`steps_job`). -/

namespace ChainQuery

/-! ## Plans -/

/-- What is left to be done. -/
inductive Plan where
  /-- End with a result. -/
  | finish (r : Except TermError Term)
  /-- Look a parameter up and go on with the variable found, if any. -/
  | look (p : Param) (next : Option Nat → Plan)
  /-- Open a function, and go on with its term when its body has ended. -/
  | function (params : List Param) (body : Plan) (next : Term → Plan)

/-- The plan of a part, given what is to be done with its result. -/
def Planning (α : Type) : Type :=
  (α → Plan) → Plan

namespace Planning

variable {α β : Type}

/-- Give a result and do nothing. -/
def done (a : α) : Planning α :=
  fun next => next a

/-- One part after another. -/
def andThen (x : Planning α) (f : α → Planning β) : Planning β :=
  fun next => x fun a => f a next

instance : Monad Planning where
  pure := done
  bind := andThen

/-- Go on with a result, or end with an error. -/
def ofExcept (r : Except TermError α) : Planning α := fun next =>
  match r with
  | .ok a => next a
  | .error e => .finish (.error e)

/-- The plan of a part that is all there is to do. -/
def whole (x : Planning Term) : Plan :=
  x fun t => .finish (.ok t)

/-- The reference a parameter stands for. -/
def reference (p : Param) : Planning Term := fun next =>
  .look p fun
    | some id => next (.variableRef id)
    | none => .finish (.error (.unsupported (.freeParam p)))

/-- The term of a function, given the plan of its body. -/
def function (params : List Param) (body : Planning Term) :
    Planning Term :=
  fun next => .function params body.whole next

/-- A name as a leaf, or another plan where there is none. -/
def nameOr (name : Option String) (otherwise : Planning Term) :
    Planning Term :=
  match name with
  | some name => return .text name
  | none => otherwise

end Planning

open Planning

mutual

/-- The plan of an expression. -/
def Expr.plan (c : Converter) : Expr → Planning Term
  | .param p => reference p
  | .literal v => ofExcept (c.judge v)
  | .field target name => do
      let target ← Expr.plan c target
      return .node .getField [target, .text name]
  | .compare op left right => do
      let left ← Expr.plan c left
      let right ← Expr.plan c right
      return .node op.kind [left, right]
  | .arith op left right => do
      let left ← Expr.plan c left
      let right ← Expr.plan c right
      return .node op.kind [left, right]
  | .all items => do
      let items ← planItems c items
      return .node .and items
  | .any items => do
      let items ← planItems c items
      return .node .or items
  | .not e => do
      let e ← Expr.plan c e
      return .node .not [e]
  | .array items => do
      let items ← planItems c items
      return .node .makeArray items
  | .object members => do
      let members ← planMembers c members []
      return .apply .makeObj [] members
  | .call name args => do
      let kind ← ofExcept (RemoteCall.judge name args.length)
      let args ← planItems c args
      return .node kind args
  | .subquery _ q => Query.plan c q
termination_by structural e => e

/-- The plan of expressions, in order. -/
def planItems (c : Converter) : List Expr → Planning (List Term)
  | [] => return []
  | e :: es => do
      let t ← Expr.plan c e
      let ts ← planItems c es
      return t :: ts
termination_by structural es => es

/-- The plan of object members, in order, on top of those `done`. -/
def planMembers (c : Converter) :
    List (String × Expr) → List (String × Term) →
      Planning (List (String × Term))
  | [], done => return done
  | (name, e) :: rest, done => do
      let t ← Expr.plan c e
      if Entries.has name done then
        ofExcept (.error (.unsupported (.duplicateMember name)))
      else planMembers c rest (Entries.put name t done)
termination_by structural members => members

/-- The plan of a function of one row. -/
def RowFunc.plan (c : Converter) : RowFunc → Planning Term
  | .mk row body => function [row] (Expr.plan c body)
termination_by structural f => f

/-- The plan of a function of two rows. -/
def PairFunc.plan (c : Converter) : PairFunc → Planning Term
  | .mk left right body => function [left, right] (Expr.plan c body)
termination_by structural f => f

/-- The plan of a sort key. -/
def SortKey.plan (c : Converter) : SortKey → Planning Term
  | .mk selector direction => do
      let key ← Planning.nameOr selector.toFunc.memberName?
        (RowFunc.plan c selector)
      return .node direction.kind [key]
termination_by structural k => k

/-- The plan of sort keys, in order. -/
def planKeys (c : Converter) : List SortKey → Planning (List Term)
  | [] => return []
  | k :: ks => do
      let t ← SortKey.plan c k
      let ts ← planKeys c ks
      return t :: ts
termination_by structural ks => ks

/-- The plan of a chain. -/
def Query.plan (c : Converter) : Query → Planning Term
  | .root r => ofExcept (r.judge c)
  | .indexCreateWith t name key => do
      let key ← RowFunc.plan c key
      return .node .indexCreate [t.term, .text name, key]
  | .step source s => do
      let source ← Query.plan c source
      let literals ← ofExcept (c.judgeAll s.literals)
      return s.attach (.node s.kind (source :: literals))
  | .rowStep source s f => do
      let source ← Query.plan c source
      let f ← RowFunc.plan c f
      return s.attach (.node s.kind [source, f])
  | .orderBy source first others => do
      let source ← Query.plan c source
      let first ← SortKey.plan c first
      let others ← planKeys c others
      return .node .orderBy (source :: first :: others)
  | .union first second => do
      let first ← Query.plan c first
      let second ← Query.plan c second
      return .node .union [first, second]
  | .reduce source f base => do
      let source ← Query.plan c source
      let f ← PairFunc.plan c f
      let base ← ofExcept (c.judgeOptional base)
      return (Term.node .reduce [source, f]).withOptional "base" base
  | .groupBy source reduction key => do
      let source ← Query.plan c source
      let key ← RowFunc.plan c key
      let reduction ← ofExcept reduction.judge
      return .node .groupBy [source, key, reduction]
  | .groupedMapReduce source grouping mapping reduction base => do
      let source ← Query.plan c source
      let grouping ← RowFunc.plan c grouping
      let mapping ← RowFunc.plan c mapping
      let reduction ← PairFunc.plan c reduction
      let base ← ofExcept (c.judgeOptional base)
      return (Term.node .groupedMapReduce
        [source, grouping, mapping, reduction]).withOptional "base" base
  | .join kind left right predicate => do
      let left ← Query.plan c left
      let right ← Query.plan c right
      let predicate ← PairFunc.plan c predicate
      return .node kind.kind [left, right, predicate]
  | .eqJoin left member right index => do
      let left ← Query.plan c left
      let member ← ofExcept (member.judgeMember .eqJoin)
      let right ← Query.plan c right
      return (Term.node .eqJoin [left, member, right]).withText "index"
        index
termination_by structural q => q

end

/-- The plan of a job. -/
def Job.plan (c : Converter) : Job → Planning Term
  | .query q => q.plan c
  | .func f => function f.params (f.body.plan c)
  | .expr e => e.plan c
  | .literal v => ofExcept (c.judge v)

/-! ## Points and steps -/

/-- A function that is open: its parameters, those of them that have
    entered the scope, the number the first was given, and what is to be
    done with its term. -/
structure Opened where
  params : List Param
  entered : List Param
  first : Nat
  next : Term → Plan

/-- What is to be done next. -/
inductive Task where
  /-- Bring into scope what is left of the parameters of the innermost
      function, then go on with its body. -/
  | enter (left : List Param) (body : Plan)
  | carryOut (plan : Plan)

/-- How far a plan has been carried out: the next task, the context and the
    functions that are open, innermost first. -/
structure Point where
  task : Task
  context : Context
  opened : List Opened

namespace Point

/-- The next point, if the plan has not come to its end.  A function is
    left when its body has ended, with a term or with an error. -/
def step : Point → Option Point
  | ⟨.carryOut (.look p next), ctx, fs⟩ =>
      some ⟨.carryOut (next (ctx.resolve? p)), ctx, fs⟩
  | ⟨.carryOut (.function params body next), ctx, fs⟩ =>
      some ⟨.enter params body, ctx, ⟨params, [], ctx.next, next⟩ :: fs⟩
  | ⟨.enter (p :: left) body, ctx, f :: fs⟩ =>
      some ⟨.enter left body, ctx.bindParam p,
        { f with entered := f.entered ++ [p] } :: fs⟩
  | ⟨.enter [] body, ctx, fs⟩ => some ⟨.carryOut body, ctx, fs⟩
  | ⟨.carryOut (.finish (.ok t)), ctx, f :: fs⟩ =>
      let ids := List.range' f.first f.params.length
      some ⟨.carryOut (f.next (.function ids t)),
        ctx.leave f.params.length, fs⟩
  | ⟨.carryOut (.finish (.error e)), ctx, f :: fs⟩ =>
      some ⟨.carryOut (.finish (.error e)), ctx.leave f.params.length, fs⟩
  | ⟨.enter (_ :: _) _, _, []⟩ => none
  | ⟨.carryOut (.finish _), _, []⟩ => none

/-- From one point to another in any number of steps. -/
def Steps : Point → Point → Prop :=
  Relation.ReflTransGen fun x y => x.step = some y

theorem steps_cons {x y z : Point} (h : x.step = some y)
    (hrest : Steps y z) : Steps x z :=
  Relation.ReflTransGen.head h hrest

theorem steps_snoc {x y z : Point} (hfirst : Steps x y)
    (h : y.step = some z) : Steps x z :=
  Relation.ReflTransGen.tail hfirst h

/-- The point at which a job begins. -/
def start (c : Converter) (job : Job) (ctx : Context) : Point :=
  ⟨.carryOut (job.plan c).whole, ctx, []⟩

/-- The point at which a walk has ended. -/
def ending (o : Outcome Term) : Point :=
  ⟨.carryOut (.finish o.result), o.context, []⟩

end Point

open Point

/-! ## Playing -/

section Playing

variable {α β : Type}

/-- From every context, and inside whatever functions, carrying out `s`
    comes to the result of `x`, in the context that `x` leaves behind and
    with the same functions open. -/
def Walk.Plays (x : Walk α) (s : Planning α) : Prop :=
  ∀ next ctx fs, Steps ⟨.carryOut (s next), ctx, fs⟩
    ⟨.carryOut (Planning.ofExcept (x ctx).result next), (x ctx).context,
      fs⟩

/-- A walk that follows a mere result is a plan that ends at once. -/
theorem plays_result {x : Walk α} {r : Except TermError α}
    (h : ∀ scope, x.Follows scope (.ofExcept r)) :
    x.Plays (ofExcept r) := by
  intro next ctx fs
  obtain ⟨hresult, hcontext⟩ := h ctx.scope ctx.next
  replace hresult : (x ctx).result = r := hresult
  replace hcontext : (x ctx).context = ctx := hcontext
  rw [hresult, hcontext]
  exact .refl

theorem plays_done (a : α) : (pure a : Walk α).Plays (pure a) :=
  plays_result (r := .ok a) fun _ => follows_done a

theorem plays_node (kind : Term.Kind) (args : List Term) :
    (Walk.node kind args).Plays (pure (Term.node kind args)) :=
  plays_result (r := .ok (Term.node kind args)) fun _ =>
    follows_node kind args

/-- Sequences play sequences. -/
theorem plays_bind {x : Walk α} {f : α → Walk β} {s : Planning α}
    {t : α → Planning β} (hx : x.Plays s) (hf : ∀ a, (f a).Plays (t a)) :
    (x >>= f).Plays (s >>= t) := by
  intro next ctx fs
  have hfirst := hx (fun a => t a next) ctx fs
  show Steps ⟨.carryOut (s fun a => t a next), ctx, fs⟩
    ⟨.carryOut (ofExcept (x.andThen f ctx).result next),
      (x.andThen f ctx).context, fs⟩
  rw [Walk.andThen]
  rcases hx : x ctx with ⟨r, middle, notes⟩
  rw [hx] at hfirst
  cases r with
  | error e => exact hfirst
  | ok a => exact hfirst.trans (hf a next middle fs)

/-- A first part that only gives a result does not show. -/
theorem plays_bind_done {x : Walk α} {f : α → Walk β} {a : α}
    {t : Planning β} (hx : ∀ scope, x.Follows scope (pure a))
    (hf : (f a).Plays t) : (x >>= f).Plays t := by
  intro next ctx fs
  obtain ⟨hresult, hcontext⟩ := hx ctx.scope ctx.next
  replace hresult : (x ctx).result = .ok a := hresult
  replace hcontext : (x ctx).context = ctx := hcontext
  show Steps _ ⟨.carryOut (ofExcept (x.andThen f ctx).result next),
    (x.andThen f ctx).context, fs⟩
  rw [Walk.andThen]
  rcases hwalk : x ctx with ⟨r, middle, notes⟩
  rw [hwalk] at hresult hcontext
  subst hresult hcontext
  exact hf next middle fs

/-- Parameters enter the scope one step after another. -/
theorem steps_enter (params left : List Param) (body : Plan) (ctx : Context)
    (entered : List Param) (first : Nat) (next : Term → Plan)
    (fs : List Opened) :
    Steps ⟨.enter left body, ctx, ⟨params, entered, first, next⟩ :: fs⟩
      ⟨.carryOut body, ctx.enter left,
        ⟨params, entered ++ left, first, next⟩ :: fs⟩ := by
  induction left generalizing ctx entered with
  | nil =>
      rw [List.append_nil]
      exact steps_cons rfl .refl
  | cons p left ih =>
      have hrest := ih (ctx.bindParam p) (entered ++ [p])
      rw [List.append_assoc] at hrest
      exact steps_cons rfl hrest

/-- Functions play functions when their bodies do. -/
theorem plays_function {body : Walk Term} {s : Planning Term}
    (params : List Param) (h : body.Plays s) :
    (functionWalk params body).Plays (function params s) := by
  intro next ctx fs
  have henter := steps_enter params params s.whole ctx [] ctx.next next fs
  have hbody := h (fun t => .finish (.ok t)) (ctx.enter params)
    (⟨params, params, ctx.next, next⟩ :: fs)
  have hopen : Steps ⟨.carryOut (function params s next), ctx, fs⟩ _ :=
    steps_cons rfl (henter.trans hbody)
  show Steps _ ⟨.carryOut (ofExcept
    ((Walk.withParams params body).andThen _ ctx).result next),
    ((Walk.withParams params body).andThen _ ctx).context, fs⟩
  rw [Walk.andThen, Walk.withParams]
  rcases hwalk : body (ctx.enter params) with ⟨r, inner, notes⟩
  rw [hwalk] at hopen
  -- The function is left whether its body has a term or not.
  cases r with
  | error e => exact steps_snoc hopen rfl
  | ok t => exact steps_snoc hopen rfl

/-- Looking a parameter up plays its reference. -/
theorem plays_reference (c : Converter) (p : Param) :
    (Expr.walk c (.param p)).Plays (reference p) := by
  intro next ctx fs
  refine steps_cons rfl ?_
  show Steps _ ⟨.carryOut (ofExcept
    ((Walk.variableOf p).andThen _ ctx).result next),
    ((Walk.variableOf p).andThen _ ctx).context, fs⟩
  rw [Walk.andThen, Walk.variableOf]
  cases ctx.resolve? p with
  | some id => exact .refl
  | none => exact .refl

end Playing

/-! ## Expressions and chains -/

/-- Carrying out the plan of an expression is walking it. -/
def Expr.Played (c : Converter) (e : Expr) : Prop :=
  (e.walk c).Plays (e.plan c)

/-- Carrying out the plan of a chain is walking it. -/
def Query.Played (c : Converter) (q : Query) : Prop :=
  (q.walk c).Plays (q.plan c)

variable {c : Converter}

theorem plays_literal (v : Value) :
    (c.literal v).Plays (ofExcept (c.judge v)) :=
  plays_result fun _ => follows_literal c v

theorem plays_rowFunc {f : RowFunc} (h : f.toFunc.body.Played c) :
    (f.walk c).Plays (f.plan c) := by
  cases f with
  | mk row body => exact plays_function [row] h

theorem plays_pairFunc {f : PairFunc} (h : f.toFunc.body.Played c) :
    (f.walk c).Plays (f.plan c) := by
  cases f with
  | mk left right body => exact plays_function [left, right] h

theorem plays_items {es : List Expr} (h : ∀ e ∈ es, e.Played c) :
    (walkItems c es).Plays (planItems c es) := by
  induction es with
  | nil => exact plays_done []
  | cons e es ih =>
      obtain ⟨he, hes⟩ := List.forall_mem_cons.mp h
      rw [walkItems, planItems]
      exact plays_bind he fun t =>
        plays_bind (ih hes) fun ts => plays_done (t :: ts)

theorem plays_members {ms : List (String × Expr)}
    (h : ∀ m ∈ ms, m.2.Played c) (done : List (String × Term)) :
    (walkMembers c ms done).Plays (planMembers c ms done) := by
  induction ms generalizing done with
  | nil => exact plays_done done
  | cons m ms ih =>
      obtain ⟨name, e⟩ := m
      obtain ⟨he, hms⟩ := List.forall_mem_cons.mp h
      rw [walkMembers, planMembers]
      refine plays_bind he fun t => ?_
      by_cases hd : Entries.has name done = true
      · rw [if_pos hd, if_pos hd]
        exact plays_result fun _ =>
          follows_unsupported (.duplicateMember name)
      · rw [if_neg hd, if_neg hd]
        exact ih hms (Entries.put name t done)

theorem plays_key {k : SortKey} (h : k.body.Played c) :
    (k.walk c).Plays (k.plan c) := by
  obtain ⟨selector, direction⟩ := k
  rw [SortKey.walk, SortKey.plan]
  refine plays_bind ?_ fun key => plays_done _
  cases selector.toFunc.memberName? with
  | some name => exact plays_done (Term.text name)
  | none => exact plays_rowFunc h

theorem plays_keys {ks : List SortKey} (h : ∀ k ∈ ks, k.body.Played c) :
    (walkKeys c ks).Plays (planKeys c ks) := by
  induction ks with
  | nil => exact plays_done []
  | cons k ks ih =>
      obtain ⟨hk, hks⟩ := List.forall_mem_cons.mp h
      rw [walkKeys, planKeys]
      exact plays_bind (plays_key hk) fun t =>
        plays_bind (ih hks) fun ts => plays_done (t :: ts)

/-- Plans are carried out as walks go, form by form. -/
theorem played_hereditary (c : Converter) :
    Hereditary (Expr.Played c) (Query.Played c) where
  param p := plays_reference c p
  literal v := plays_literal v
  field _ _ he := plays_bind he fun _ => plays_done _
  compare _ _ _ ha hb :=
    plays_bind ha fun _ => plays_bind hb fun _ => plays_done _
  arith _ _ _ ha hb :=
    plays_bind ha fun _ => plays_bind hb fun _ => plays_done _
  all _ hes := plays_bind (plays_items hes) fun _ => plays_done _
  any _ hes := plays_bind (plays_items hes) fun _ => plays_done _
  not _ he := plays_bind he fun _ => plays_done _
  array _ hes := plays_bind (plays_items hes) fun _ => plays_done _
  object _ hms := plays_bind (plays_members hms []) fun _ => plays_done _
  call name es hes :=
    plays_bind (plays_result fun _ => follows_check name es.length)
      fun _ => plays_bind (plays_items hes) fun _ => plays_done _
  subquery _ _ hq := hq
  root r := plays_result fun _ => follows_root c r
  indexCreateWith t _ _ hkey :=
    plays_bind_done (fun _ => follows_table t) <|
      plays_bind (plays_rowFunc hkey) fun _ => plays_node _ _
  step _ s hq :=
    plays_bind hq fun _ =>
      plays_bind (plays_result fun _ => follows_literals c s.literals)
        fun _ => plays_bind_done (fun _ => follows_node _ _) (plays_done _)
  rowStep _ _ _ hq hf :=
    plays_bind hq fun _ =>
      plays_bind (plays_rowFunc hf) fun _ =>
        plays_bind_done (fun _ => follows_node _ _) (plays_done _)
  orderBy _ _ _ hq hfirst hothers :=
    plays_bind hq fun _ =>
      plays_bind (plays_key hfirst) fun _ =>
        plays_bind (plays_keys hothers) fun _ => plays_node _ _
  union _ _ ha hb :=
    plays_bind ha fun _ => plays_bind hb fun _ => plays_node _ _
  reduce _ _ base hq hf :=
    plays_bind hq fun _ =>
      plays_bind (plays_pairFunc hf) fun _ =>
        plays_bind (plays_result fun _ => follows_optionalLiteral c base)
          fun _ =>
            plays_bind_done (fun _ => follows_node _ _) (plays_done _)
  groupBy _ reduction _ hq hkey :=
    plays_bind hq fun _ =>
      plays_bind (plays_rowFunc hkey) fun _ =>
        plays_bind (plays_result fun _ => follows_reduction reduction)
          fun _ => plays_node _ _
  groupedMapReduce _ _ _ _ base hq hg hm hr :=
    plays_bind hq fun _ =>
      plays_bind (plays_rowFunc hg) fun _ =>
        plays_bind (plays_rowFunc hm) fun _ =>
          plays_bind (plays_pairFunc hr) fun _ =>
            plays_bind
              (plays_result fun _ => follows_optionalLiteral c base)
              fun _ =>
                plays_bind_done (fun _ => follows_node _ _) (plays_done _)
  join _ _ _ _ ha hb hf :=
    plays_bind ha fun _ =>
      plays_bind hb fun _ =>
        plays_bind (plays_pairFunc hf) fun _ => plays_node _ _
  eqJoin _ member _ _ ha hb :=
    plays_bind ha fun _ =>
      plays_bind (plays_result fun _ => follows_member .eqJoin member)
        fun _ =>
          plays_bind hb fun _ =>
            plays_bind_done (fun _ => follows_node _ _) (plays_done _)

/-- A job goes by steps from where it begins to where its walk ends. -/
theorem steps_job (c : Converter) (job : Job) (ctx : Context) :
    Steps (start c job ctx) (ending (job.walk c ctx)) := by
  have hplays : (job.walk c).Plays (job.plan c) := by
    cases job with
    | query q => exact (played_hereditary c).query q
    | func f =>
        exact plays_function f.params ((played_hereditary c).expr f.body)
    | expr e => exact (played_hereditary c).expr e
    | literal v => exact plays_literal v
  have hsteps := hplays (fun t => .finish (.ok t)) ctx []
  -- What is left to do is to end with the result, whatever it is.
  have hend : ofExcept (job.walk c ctx).result
      (fun t => .finish (.ok t)) = .finish (job.walk c ctx).result := by
    cases (job.walk c ctx).result <;> rfl
  rw [hend] at hsteps
  exact hsteps

/-- Wherever the steps of a job lead, from there they lead to its end. -/
theorem steps_ending {job : Job} {ctx : Context} {x : Point}
    (h : Steps (start c job ctx) x) : Steps x (ending (job.walk c ctx)) := by
  have hunique : Relator.RightUnique
      fun x y : Point => x.step = some y := by
    intro x y z hy hz
    exact Option.some.inj (hy.symm.trans hz)
  rcases h.total_of_right_unique hunique (steps_job c job ctx)
    with hend | hbeyond
  · exact hend
  · -- No step leads on from an end.
    rcases hbeyond.cases_head with heq | ⟨y, hstep, -⟩
    · rw [heq]
      exact .refl
    · cases hresult : (job.walk c ctx).result <;>
        simp [ending, step, hresult] at hstep

end ChainQuery
