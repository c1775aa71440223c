import ChainQuery.Proofs.Acceptance

/-! # Courses — the functions a walk enters

    Building a term meets functions and, if something is wrong with the
    chain, violations.  The course of a chain lists both in build order,
    whether or not they are reached: it is read off the chain alone, with
    no variable numbers in it.  A walk follows its course up to the first
    violation.  The route:

    * `Stage.entered` are the parameters of the functions in front of the
      first violation;
    * `Translation.Runs` says of one translation that it fails with the
      first violation of a course and uses up one number for each
      parameter of the functions entered; it passes through sequences
      (`runs_bind`) and functions (`runs_function`);
    * every form of node is a sequence (`runs_hereditary`). -/

namespace ChainQuery

open Translation

/-! ## Stages -/

/-- What building a term meets: a function, known by its parameters, or a
    violation. -/
inductive Stage where
  | entry (params : List Param)
  | stop (e : TermError)

namespace Stage

/-- The violations among stages. -/
def stops : List Stage → List TermError
  | [] => []
  | .entry _ :: rest => stops rest
  | .stop e :: rest => e :: stops rest

/-- The parameters of the functions in front of the first violation. -/
def entered : List Stage → List Param
  | [] => []
  | .entry params :: rest => params ++ entered rest
  | .stop _ :: _ => []

/-- Violations as stages. -/
def ofStops (es : List TermError) : List Stage :=
  es.map .stop

variable {xs ys : List Stage} {es : List TermError}

theorem stops_ofStops : stops (ofStops es) = es := by
  induction es with
  | nil => rfl
  | cons e es ih => exact congrArg (e :: ·) ih

theorem entered_ofStops : entered (ofStops es) = [] := by
  cases es <;> rfl

theorem stops_append : stops (xs ++ ys) = stops xs ++ stops ys := by
  induction xs with
  | nil => rfl
  | cons x xs ih =>
      cases x with
      | entry params => exact ih
      | stop e => exact congrArg (e :: ·) ih

theorem entered_append_of_none (h : stops xs = []) :
    entered (xs ++ ys) = entered xs ++ entered ys := by
  induction xs with
  | nil => rfl
  | cons x xs ih =>
      cases x with
      | entry params =>
          rw [List.cons_append, entered, ih h, entered, List.append_assoc]
      | stop e => cases h

/-- What follows a violation is not entered. -/
theorem entered_append_of_some (h : stops xs ≠ []) :
    entered (xs ++ ys) = entered xs := by
  induction xs with
  | nil => exact absurd rfl h
  | cons x xs ih =>
      cases x with
      | entry params => rw [List.cons_append, entered, ih h, entered]
      | stop e => rfl

end Stage

open Stage

/-! ## The course of a chain -/

mutual

/-- The course of an expression below functions that declare the given
    parameters. -/
def Expr.course (c : Converter) (declared : List Param) :
    Expr → List Stage
  | .param p =>
      if p ∈ declared then [] else [.stop (.unsupported (.freeParam p))]
  | .literal v => ofStops (c.violations v)
  | .field target _ => Expr.course c declared target
  | .compare _ left right =>
      Expr.course c declared left ++ Expr.course c declared right
  | .arith _ left right =>
      Expr.course c declared left ++ Expr.course c declared right
  | .all items => itemCourse c declared items
  | .any items => itemCourse c declared items
  | .not e => Expr.course c declared e
  | .array items => itemCourse c declared items
  | .object members => memberCourse c declared [] members
  | .call name args =>
      ofStops (RemoteCall.violations name args.length) ++
        itemCourse c declared args
  | .subquery _ q => Query.course c declared q
termination_by structural e => e

/-- The course of expressions, in order. -/
def itemCourse (c : Converter) (declared : List Param) :
    List Expr → List Stage
  | [] => []
  | e :: es => Expr.course c declared e ++ itemCourse c declared es
termination_by structural es => es

/-- The course of object members.  That a name occurred `earlier` comes
    after the course of the member itself. -/
def memberCourse (c : Converter) (declared : List Param)
    (earlier : List String) : List (String × Expr) → List Stage
  | [] => []
  | (name, e) :: rest =>
      Expr.course c declared e ++
        ((if name ∈ earlier then [.stop (.unsupported (.duplicateMember name))]
          else []) ++
        memberCourse c declared (name :: earlier) rest)
termination_by structural members => members

/-- The course of a function of one row. -/
def RowFunc.course (c : Converter) (declared : List Param) :
    RowFunc → List Stage
  | .mk row body => .entry [row] :: Expr.course c (row :: declared) body
termination_by structural f => f

/-- The course of a function of two rows. -/
def PairFunc.course (c : Converter) (declared : List Param) :
    PairFunc → List Stage
  | .mk left right body =>
      .entry [left, right] ::
        Expr.course c (left :: right :: declared) body
termination_by structural f => f

/-- The course of a sort key: a function that goes by a name is not
    entered. -/
def SortKey.course (c : Converter) (declared : List Param) :
    SortKey → List Stage
  | .mk selector _ =>
      match selector.toFunc.memberName? with
      | some _ => []
      | none => RowFunc.course c declared selector
termination_by structural k => k

/-- The course of sort keys, in order. -/
def keyCourse (c : Converter) (declared : List Param) :
    List SortKey → List Stage
  | [] => []
  | k :: ks => SortKey.course c declared k ++ keyCourse c declared ks
termination_by structural ks => ks

/-- The course of a chain: sources before operands, operands from left to
    right.  Selectors that have to be members are read and not
    entered. -/
def Query.course (c : Converter) (declared : List Param) :
    Query → List Stage
  | .root r => ofStops (r.literals.flatMap c.violations)
  | .indexCreateWith _ _ key => RowFunc.course c declared key
  | .step source s =>
      Query.course c declared source ++
        ofStops (s.carried.flatMap c.violations)
  | .rowStep source _ f =>
      Query.course c declared source ++ RowFunc.course c declared f
  | .orderBy source first others =>
      Query.course c declared source ++
        (SortKey.course c declared first ++ keyCourse c declared others)
  | .union first second =>
      Query.course c declared first ++ Query.course c declared second
  | .reduce source f base =>
      Query.course c declared source ++
        (PairFunc.course c declared f ++
          ofStops (base.toList.flatMap c.violations))
  | .groupBy source reduction key =>
      Query.course c declared source ++
        (RowFunc.course c declared key ++ ofStops reduction.violations)
  | .groupedMapReduce source grouping mapping reduction base =>
      Query.course c declared source ++
        (RowFunc.course c declared grouping ++
          (RowFunc.course c declared mapping ++
            (PairFunc.course c declared reduction ++
              ofStops (base.toList.flatMap c.violations))))
  | .join _ left right predicate =>
      Query.course c declared left ++
        (Query.course c declared right ++
          PairFunc.course c declared predicate)
  | .eqJoin left member right _ =>
      Query.course c declared left ++
        (ofStops (member.memberViolations .eqJoin) ++
          Query.course c declared right)
termination_by structural q => q

end

/-- The course of a function of any number of parameters. -/
def Func.course (c : Converter) (declared : List Param) (f : Func) :
    List Stage :=
  .entry f.params :: f.body.course c (f.params ++ declared)

/-- The course of a job. -/
def Job.course (c : Converter) (declared : List Param) :
    Job → List Stage
  | .query q => q.course c declared
  | .func f => f.course c declared
  | .expr e => e.course c declared
  | .literal v => ofStops (c.violations v)

/-! ## Translations that run a course -/

variable {α β : Type} {c : Converter} {env : Environment}
  {declared : List Param} {xs ys : List Stage}

/-- Wherever its numbers start, a translation fails with the first
    violation of the course, or gives a result when there is none; and it
    uses up a number for each parameter of the functions entered. -/
def Translation.Runs (stages : List Stage) (y : Translation α) : Prop :=
  ∀ n, Verdict (stops stages) (y n).1 ∧
    (y n).2 = n + (entered stages).length

/-- A verdict is an error exactly when it is the first violation. -/
theorem verdict_error {vs : List TermError} {r : Except TermError α}
    {e : TermError} (h : Verdict vs r) :
    r = .error e ↔ vs.head? = some e := by
  cases vs with
  | nil =>
      obtain ⟨a, rfl⟩ := h
      constructor
      · intro herror
        cases herror
      · intro hhead
        cases hhead
  | cons f fs =>
      replace h : r = .error f := h
      rw [h, List.head?_cons, Except.error.injEq, Option.some.injEq]

theorem runs_pure (a : α) : Runs [] (pure a : Translation α) :=
  fun _ => ⟨⟨a, rfl⟩, rfl⟩

/-- What follows a violation is not met. -/
theorem runs_fail (e : TermError) (rest : List Stage) :
    Runs (.stop e :: rest) (fail e : Translation α) :=
  fun _ => ⟨rfl, rfl⟩

theorem runs_ofExcept {vs : List TermError} {r : Except TermError α}
    (h : Verdict vs r) : Runs (ofStops vs) (ofExcept r) := by
  intro n
  rw [stops_ofStops, entered_ofStops]
  exact ⟨h, rfl⟩

/-- The second part is run where the first has no violation. -/
theorem runs_bind {x : Translation α} {f : α → Translation β}
    (hx : Runs xs x) (hf : ∀ a, Runs ys (f a)) :
    Runs (xs ++ ys) (x >>= f) := by
  intro n
  show Verdict (stops (xs ++ ys)) (andThen x f n).1 ∧
    (andThen x f n).2 = n + (entered (xs ++ ys)).length
  obtain ⟨hverdict, hnext⟩ := hx n
  rw [andThen, stops_append]
  rcases hresult : x n with ⟨r, m⟩
  rw [hresult] at hverdict hnext
  replace hnext : m = n + (entered xs).length := hnext
  cases hstops : stops xs with
  | nil =>
      rw [hstops] at hverdict
      obtain ⟨a, ha⟩ := hverdict
      replace ha : r = .ok a := ha
      subst ha
      obtain ⟨hverdict', hnext'⟩ := hf a m
      refine ⟨hverdict', ?_⟩
      rw [entered_append_of_none hstops, List.length_append,
        ← Nat.add_assoc, ← hnext]
      exact hnext'
  | cons e es =>
      rw [hstops] at hverdict
      replace hverdict : r = .error e := hverdict
      subst hverdict
      refine ⟨rfl, ?_⟩
      have hsome : stops xs ≠ [] := by
        rw [hstops]
        exact List.cons_ne_nil e es
      rw [entered_append_of_some hsome]
      exact hnext

/-- A last part that always gives a result adds no stage. -/
theorem runs_map {x : Translation α} {f : α → Translation β}
    (hx : Runs xs x) (hf : ∀ a, Runs [] (f a)) : Runs xs (x >>= f) := by
  have h := runs_bind hx hf
  rwa [List.append_nil] at h

/-- A function is entered before its body. -/
theorem runs_function {params : List Param}
    {body : Environment → Translation Term} (henv : env.Knows declared)
    (h : ∀ inner, inner.Knows (params ++ declared) → Runs xs (body inner)) :
    Runs (.entry params :: xs) (functionTranslate params env body) := by
  have htake : Runs [.entry params] (take params.length) := by
    intro n
    rw [entered, entered, List.append_nil]
    exact ⟨⟨n, rfl⟩, rfl⟩
  refine runs_bind htake fun first => ?_
  exact runs_map (h _ (knows_declare henv params first)) fun _ =>
    runs_pure _

/-! ## Expressions and chains -/

/-- Where the parameters declared around are known, an expression runs its
    course. -/
def Expr.RunsCourse (c : Converter) (e : Expr) : Prop :=
  ∀ env declared, Environment.Knows env declared →
    Runs (e.course c declared) (e.translate c env)

/-- Where the parameters declared around are known, a chain runs its
    course. -/
def Query.RunsCourse (c : Converter) (q : Query) : Prop :=
  ∀ env declared, Environment.Knows env declared →
    Runs (q.course c declared) (q.translate c env)

theorem runs_reference (henv : env.Knows declared) (p : Param) :
    Runs (Expr.course c declared (.param p)) (env.reference p) := by
  rw [Environment.reference, Expr.course]
  cases hp : env p with
  | some id =>
      rw [if_pos ((henv p).mp (by rw [hp]; rfl))]
      exact runs_pure _
  | none =>
      have hfree : p ∉ declared := by
        intro hmem
        have hsome := (henv p).mpr hmem
        rw [hp] at hsome
        cases hsome
      rw [if_neg hfree]
      exact runs_fail _ []

theorem runs_func {f : Func} (h : f.body.RunsCourse c)
    (henv : env.Knows declared) :
    Runs (f.course c declared) (f.translate c env) :=
  runs_function henv fun inner hin => h inner _ hin

theorem runs_rowFunc {f : RowFunc} (h : f.toFunc.body.RunsCourse c)
    (henv : env.Knows declared) :
    Runs (f.course c declared) (f.translate c env) := by
  obtain ⟨row, body⟩ := f
  exact runs_func h henv

theorem runs_pairFunc {f : PairFunc} (h : f.toFunc.body.RunsCourse c)
    (henv : env.Knows declared) :
    Runs (f.course c declared) (f.translate c env) := by
  obtain ⟨left, right, body⟩ := f
  exact runs_func h henv

theorem runs_items {es : List Expr} (h : ∀ e ∈ es, e.RunsCourse c)
    (henv : env.Knows declared) :
    Runs (itemCourse c declared es) (translateItems c env es) := by
  induction es with
  | nil => exact runs_pure []
  | cons e es ih =>
      obtain ⟨he, hes⟩ := List.forall_mem_cons.mp h
      rw [itemCourse, translateItems]
      exact runs_bind (he env declared henv) fun t =>
        runs_map (ih hes) fun ts => runs_pure (t :: ts)

/-- A member is checked against those put before it. -/
theorem runs_members {ms : List (String × Expr)}
    (h : ∀ m ∈ ms, m.2.RunsCourse c) (henv : env.Knows declared)
    {earlier : List String} {done : List (String × Term)}
    (hdone : ∀ name, name ∈ done.map Prod.fst ↔ name ∈ earlier) :
    Runs (memberCourse c declared earlier ms)
      (translateMembers c env ms done) := by
  induction ms generalizing earlier done with
  | nil => exact runs_pure done
  | cons m ms ih =>
      obtain ⟨name, e⟩ := m
      obtain ⟨he, hms⟩ := List.forall_mem_cons.mp h
      rw [memberCourse, translateMembers]
      refine runs_bind (he env declared henv) fun t => ?_
      by_cases hname : name ∈ earlier
      · rw [if_pos hname,
          if_pos (Entries.has_iff.mpr ((hdone name).mpr hname))]
        exact runs_fail _ _
      · have hnew : name ∉ done.map Prod.fst := mt (hdone name).mp hname
        rw [if_neg hname, if_neg (mt Entries.has_iff.mp hnew)]
        refine ih hms fun other => ?_
        have hput := (Entries.put_perm t hnew).map Prod.fst
        rw [hput.mem_iff, List.map_cons, List.mem_cons, List.mem_cons,
          hdone other]

theorem runs_key {k : SortKey} (h : k.body.RunsCourse c)
    (henv : env.Knows declared) :
    Runs (k.course c declared) (k.translate c env) := by
  obtain ⟨selector, direction⟩ := k
  rw [translate_key, SortKey.course]
  refine runs_map ?_ fun _ => runs_pure _
  cases selector.toFunc.memberName? with
  | some name => exact runs_pure _
  | none => exact runs_rowFunc h henv

theorem runs_keys {ks : List SortKey} (h : ∀ k ∈ ks, k.body.RunsCourse c)
    (henv : env.Knows declared) :
    Runs (keyCourse c declared ks) (translateKeys c env ks) := by
  induction ks with
  | nil => exact runs_pure []
  | cons k ks ih =>
      obtain ⟨hk, hks⟩ := List.forall_mem_cons.mp h
      rw [keyCourse, translateKeys]
      exact runs_bind (runs_key hk henv) fun t =>
        runs_map (ih hks) fun ts => runs_pure (t :: ts)

/-- Every form of node runs its course. -/
theorem runs_hereditary (c : Converter) :
    Hereditary (Expr.RunsCourse c) (Query.RunsCourse c) where
  param p _ _ henv := runs_reference henv p
  literal v _ _ _ := runs_ofExcept (verdict_judge c v)
  field _ _ he env declared henv :=
    runs_map (he env declared henv) fun _ => runs_pure _
  compare _ _ _ ha hb env declared henv :=
    runs_bind (ha env declared henv) fun _ =>
      runs_map (hb env declared henv) fun _ => runs_pure _
  arith _ _ _ ha hb env declared henv :=
    runs_bind (ha env declared henv) fun _ =>
      runs_map (hb env declared henv) fun _ => runs_pure _
  all _ hes _ _ henv := runs_map (runs_items hes henv) fun _ => runs_pure _
  any _ hes _ _ henv := runs_map (runs_items hes henv) fun _ => runs_pure _
  not _ he env declared henv :=
    runs_map (he env declared henv) fun _ => runs_pure _
  array _ hes _ _ henv :=
    runs_map (runs_items hes henv) fun _ => runs_pure _
  object _ hms _ _ henv :=
    runs_map (runs_members hms henv fun _ => Iff.rfl) fun _ => runs_pure _
  call name es hes _ _ henv :=
    runs_bind (runs_ofExcept (verdict_call name es.length)) fun _ =>
      runs_map (runs_items hes henv) fun _ => runs_pure _
  subquery _ _ hq := hq
  root r _ _ _ := runs_ofExcept (verdict_root c r)
  indexCreateWith _ _ _ hkey _ _ henv :=
    runs_map (runs_rowFunc hkey henv) fun _ => runs_pure _
  step _ s hq env declared henv :=
    runs_bind (hq env declared henv) fun _ =>
      runs_map (runs_ofExcept (verdict_step c s)) fun _ => runs_pure _
  rowStep _ _ _ hq hf env declared henv :=
    runs_bind (hq env declared henv) fun _ =>
      runs_map (runs_rowFunc hf henv) fun _ => runs_pure _
  orderBy _ _ _ hq hfirst hothers env declared henv :=
    runs_bind (hq env declared henv) fun _ =>
      runs_bind (runs_key hfirst henv) fun _ =>
        runs_map (runs_keys hothers henv) fun _ => runs_pure _
  union _ _ ha hb env declared henv :=
    runs_bind (ha env declared henv) fun _ =>
      runs_map (hb env declared henv) fun _ => runs_pure _
  reduce _ _ base hq hf env declared henv :=
    runs_bind (hq env declared henv) fun _ =>
      runs_bind (runs_pairFunc hf henv) fun _ =>
        runs_map (runs_ofExcept (verdict_judgeOptional c base)) fun _ =>
          runs_pure _
  groupBy _ reduction _ hq hkey env declared henv :=
    runs_bind (hq env declared henv) fun _ =>
      runs_bind (runs_rowFunc hkey henv) fun _ =>
        runs_map (runs_ofExcept (verdict_reduction reduction)) fun _ =>
          runs_pure _
  groupedMapReduce _ _ _ _ base hq hg hm hr env declared henv :=
    runs_bind (hq env declared henv) fun _ =>
      runs_bind (runs_rowFunc hg henv) fun _ =>
        runs_bind (runs_rowFunc hm henv) fun _ =>
          runs_bind (runs_pairFunc hr henv) fun _ =>
            runs_map (runs_ofExcept (verdict_judgeOptional c base))
              fun _ => runs_pure _
  join _ _ _ _ ha hb hf env declared henv :=
    runs_bind (ha env declared henv) fun _ =>
      runs_bind (hb env declared henv) fun _ =>
        runs_map (runs_pairFunc hf henv) fun _ => runs_pure _
  eqJoin _ member _ _ ha hb env declared henv :=
    runs_bind (ha env declared henv) fun _ =>
      runs_bind (runs_ofExcept (verdict_member .eqJoin member)) fun _ =>
        runs_map (hb env declared henv) fun _ => runs_pure _

/-! ## Jobs -/

/-- A scope knows the parameters it binds. -/
theorem knows_scope (scope : List (Param × Nat)) :
    Environment.Knows (.ofScope scope) (scope.map Prod.fst) := by
  intro p
  rw [Environment.ofScope, List.lookup_isSome_iff, List.mem_map]
  constructor
  · rintro ⟨binding, hmem, hp⟩
    exact ⟨binding, hmem, (beq_iff_eq.mp hp).symm⟩
  · rintro ⟨binding, hmem, rfl⟩
    exact ⟨binding, hmem, beq_self_eq_true _⟩

/-- A job runs its course in every scope. -/
theorem runs_job (c : Converter) (job : Job) (scope : List (Param × Nat)) :
    Runs (job.course c (scope.map Prod.fst))
      (job.translate c (.ofScope scope)) := by
  have h := runs_hereditary c
  have henv := knows_scope scope
  cases job with
  | query q => exact h.query q _ _ henv
  | func f => exact runs_func (h.expr f.body) henv
  | expr e => exact h.expr e _ _ henv
  | literal v => exact runs_ofExcept (verdict_judge c v)

/-- The parameters of the functions a job enters in a scope. -/
def Job.entered (c : Converter) (scope : List (Param × Nat)) (job : Job) :
    List Param :=
  Stage.entered (job.course c (scope.map Prod.fst))

/-- Whatever a walk starts from and however it ends, the scope is what it
    was, and one number is used up for each parameter of the functions
    entered. -/
theorem context_job (c : Converter) (job : Job) (ctx : Context) :
    (job.walk c ctx).context
      = ⟨ctx.next + (job.entered c ctx.scope).length, ctx.scope⟩ := by
  obtain ⟨-, hcontext⟩ := follows_job c job ctx.scope ctx.next
  obtain ⟨-, hnext⟩ := runs_job c job ctx.scope ctx.next
  rw [Job.entered, ← hnext]
  exact hcontext

/-- A walk fails with the first violation of its course. -/
theorem error_job (c : Converter) (job : Job) (ctx : Context)
    (e : TermError) :
    (job.walk c ctx).result = .error e ↔
      (stops (job.course c (ctx.scope.map Prod.fst))).head? = some e := by
  obtain ⟨hresult, -⟩ := follows_job c job ctx.scope ctx.next
  obtain ⟨hverdict, -⟩ := runs_job c job ctx.scope ctx.next
  rw [← hresult] at hverdict
  exact verdict_error hverdict

/-- A run leaves the scope as it was, and every job in it uses up what its
    course says, whatever came before. -/
theorem contextAfter_eq (c : Converter) (ctx : Context)
    (jobs : List Job) :
    contextAfter c ctx jobs
      = ⟨ctx.next + (jobs.flatMap (Job.entered c ctx.scope)).length,
         ctx.scope⟩ := by
  induction jobs generalizing ctx with
  | nil => rfl
  | cons job jobs ih =>
      rw [contextAfter, context_job, ih, List.flatMap_cons,
        List.length_append, ← Nat.add_assoc]

end ChainQuery
