import ChainQuery.Proofs.Runs
import ChainQuery.Proofs.WellFormed

/-! # Acceptance — generation succeeds exactly on well-formed chains

    A translation ends with the first thing that is wrong, in build order,
    and with a term when nothing is.  The route:

    * `Translation.Judged` says that of one translation; sequences append
      what is wrong with their parts (`judged_bind`);
    * a parameter resolves where it is declared, because an environment
      knows exactly the parameters declared around
      (`Environment.Knows`);
    * every form of node is a sequence (`judged_hereditary`). -/

namespace ChainQuery

open Translation

variable {α β : Type} {c : Converter} {env : Environment}
  {declared : List Param} {vs ws : List TermError}

/-! ## The first violation -/

/-- A result where there are no violations, and else the first of them. -/
def Verdict (vs : List TermError) (r : Except TermError α) : Prop :=
  match vs with
  | [] => ∃ a, r = .ok a
  | e :: _ => r = .error e

/-- Wherever its numbers start, a translation ends with the first of the
    violations, or with a result when there are none. -/
def Translation.Judged (vs : List TermError) (y : Translation α) : Prop :=
  ∀ n, Verdict vs (y n).1

theorem judged_pure (a : α) : Judged [] (pure a : Translation α) :=
  fun _ => ⟨a, rfl⟩

theorem judged_fail (e : TermError) (vs : List TermError) :
    Judged (e :: vs) (fail e : Translation α) :=
  fun _ => rfl

theorem judged_ofExcept {r : Except TermError α} (h : Verdict vs r) :
    Judged vs (ofExcept r) :=
  fun _ => h

/-- What is wrong with the first part comes before what is wrong with the
    second. -/
theorem judged_bind {x : Translation α} {f : α → Translation β}
    (hx : Judged vs x) (hf : ∀ a, Judged ws (f a)) :
    Judged (vs ++ ws) (x >>= f) := by
  intro n
  show Verdict (vs ++ ws) (andThen x f n).1
  have hxn := hx n
  rw [andThen]
  rcases hresult : x n with ⟨r, m⟩
  rw [hresult] at hxn
  cases vs with
  | nil =>
      obtain ⟨a, rfl⟩ := hxn
      exact hf a m
  | cons e vs =>
      replace hxn : r = .error e := hxn
      subst hxn
      exact rfl

/-- A last part that always gives a result adds no violation. -/
theorem judged_map {x : Translation α} {f : α → Translation β}
    (hx : Judged vs x) (hf : ∀ a, Judged [] (f a)) :
    Judged vs (x >>= f) := by
  have h := judged_bind hx hf
  rwa [List.append_nil] at h

/-! ## Literals, calls and selectors -/

theorem verdict_bind {r : Except TermError α}
    {f : α → Except TermError β} (hr : Verdict vs r)
    (hf : ∀ a, Verdict ws (f a)) : Verdict (vs ++ ws) (r >>= f) := by
  cases vs with
  | nil =>
      obtain ⟨a, rfl⟩ := hr
      exact hf a
  | cons e vs =>
      replace hr : r = .error e := hr
      subst hr
      exact rfl

theorem verdict_map {r : Except TermError α} {f : α → Except TermError β}
    (hr : Verdict vs r) (hf : ∀ a, ∃ b, f a = .ok b) :
    Verdict vs (r >>= f) := by
  have h : Verdict (vs ++ []) (r >>= f) := verdict_bind hr hf
  rwa [List.append_nil] at h

/-- The first kind that is not supported decides. -/
theorem verdict_allow (c : Converter) (ks : List Value.Kind) :
    Verdict ((ks.filter fun kind => !c.supports kind).map fun kind =>
      .convert (.unsupported kind)) (c.allow ks) := by
  induction ks with
  | nil => exact ⟨(), rfl⟩
  | cons k ks ih =>
      rw [Converter.allow]
      by_cases hk : c.supports k = true
      · rw [if_pos hk, List.filter_cons_of_neg (by simp [hk])]
        exact ih
      · rw [if_neg hk, List.filter_cons_of_pos (by simp [hk])]
        exact rfl

/-- A literal fails with the first thing the converter has against it. -/
theorem verdict_judge (c : Converter) (v : Value) :
    Verdict (c.violations v) (c.judge v) := by
  refine verdict_bind (verdict_allow c v.kinds) fun _ => ?_
  cases c.convert v with
  | ok d => exact ⟨.datum d, rfl⟩
  | error e => exact rfl

theorem verdict_judgeAll (c : Converter) (vs : List Value) :
    Verdict (vs.flatMap c.violations) (c.judgeAll vs) := by
  induction vs with
  | nil => exact ⟨[], rfl⟩
  | cons v vs ih =>
      rw [List.flatMap_cons]
      exact verdict_bind (verdict_judge c v) fun t =>
        verdict_map ih fun ts => ⟨t :: ts, rfl⟩

theorem verdict_judgeOptional (c : Converter) (base : Option Value) :
    Verdict (base.toList.flatMap c.violations) (c.judgeOptional base) := by
  cases base with
  | none => exact ⟨none, rfl⟩
  | some v =>
      rw [Option.toList_some, List.flatMap_cons, List.flatMap_nil]
      exact verdict_bind (verdict_judge c v) fun t => ⟨some t, rfl⟩

theorem verdict_call (name : String) (given : Nat) :
    Verdict (RemoteCall.violations name given)
      (RemoteCall.judge name given) := by
  rw [RemoteCall.violations, RemoteCall.judge]
  cases RemoteCall.find? name with
  | none => exact rfl
  | some call =>
      by_cases ha : call.arity = given
      · simp only [if_pos ha]
        exact ⟨call.kind, rfl⟩
      · simp only [if_neg ha]
        exact rfl

theorem verdict_member (use : SelectorUse) (f : RowFunc) :
    Verdict (f.memberViolations use) (f.judgeMember use) := by
  rw [RowFunc.memberViolations, RowFunc.judgeMember]
  cases f.toFunc.memberName? with
  | some name => exact ⟨.text name, rfl⟩
  | none => exact rfl

theorem verdict_reduction (r : Reduction) :
    Verdict r.violations r.judge := by
  cases r with
  | count => exact ⟨_, rfl⟩
  | sum f => exact verdict_map (verdict_member .sum f) fun _ => ⟨_, rfl⟩
  | average f =>
      exact verdict_map (verdict_member .average f) fun _ => ⟨_, rfl⟩

/-- A root fails with the first violation in its literals. -/
theorem verdict_root (c : Converter) (r : Root) :
    Verdict (r.literals.flatMap c.violations) (r.judge c) := by
  cases r with
  | literal v =>
      rw [Root.literals, List.flatMap_singleton]
      exact verdict_judge c v
  | literalSeq vs =>
      exact verdict_map (verdict_judgeAll c vs) fun _ => ⟨_, rfl⟩
  | insert t v upsert =>
      rw [Root.literals, List.flatMap_singleton]
      exact verdict_map (verdict_judge c v) fun _ => ⟨_, rfl⟩
  | _ => exact ⟨_, rfl⟩

/-- A step fails with the first violation in the literals it carries. -/
theorem verdict_step (c : Converter) (s : Step) :
    Verdict (s.carried.flatMap c.violations) (c.judgeAll s.literals) := by
  rw [literals_eq_carried]
  exact verdict_judgeAll c s.carried

/-! ## Parameters and functions -/

/-- An environment that gives exactly the declared parameters a number. -/
def Environment.Knows (env : Environment) (declared : List Param) : Prop :=
  ∀ p, (env p).isSome = true ↔ p ∈ declared

/-- Outside all functions no parameter is known. -/
theorem knows_outside : Environment.Knows (.ofScope []) [] := by
  intro p
  constructor
  · intro h
    cases h
  · intro h
    cases h

theorem judged_reference (henv : env.Knows declared) (p : Param) :
    Judged (if p ∈ declared then [] else [.unsupported (.freeParam p)])
      (env.reference p) := by
  rw [Environment.reference]
  cases hp : env p with
  | some id =>
      rw [if_pos ((henv p).mp (by rw [hp]; rfl))]
      exact judged_pure _
  | none =>
      have hfree : p ∉ declared := by
        intro hmem
        have hsome := (henv p).mpr hmem
        rw [hp] at hsome
        cases hsome
      rw [if_neg hfree]
      exact judged_fail _ _

/-- A parameter has a last position exactly where it is one of them. -/
theorem lastPosition_isSome {p : Param} {ps : List Param} :
    (lastPosition? p ps).isSome = true ↔ p ∈ ps := by
  induction ps with
  | nil =>
      constructor
      · intro h
        cases h
      · intro h
        cases h
  | cons q qs ih =>
      rw [lastPosition?, List.mem_cons, ← ih]
      cases lastPosition? p qs with
      | some i => simp
      | none =>
          by_cases hq : q = p
          · simp [hq]
          · simp [hq, Ne.symm hq]

/-- Inside a function its parameters are known too. -/
theorem knows_declare (henv : env.Knows declared) (params : List Param)
    (first : Nat) :
    (env.declare params first).Knows (params ++ declared) := by
  intro p
  rw [Environment.declare, List.mem_append, ← lastPosition_isSome,
    ← henv p]
  cases lastPosition? p params with
  | some i => simp
  | none => simp

/-- What is wrong with a function is what is wrong with its body. -/
theorem judged_function {params : List Param}
    {body : Environment → Translation Term} (henv : env.Knows declared)
    (h : ∀ inner, inner.Knows (params ++ declared) →
      Judged vs (body inner)) :
    Judged vs (functionTranslate params env body) := by
  have htake : Judged [] (take params.length) := fun n => ⟨n, rfl⟩
  refine judged_bind htake fun first => ?_
  exact judged_map (h _ (knows_declare henv params first)) fun _ =>
    judged_pure _

/-! ## Expressions and chains -/

/-- Where the parameters declared around are known, an expression fails
    with its first violation. -/
def Expr.Judged (c : Converter) (e : Expr) : Prop :=
  ∀ env declared, Environment.Knows env declared →
    Translation.Judged (e.violations c declared) (e.translate c env)

/-- Where the parameters declared around are known, a chain fails with its
    first violation. -/
def Query.Judged (c : Converter) (q : Query) : Prop :=
  ∀ env declared, Environment.Knows env declared →
    Translation.Judged (q.violations c declared) (q.translate c env)

theorem judged_rowFunc {f : RowFunc} (h : f.toFunc.body.Judged c)
    (henv : env.Knows declared) :
    Translation.Judged (f.violations c declared) (f.translate c env) := by
  obtain ⟨row, body⟩ := f
  exact judged_function henv fun inner hin => h inner _ hin

theorem judged_pairFunc {f : PairFunc} (h : f.toFunc.body.Judged c)
    (henv : env.Knows declared) :
    Translation.Judged (f.violations c declared) (f.translate c env) := by
  obtain ⟨left, right, body⟩ := f
  exact judged_function henv fun inner hin => h inner _ hin

theorem judged_items {es : List Expr} (h : ∀ e ∈ es, e.Judged c)
    (henv : env.Knows declared) :
    Translation.Judged (itemViolations c declared es)
      (translateItems c env es) := by
  induction es with
  | nil => exact judged_pure []
  | cons e es ih =>
      obtain ⟨he, hes⟩ := List.forall_mem_cons.mp h
      rw [itemViolations, translateItems]
      exact judged_bind (he env declared henv) fun t =>
        judged_map (ih hes) fun ts => judged_pure (t :: ts)

/-- A member is checked against those put before it. -/
theorem judged_members {ms : List (String × Expr)}
    (h : ∀ m ∈ ms, m.2.Judged c) (henv : env.Knows declared)
    {earlier : List String} {done : List (String × Term)}
    (hdone : ∀ name, name ∈ done.map Prod.fst ↔ name ∈ earlier) :
    Translation.Judged (memberViolations c declared earlier ms)
      (translateMembers c env ms done) := by
  induction ms generalizing earlier done with
  | nil => exact judged_pure done
  | cons m ms ih =>
      obtain ⟨name, e⟩ := m
      obtain ⟨he, hms⟩ := List.forall_mem_cons.mp h
      rw [memberViolations, translateMembers]
      refine judged_bind (he env declared henv) fun t => ?_
      by_cases hname : name ∈ earlier
      · rw [if_pos hname, if_pos (Entries.has_iff.mpr ((hdone name).mpr hname))]
        exact judged_fail _ _
      · have hnew : name ∉ done.map Prod.fst := mt (hdone name).mp hname
        rw [if_neg hname, if_neg (mt Entries.has_iff.mp hnew)]
        -- Names are listed as met and put in order; the set is the same.
        refine ih hms fun other => ?_
        have hput := (Entries.put_perm t hnew).map Prod.fst
        rw [hput.mem_iff, List.map_cons, List.mem_cons, List.mem_cons,
          hdone other]

/-- A key that goes by a name has nothing wrong with it. -/
theorem judged_key {k : SortKey} (h : k.body.Judged c)
    (henv : env.Knows declared) :
    Translation.Judged (k.violations c declared) (k.translate c env) := by
  obtain ⟨selector, direction⟩ := k
  rw [translate_key, SortKey.violations]
  refine judged_map ?_ fun _ => judged_pure _
  cases hname : selector.toFunc.memberName? with
  | some name =>
      -- The selector is not translated, and would not have failed.
      obtain ⟨row, rfl⟩ := memberName_iff.mp hname
      have hnone : RowFunc.violations c declared
          (.mk row (.field (.param row) name)) = [] :=
        if_pos List.mem_cons_self
      rw [hnone]
      exact judged_pure _
  | none => exact judged_rowFunc h henv

theorem judged_keys {ks : List SortKey} (h : ∀ k ∈ ks, k.body.Judged c)
    (henv : env.Knows declared) :
    Translation.Judged (keyViolations c declared ks)
      (translateKeys c env ks) := by
  induction ks with
  | nil => exact judged_pure []
  | cons k ks ih =>
      obtain ⟨hk, hks⟩ := List.forall_mem_cons.mp h
      rw [keyViolations, translateKeys]
      exact judged_bind (judged_key hk henv) fun t =>
        judged_map (ih hks) fun ts => judged_pure (t :: ts)

/-- The first violation decides, form by form. -/
theorem judged_hereditary (c : Converter) :
    Hereditary (Expr.Judged c) (Query.Judged c) where
  param p _ _ henv := judged_reference henv p
  literal v _ _ _ := judged_ofExcept (verdict_judge c v)
  field _ _ he env declared henv :=
    judged_map (he env declared henv) fun _ => judged_pure _
  compare _ _ _ ha hb env declared henv :=
    judged_bind (ha env declared henv) fun _ =>
      judged_map (hb env declared henv) fun _ => judged_pure _
  arith _ _ _ ha hb env declared henv :=
    judged_bind (ha env declared henv) fun _ =>
      judged_map (hb env declared henv) fun _ => judged_pure _
  all _ hes _ _ henv :=
    judged_map (judged_items hes henv) fun _ => judged_pure _
  any _ hes _ _ henv :=
    judged_map (judged_items hes henv) fun _ => judged_pure _
  not _ he env declared henv :=
    judged_map (he env declared henv) fun _ => judged_pure _
  array _ hes _ _ henv :=
    judged_map (judged_items hes henv) fun _ => judged_pure _
  object _ hms _ _ henv :=
    judged_map (judged_members hms henv fun _ => Iff.rfl) fun _ =>
      judged_pure _
  call name es hes _ _ henv :=
    judged_bind (judged_ofExcept (verdict_call name es.length)) fun _ =>
      judged_map (judged_items hes henv) fun _ => judged_pure _
  subquery _ _ hq := hq
  root r _ _ _ := judged_ofExcept (verdict_root c r)
  indexCreateWith _ _ _ hkey _ _ henv :=
    judged_map (judged_rowFunc hkey henv) fun _ => judged_pure _
  step _ s hq env declared henv :=
    judged_bind (hq env declared henv) fun _ =>
      judged_map (judged_ofExcept (verdict_step c s)) fun _ =>
        judged_pure _
  rowStep _ _ _ hq hf env declared henv :=
    judged_bind (hq env declared henv) fun _ =>
      judged_map (judged_rowFunc hf henv) fun _ => judged_pure _
  orderBy _ _ _ hq hfirst hothers env declared henv :=
    judged_bind (hq env declared henv) fun _ =>
      judged_bind (judged_key hfirst henv) fun _ =>
        judged_map (judged_keys hothers henv) fun _ => judged_pure _
  union _ _ ha hb env declared henv :=
    judged_bind (ha env declared henv) fun _ =>
      judged_map (hb env declared henv) fun _ => judged_pure _
  reduce _ _ base hq hf env declared henv :=
    judged_bind (hq env declared henv) fun _ =>
      judged_bind (judged_pairFunc hf henv) fun _ =>
        judged_map (judged_ofExcept (verdict_judgeOptional c base)) fun _ =>
          judged_pure _
  groupBy _ reduction _ hq hkey env declared henv :=
    judged_bind (hq env declared henv) fun _ =>
      judged_bind (judged_rowFunc hkey henv) fun _ =>
        judged_map (judged_ofExcept (verdict_reduction reduction)) fun _ =>
          judged_pure _
  groupedMapReduce _ _ _ _ base hq hg hm hr env declared henv :=
    judged_bind (hq env declared henv) fun _ =>
      judged_bind (judged_rowFunc hg henv) fun _ =>
        judged_bind (judged_rowFunc hm henv) fun _ =>
          judged_bind (judged_pairFunc hr henv) fun _ =>
            judged_map (judged_ofExcept (verdict_judgeOptional c base))
              fun _ => judged_pure _
  join _ _ _ _ ha hb hf env declared henv :=
    judged_bind (ha env declared henv) fun _ =>
      judged_bind (hb env declared henv) fun _ =>
        judged_map (judged_pairFunc hf henv) fun _ => judged_pure _
  eqJoin _ member _ _ ha hb env declared henv :=
    judged_bind (ha env declared henv) fun _ =>
      judged_bind (judged_ofExcept (verdict_member .eqJoin member)) fun _ =>
        judged_map (hb env declared henv) fun _ => judged_pure _

/-- **Generation succeeds exactly on well-formed chains.**  A chain has a
    term if and only if it is well formed outside all functions; and any
    error is the first violation in it, in build order. -/
theorem generate_ok_iff_wellFormed (c : Converter) (q : Query) :
    ((∃ t, (q.generate c).result = .ok t) ↔ q.WellFormed c []) ∧
      ∀ e, (q.generate c).result = .error e ↔
        (q.violations c []).head? = some e := by
  have hverdict := (judged_hereditary c).query q _ [] knows_outside 1
  have hresult : (q.generate c).result = (q.translate c (.ofScope []) 1).1 :=
    (follows_job c (.query q) [] 1).1
  rw [← hresult] at hverdict
  rw [← violations_eq_nil_iff]
  cases hvs : q.violations c [] with
  | nil =>
      rw [hvs] at hverdict
      obtain ⟨t, ht⟩ := hverdict
      rw [ht]
      refine ⟨⟨fun _ => rfl, fun _ => ⟨t, rfl⟩⟩, fun e => ?_⟩
      constructor
      · intro h
        cases h
      · intro h
        cases h
  | cons e vs =>
      rw [hvs] at hverdict
      replace hverdict : (q.generate c).result = .error e := hverdict
      rw [hverdict]
      refine ⟨⟨?_, ?_⟩, fun e' => ?_⟩
      · rintro ⟨t, ht⟩
        cases ht
      · intro h
        cases h
      · rw [List.head?_cons, Except.error.injEq, Option.some.injEq]

end ChainQuery
