import ChainQuery.Proofs.Assembly
import ChainQuery.Proofs.Course
import ChainQuery.Proofs.Numbering

/-! # Relocation — one job at two numbers

    Where numbering starts shows in a term only in the numbers of its own
    variables: begun `k` numbers further on, the same job gives the same
    term with those numbers `k` further on (`Term.Shifted`), and
    references to parameters in scope outside it stay.  The route:

    * `Environment.Moved` relates the environments a part finds in the two
      runs, and passes into functions (`moved_declare`);
    * `Translation.Shifts` says that what one translation gives, another
      gives shifted; it passes through sequences (`shifts_bind`) and
      functions (`shifts_function`), and so through every form of node
      (`shifts_hereditary`);
    * a job leaves its context with the same scope and a number that its
      course decides (`contextAfter_eq`), so to the jobs after it, its
      having run, or having failed, is a shift. -/

namespace ChainQuery

open Translation

/-! ## Shifted terms -/

mutual

/-- The second term is the first with the numbers of its own functions,
    none below `first`, raised by `k`.  A reference is raised with the
    function `around` it that lists its number, or refers to something
    `outer` and stays. -/
inductive Term.Shifted (first k : Nat) (outer : Nat → Prop) :
    List Nat → Term → Term → Prop where
  /-- What neither lists nor refers to a number stays. -/
  | fixed {around : List Nat} {t : Term} :
      t.Inert → Term.Shifted first k outer around t t
  | own {around : List Nat} {id : Nat} :
      id ∈ around →
        Term.Shifted first k outer around (.node .var [.number id])
          (.node .var [.number (id + k)])
  | outer {around : List Nat} {id : Nat} :
      outer id →
        Term.Shifted first k outer around (.node .var [.number id])
          (.node .var [.number id])
  | function {around ids : List Nat} {body body' : Term} :
      (∀ id ∈ ids, first ≤ id) →
        Term.Shifted first k outer (ids ++ around) body body' →
        Term.Shifted first k outer around
          (.node .func [.node .makeArray (ids.map .number), body])
          (.node .func
            [.node .makeArray ((ids.map (· + k)).map .number), body'])
  | node {around : List Nat} {kind : Term.Kind} {args args' : List Term}
      {named named' : List (String × Term)} :
      kind.Ordinary → ArgsShifted first k outer around args args' →
        NamedShifted first k outer around named named' →
        Term.Shifted first k outer around (.apply kind args named)
          (.apply kind args' named')

/-- Shifted argument by argument. -/
inductive ArgsShifted (first k : Nat) (outer : Nat → Prop) :
    List Nat → List Term → List Term → Prop where
  | nil {around : List Nat} : ArgsShifted first k outer around [] []
  | cons {around : List Nat} {t t' : Term} {ts ts' : List Term} :
      Term.Shifted first k outer around t t' →
        ArgsShifted first k outer around ts ts' →
        ArgsShifted first k outer around (t :: ts) (t' :: ts')

/-- Shifted name by name. -/
inductive NamedShifted (first k : Nat) (outer : Nat → Prop) :
    List Nat → List (String × Term) → List (String × Term) → Prop where
  | nil {around : List Nat} : NamedShifted first k outer around [] []
  | cons {around : List Nat} {t t' : Term}
      {rest rest' : List (String × Term)} (name : String) :
      Term.Shifted first k outer around t t' →
        NamedShifted first k outer around rest rest' →
        NamedShifted first k outer around ((name, t) :: rest)
          ((name, t') :: rest')

end

variable {α β γ δ : Type} {c : Converter} {first k : Nat}
  {outer : Nat → Prop} {around : List Nat} {env env' : Environment}
  {kind : Term.Kind} {args args' : List Term}
  {named named' : List (String × Term)}

theorem argsShifted_fixed {ts : List Term} (h : ∀ t ∈ ts, t.Inert) :
    ArgsShifted first k outer around ts ts := by
  induction ts with
  | nil => exact .nil
  | cons t ts ih =>
      obtain ⟨ht, hts⟩ := List.forall_mem_cons.mp h
      exact .cons (.fixed ht) (ih hts)

theorem namedShifted_fixed {es : List (String × Term)}
    (h : ∀ e ∈ es, ∃ d, e.2 = .datum d) :
    NamedShifted first k outer around es es := by
  induction es with
  | nil => exact .nil
  | cons e es ih =>
      obtain ⟨name, t⟩ := e
      obtain ⟨⟨d, ht⟩, hes⟩ := List.forall_mem_cons.mp h
      replace ht : t = .datum d := ht
      subst ht
      exact .cons name (.fixed (inert_leaf d)) (ih hes)

theorem shifted_node (hk : kind.Ordinary)
    (h : ArgsShifted first k outer around args args') :
    Term.Shifted first k outer around (.node kind args)
      (.node kind args') :=
  .node hk h .nil

/-- An attached leaf stays. -/
theorem shifted_withOptional {value : Option Term} (name : String)
    (hk : kind.Ordinary) (hleaf : ∀ t, value = some t → t.Inert)
    (h : ArgsShifted first k outer around args args') :
    Term.Shifted first k outer around
      ((Term.node kind args).withOptional name value)
      ((Term.node kind args').withOptional name value) := by
  cases value with
  | none => exact shifted_node hk h
  | some t =>
      exact .node hk h (.cons name (.fixed (hleaf t rfl)) .nil)

/-- The names and flags of a step stay. -/
theorem shifted_step (s : Step)
    (h : ArgsShifted first k outer around args args') :
    Term.Shifted first k outer around (s.attach (.node s.kind args))
      (s.attach (.node s.kind args')) := by
  rw [attach_step, attach_step]
  exact .node (ordinary_step s) h (namedShifted_fixed (step_names_leaf s))

theorem shifted_rowStep (s : RowStep)
    (h : ArgsShifted first k outer around args args') :
    Term.Shifted first k outer around (s.attach (.node s.kind args))
      (s.attach (.node s.kind args')) := by
  rw [attach_rowStep, attach_rowStep]
  exact .node (ordinary_rowStep s) h
    (namedShifted_fixed (rowStep_names_leaf s))

/-- The same names are taken in both runs. -/
theorem has_shifted (h : NamedShifted first k outer around named named')
    (name : String) : Entries.has name named = Entries.has name named' := by
  induction named generalizing named' with
  | nil =>
      cases h
      rfl
  | cons e rest ih =>
      cases h with
      | cons other _ hrest =>
          by_cases hname : name = other
          · simp [Entries.has, Entries.find?, hname]
          · simpa [Entries.has, Entries.find?, hname] using ih hrest

/-- Where an entry is put depends on names only. -/
theorem put_shifted {t t' : Term}
    (h : NamedShifted first k outer around named named') (name : String)
    (ht : Term.Shifted first k outer around t t') :
    NamedShifted first k outer around (Entries.put name t named)
      (Entries.put name t' named') := by
  induction named generalizing named' with
  | nil =>
      cases h
      exact .cons name ht .nil
  | cons e rest ih =>
      cases h with
      | cons other hother hrest =>
          rw [Entries.put, Entries.put]
          by_cases hname : name = other
          · rw [if_pos hname, if_pos hname]
            exact .cons name ht hrest
          by_cases hbefore : KeyBefore name other
          · rw [if_neg hname, if_pos hbefore, if_neg hname, if_pos hbefore]
            exact .cons name ht (.cons other hother hrest)
          · rw [if_neg hname, if_neg hbefore, if_neg hname,
              if_neg hbefore]
            exact .cons other hother (ih hrest)

/-! ## Environments in two runs -/

/-- What a parameter stands for in the first run it stands for in the
    second, shifted if it is a variable of a function around. -/
def Environment.Moved (k : Nat) (outer : Nat → Prop) (around : List Nat)
    (env env' : Environment) : Prop :=
  ∀ p id, env p = some id →
    (id ∈ around ∧ env' p = some (id + k)) ∨ (outer id ∧ env' p = some id)

/-- A function whose numbers are shifted shifts its parameters. -/
theorem moved_declare (h : Environment.Moved k outer around env env')
    (params : List Param) (n : Nat) :
    Environment.Moved k outer (List.range' n params.length ++ around)
      (env.declare params n) (env'.declare params (n + k)) := by
  intro p id hid
  rw [Environment.declare] at hid ⊢
  cases hpos : lastPosition? p params with
  | some i =>
      rw [hpos] at hid
      cases hid
      have hlt := lastPosition_lt hpos
      have hmem : n + i ∈ List.range' n params.length :=
        List.mem_range'_1.mpr (by omega)
      exact Or.inl ⟨List.mem_append_left _ hmem,
        congrArg some (Nat.add_right_comm n k i)⟩
  | none =>
      rw [hpos] at hid
      rcases h p id hid with ⟨hmem, heq⟩ | houter
      · exact Or.inl ⟨List.mem_append_right _ hmem, heq⟩
      · exact Or.inr houter

/-! ## Translations in two runs -/

/-- What the first translation gives from some number on, none below
    `first`, the second gives from `k` further on, up to `R`; and it uses
    up as many numbers. -/
def Translation.Shifts (first k : Nat) (R : α → β → Prop)
    (y : Translation α) (y' : Translation β) : Prop :=
  ∀ n a m, first ≤ n → y n = (.ok a, m) →
    first ≤ m ∧ ∃ b, y' (n + k) = (.ok b, m + k) ∧ R a b

variable {R : α → β → Prop} {S : γ → δ → Prop}

theorem shifts_pure {a : α} {b : β} (h : R a b) :
    Shifts first k R (pure a) (pure b) := by
  rintro n _ _ hn heq
  cases heq
  exact ⟨hn, b, rfl, h⟩

theorem shifts_ofExcept {r : Except TermError α} {Q : α → α → Prop}
    (h : ∀ a, r = .ok a → Q a a) :
    Shifts first k Q (ofExcept r) (ofExcept r) := by
  rintro n a _ hn heq
  obtain ⟨hr, rfl⟩ := Prod.mk.inj heq
  exact ⟨hn, a, congrArg (·, _) hr, h a hr⟩

theorem shifts_fail {e : TermError} {y' : Translation β} :
    Shifts first k R (fail e) y' := by
  intro n a m _ heq
  cases heq

theorem shifts_bind {x : Translation α} {x' : Translation β}
    {f : α → Translation γ} {g : β → Translation δ}
    (hx : Shifts first k R x x')
    (hf : ∀ a b, R a b → Shifts first k S (f a) (g b)) :
    Shifts first k S (x >>= f) (x' >>= g) := by
  intro n d m hn heq
  replace heq : andThen x f n = (.ok d, m) := heq
  rw [andThen] at heq
  rcases hxn : x n with ⟨r, middle⟩
  rw [hxn] at heq
  cases r with
  | error e => cases heq
  | ok a =>
      obtain ⟨hmiddle, b, hxn', hab⟩ := hx n a middle hn hxn
      obtain ⟨hm, d', hd', hrel⟩ := hf a b hab middle d m hmiddle heq
      refine ⟨hm, d', ?_, hrel⟩
      show andThen x' g (n + k) = _
      rw [andThen, hxn']
      exact hd'

/-- Terms in two runs. -/
abbrev Translation.ShiftsTerm (first k : Nat) (outer : Nat → Prop)
    (around : List Nat) (y y' : Translation Term) : Prop :=
  Shifts first k (Term.Shifted first k outer around) y y'

/-- A function is shifted when its body is. -/
theorem shifts_function {params : List Param}
    {body : Environment → Translation Term}
    (henv : env.Moved k outer around env')
    (h : ∀ around inner inner',
      Environment.Moved k outer around inner inner' →
        ShiftsTerm first k outer around (body inner) (body inner')) :
    ShiftsTerm first k outer around (functionTranslate params env body)
      (functionTranslate params env' body) := by
  have htake : Shifts first k (fun a b => first ≤ a ∧ b = a + k)
      (take params.length) (take params.length) := by
    intro n a m hn heq
    cases heq
    exact ⟨by omega, n + k, by rw [take, Nat.add_right_comm], hn, rfl⟩
  refine shifts_bind htake ?_
  rintro a _ ⟨hfirst, rfl⟩
  refine shifts_bind (h _ _ _ (moved_declare henv params a)) ?_
  intro t t' ht
  have hids : (List.range' a params.length).map (· + k)
      = List.range' (a + k) params.length := by
    simp [List.map_add_range', Nat.add_comm]
  rw [← hids]
  refine shifts_pure (.function ?_ ht)
  intro id hid
  have := List.mem_range'_1.mp hid
  omega

theorem shifts_reference (henv : env.Moved k outer around env')
    (p : Param) :
    ShiftsTerm first k outer around (env.reference p)
      (env'.reference p) := by
  rw [Environment.reference, Environment.reference]
  cases hp : env p with
  | none => exact shifts_fail
  | some id =>
      rcases henv p id hp with ⟨hmem, heq⟩ | ⟨houter, heq⟩
      · rw [heq]
        exact shifts_pure (.own hmem)
      · rw [heq]
        exact shifts_pure (.outer houter)

/-! ## Expressions and chains -/

/-- In environments of two runs, an expression gives shifted terms. -/
def Expr.Shifts (c : Converter) (first k : Nat) (outer : Nat → Prop)
    (e : Expr) : Prop :=
  ∀ around env env', Environment.Moved k outer around env env' →
    ShiftsTerm first k outer around (e.translate c env)
      (e.translate c env')

/-- In environments of two runs, a chain gives shifted terms. -/
def Query.Shifts (c : Converter) (first k : Nat) (outer : Nat → Prop)
    (q : Query) : Prop :=
  ∀ around env env', Environment.Moved k outer around env env' →
    ShiftsTerm first k outer around (q.translate c env)
      (q.translate c env')

theorem shifts_func {f : Func} (h : f.body.Shifts c first k outer)
    (henv : env.Moved k outer around env') :
    ShiftsTerm first k outer around (f.translate c env)
      (f.translate c env') :=
  shifts_function henv h

theorem shifts_rowFunc {f : RowFunc}
    (h : f.toFunc.body.Shifts c first k outer)
    (henv : env.Moved k outer around env') :
    ShiftsTerm first k outer around (f.translate c env)
      (f.translate c env') := by
  obtain ⟨row, body⟩ := f
  exact shifts_func h henv

theorem shifts_pairFunc {f : PairFunc}
    (h : f.toFunc.body.Shifts c first k outer)
    (henv : env.Moved k outer around env') :
    ShiftsTerm first k outer around (f.translate c env)
      (f.translate c env') := by
  obtain ⟨left, right, body⟩ := f
  exact shifts_func h henv

theorem shifts_items {es : List Expr}
    (h : ∀ e ∈ es, e.Shifts c first k outer)
    (henv : env.Moved k outer around env') :
    Shifts first k (ArgsShifted first k outer around)
      (translateItems c env es) (translateItems c env' es) := by
  induction es with
  | nil => exact shifts_pure .nil
  | cons e es ih =>
      obtain ⟨he, hes⟩ := List.forall_mem_cons.mp h
      rw [translateItems, translateItems]
      exact shifts_bind (he around env env' henv) fun _ _ ht =>
        shifts_bind (ih hes) fun _ _ hts => shifts_pure (.cons ht hts)

theorem shifts_members {ms : List (String × Expr)}
    (h : ∀ m ∈ ms, m.2.Shifts c first k outer)
    (henv : env.Moved k outer around env')
    {done done' : List (String × Term)}
    (hdone : NamedShifted first k outer around done done') :
    Shifts first k (NamedShifted first k outer around)
      (translateMembers c env ms done)
      (translateMembers c env' ms done') := by
  induction ms generalizing done done' with
  | nil => exact shifts_pure hdone
  | cons m ms ih =>
      obtain ⟨name, e⟩ := m
      obtain ⟨he, hms⟩ := List.forall_mem_cons.mp h
      rw [translateMembers, translateMembers]
      refine shifts_bind (he around env env' henv) fun t t' ht => ?_
      rw [← has_shifted hdone name]
      by_cases hname : Entries.has name done = true
      · rw [if_pos hname]
        exact shifts_fail
      · rw [if_neg hname, if_neg hname]
        exact ih hms (put_shifted hdone name ht)

/-- Literals are the same in both runs. -/
theorem shifts_literals (vs : List Value) :
    Shifts first k (ArgsShifted first k outer around)
      (ofExcept (c.judgeAll vs)) (ofExcept (c.judgeAll vs)) :=
  shifts_ofExcept fun _ hts => argsShifted_fixed (inert_literals hts)

/-- A base is the same in both runs, and a leaf. -/
theorem shifts_base (base : Option Value) :
    Shifts first k (fun b b' => b' = b ∧ ∀ t, b = some t → t.Inert)
      (ofExcept (c.judgeOptional base))
      (ofExcept (c.judgeOptional base)) := by
  refine shifts_ofExcept fun b hb => ⟨rfl, ?_⟩
  rintro t rfl
  rcases judgeOptional_leaf hb with ⟨-, hnone⟩ | ⟨v, d, -, -, hsome⟩
  · cases hnone
  · cases hsome
    exact inert_leaf d

theorem shifts_key {k' : SortKey} (h : k'.body.Shifts c first k outer)
    (henv : env.Moved k outer around env') :
    ShiftsTerm first k outer around (k'.translate c env)
      (k'.translate c env') := by
  obtain ⟨selector, direction⟩ := k'
  rw [translate_key, translate_key]
  refine shifts_bind (R := Term.Shifted first k outer around) ?_
    fun _ _ ht =>
      shifts_pure (shifted_node (ordinary_direction direction)
        (.cons ht .nil))
  cases selector.toFunc.memberName? with
  | some name => exact shifts_pure (.fixed (inert_text name))
  | none => exact shifts_rowFunc h henv

theorem shifts_keys {ks : List SortKey}
    (h : ∀ k' ∈ ks, k'.body.Shifts c first k outer)
    (henv : env.Moved k outer around env') :
    Shifts first k (ArgsShifted first k outer around)
      (translateKeys c env ks) (translateKeys c env' ks) := by
  induction ks with
  | nil => exact shifts_pure .nil
  | cons k' ks ih =>
      obtain ⟨hk, hks⟩ := List.forall_mem_cons.mp h
      rw [translateKeys, translateKeys]
      exact shifts_bind (shifts_key hk henv) fun _ _ ht =>
        shifts_bind (ih hks) fun _ _ hts => shifts_pure (.cons ht hts)

/-- Every form of node gives shifted terms. -/
theorem shifts_hereditary (c : Converter) (first k : Nat)
    (outer : Nat → Prop) :
    Hereditary (Expr.Shifts c first k outer)
      (Query.Shifts c first k outer) where
  param p _ _ _ henv := shifts_reference henv p
  literal v _ _ _ _ := shifts_ofExcept fun _ ht => .fixed (inert_judge ht)
  field _ name he around env env' henv :=
    shifts_bind (he around env env' henv) fun _ _ ht =>
      shifts_pure (shifted_node (by decide)
        (.cons ht (.cons (.fixed (inert_text name)) .nil)))
  compare op _ _ ha hb around env env' henv :=
    shifts_bind (ha around env env' henv) fun _ _ ht =>
      shifts_bind (hb around env env' henv) fun _ _ hu =>
        shifts_pure (shifted_node (ordinary_compare op)
          (.cons ht (.cons hu .nil)))
  arith op _ _ ha hb around env env' henv :=
    shifts_bind (ha around env env' henv) fun _ _ ht =>
      shifts_bind (hb around env env' henv) fun _ _ hu =>
        shifts_pure (shifted_node (ordinary_arith op)
          (.cons ht (.cons hu .nil)))
  all _ hes _ _ _ henv :=
    shifts_bind (shifts_items hes henv) fun _ _ hts =>
      shifts_pure (shifted_node (by decide) hts)
  any _ hes _ _ _ henv :=
    shifts_bind (shifts_items hes henv) fun _ _ hts =>
      shifts_pure (shifted_node (by decide) hts)
  not _ he around env env' henv :=
    shifts_bind (he around env env' henv) fun _ _ ht =>
      shifts_pure (shifted_node (by decide) (.cons ht .nil))
  array _ hes _ _ _ henv :=
    shifts_bind (shifts_items hes henv) fun _ _ hts =>
      shifts_pure (shifted_node (by decide) hts)
  object _ hms _ _ _ henv :=
    shifts_bind (shifts_members hms henv .nil) fun _ _ hts =>
      shifts_pure (.node (by decide) .nil hts)
  call name es hes _ _ _ henv := by
    refine shifts_bind (R := fun kind kind' =>
      kind.Ordinary ∧ kind' = kind) ?_ ?_
    · exact shifts_ofExcept fun _ hkind => ⟨ordinary_call hkind, rfl⟩
    rintro kind _ ⟨hkind, rfl⟩
    exact shifts_bind (shifts_items hes henv) fun _ _ hts =>
      shifts_pure (shifted_node hkind hts)
  subquery _ _ hq := hq
  root r _ _ _ _ := shifts_ofExcept fun _ ht => .fixed (inert_root ht)
  indexCreateWith t name _ hkey _ _ _ henv :=
    shifts_bind (shifts_rowFunc hkey henv) fun _ _ hf =>
      shifts_pure (shifted_node (by decide)
        (.cons (.fixed (inert_table t))
          (.cons (.fixed (inert_text name)) (.cons hf .nil))))
  step _ s hq around env env' henv :=
    shifts_bind (hq around env env' henv) fun _ _ ht =>
      shifts_bind (shifts_literals s.literals) fun _ _ hts =>
        shifts_pure (shifted_step s (.cons ht hts))
  rowStep _ s _ hq hf around env env' henv :=
    shifts_bind (hq around env env' henv) fun _ _ ht =>
      shifts_bind (shifts_rowFunc hf henv) fun _ _ hu =>
        shifts_pure (shifted_rowStep s (.cons ht (.cons hu .nil)))
  orderBy _ _ _ hq hfirst hothers around env env' henv :=
    shifts_bind (hq around env env' henv) fun _ _ ht =>
      shifts_bind (shifts_key hfirst henv) fun _ _ hu =>
        shifts_bind (shifts_keys hothers henv) fun _ _ hus =>
          shifts_pure (shifted_node (by decide) (.cons ht (.cons hu hus)))
  union _ _ ha hb around env env' henv :=
    shifts_bind (ha around env env' henv) fun _ _ ht =>
      shifts_bind (hb around env env' henv) fun _ _ hu =>
        shifts_pure (shifted_node (by decide) (.cons ht (.cons hu .nil)))
  reduce _ _ base hq hf around env env' henv := by
    refine shifts_bind (hq around env env' henv) fun _ _ ht => ?_
    refine shifts_bind (shifts_pairFunc hf henv) fun _ _ hu => ?_
    refine shifts_bind (shifts_base base) ?_
    rintro b _ ⟨rfl, hleaf⟩
    exact shifts_pure (shifted_withOptional "base" (by decide) hleaf
      (.cons ht (.cons hu .nil)))
  groupBy _ reduction _ hq hkey around env env' henv :=
    shifts_bind (hq around env env' henv) fun _ _ ht =>
      shifts_bind (shifts_rowFunc hkey henv) fun _ _ hu =>
        shifts_bind (shifts_ofExcept fun _ hr => .fixed (inert_reduction hr))
          fun _ _ hr =>
            shifts_pure (shifted_node (by decide)
              (.cons ht (.cons hu (.cons hr .nil))))
  groupedMapReduce _ _ _ _ base hq hg hm hr around env env' henv := by
    refine shifts_bind (hq around env env' henv) fun _ _ ht => ?_
    refine shifts_bind (shifts_rowFunc hg henv) fun _ _ hgroup => ?_
    refine shifts_bind (shifts_rowFunc hm henv) fun _ _ hmap => ?_
    refine shifts_bind (shifts_pairFunc hr henv) fun _ _ hreduce => ?_
    refine shifts_bind (shifts_base base) ?_
    rintro b _ ⟨rfl, hleaf⟩
    exact shifts_pure (shifted_withOptional "base" (by decide) hleaf
      (.cons ht (.cons hgroup (.cons hmap (.cons hreduce .nil)))))
  join kind _ _ _ ha hb hf around env env' henv :=
    shifts_bind (ha around env env' henv) fun _ _ ht =>
      shifts_bind (hb around env env' henv) fun _ _ hu =>
        shifts_bind (shifts_pairFunc hf henv) fun _ _ hp =>
          shifts_pure (shifted_node (ordinary_join kind)
            (.cons ht (.cons hu (.cons hp .nil))))
  eqJoin _ member _ index ha hb around env env' henv := by
    refine shifts_bind (ha around env env' henv) fun _ _ ht => ?_
    refine shifts_bind (R := Term.Shifted first k outer around)
      (shifts_ofExcept fun _ hm => .fixed (inert_member hm))
      fun _ _ hm => ?_
    refine shifts_bind (hb around env env' henv) fun _ _ hu => ?_
    refine shifts_pure (shifted_withOptional "index" (by decide) ?_
      (.cons ht (.cons hm (.cons hu .nil))))
    intro t ht
    obtain ⟨name, -, rfl⟩ := Option.map_eq_some_iff.mp ht
    exact inert_text name

/-! ## Jobs -/

/-- A job gives shifted terms in scopes of two runs. -/
theorem shifts_job (c : Converter) (job : Job) (first k : Nat)
    (henv : env.Moved k outer [] env') :
    ShiftsTerm first k outer [] (job.translate c env)
      (job.translate c env') := by
  have h := shifts_hereditary c first k outer
  cases job with
  | query q => exact h.query q [] env env' henv
  | func f => exact shifts_func (h.expr f.body) henv
  | expr e => exact h.expr e [] env env' henv
  | literal v => exact shifts_ofExcept fun _ ht => .fixed (inert_judge ht)

/-- A scope in which nothing happened. -/
theorem moved_scope (k : Nat) (scope : List (Param × Nat)) :
    Environment.Moved k (fun id => ∃ p, scope.lookup p = some id) []
      (.ofScope scope) (.ofScope scope) :=
  fun p _ hid => Or.inr ⟨⟨p, hid⟩, hid⟩

/-- The second of two outcomes is the first, begun in `ctx`, with the
    numbers handed out since then raised by `k`. -/
structure Outcome.ShiftedBy (k : Nat) (ctx : Context)
    (o o' : Outcome Term) : Prop where
  context : o'.context = ⟨o.context.next + k, o.context.scope⟩
  term : ∀ t, o.result = .ok t → ∃ t', o'.result = .ok t' ∧
    Term.Shifted ctx.next k (fun id => ∃ p, ctx.resolve? p = some id) []
      t t'
  error : ∀ e, o.result = .error e ↔ o'.result = .error e

/-- Only the numbers handed out tell where numbering started. -/
theorem shiftedBy_job (c : Converter) (job : Job) (ctx : Context)
    (k : Nat) :
    (job.walk c ctx).ShiftedBy k ctx
      (job.walk c ⟨ctx.next + k, ctx.scope⟩) where
  context := by
    rw [context_job, context_job, Nat.add_right_comm]
  term t ht := by
    have henv := moved_scope k ctx.scope
    obtain ⟨hresult, -⟩ := follows_job c job ctx.scope ctx.next
    obtain ⟨hresult', -⟩ := follows_job c job ctx.scope (ctx.next + k)
    obtain ⟨-, t', ht', hshift⟩ :=
      shifts_job c job ctx.next k henv ctx.next t _ (Nat.le_refl _)
        (Prod.ext (hresult.symm.trans ht) rfl)
    exact ⟨t', hresult'.trans (congrArg Prod.fst ht'), hshift⟩
  error e := by
    rw [error_job, error_job]

/-- **Nothing leaks out of a step, failed or not.**  From every context,
    with any converter, a job gives back the scope it found, and has used
    up one number for each parameter of the functions it entered before
    it ended.  In every run after it, each parameter stands for what it
    stands for in the run without it, and a job ends as it does there:
    with the same error, or with the same term up to the numbers of its
    own functions.  The converter is handed to every walk and is no part
    of what a walk changes. -/
theorem scope_never_leaks (c : Converter) (ctx : Context) (job : Job) :
    (job.walk c ctx).context
      = ⟨ctx.next + (job.entered c ctx.scope).length, ctx.scope⟩ ∧
    ∀ between : List Job,
      (∀ p, (contextAfter c ctx (job :: between)).resolve? p
        = (contextAfter c ctx between).resolve? p) ∧
      ∀ later : Job,
        (later.walk c (contextAfter c ctx between)).ShiftedBy
          (job.entered c ctx.scope).length (contextAfter c ctx between)
          (later.walk c (contextAfter c ctx (job :: between))) := by
  refine ⟨context_job c job ctx, fun between => ?_⟩
  have hscope : (contextAfter c ctx between).scope = ctx.scope := by
    rw [contextAfter_eq]
  have hafter : contextAfter c ctx (job :: between)
      = ⟨(contextAfter c ctx between).next
          + (job.entered c ctx.scope).length,
         (contextAfter c ctx between).scope⟩ := by
    rw [contextAfter_eq, contextAfter_eq, List.flatMap_cons,
      List.length_append, Nat.add_comm (job.entered c ctx.scope).length,
      Nat.add_assoc]
  refine ⟨fun p => ?_, fun later => ?_⟩
  · rw [Context.resolve?, Context.resolve?, hafter]
  · rw [hafter]
    exact shiftedBy_job c later _ _

/-- A function that fails in its body has used up its two numbers. -/
example :
    (Job.walk (.standard .strict)
      (.func ⟨[⟨0⟩, ⟨1⟩], .param ⟨2⟩⟩) ⟨5, [(⟨7⟩, 3)]⟩).context
      = ⟨7, [(⟨7⟩, 3)]⟩ := by
  decide

end ChainQuery
