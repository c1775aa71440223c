import ChainQuery.Proofs.Course
import ChainQuery.Proofs.Forms

/-! # Members — the shortcut and the translation agree

    A selector that reads one member of its own row goes on the wire by
    the name of the member, and whether it does is read off the selector
    as it was captured (`Func.memberName?`).  Its translation says the
    same: the body of the function is a member of a variable that has the
    number of the first parameter.  The route:

    * all numbers in scope were handed out before, in every context that
      a walk can reach (`issued_of_reached`), so inside a function the
      number of its first parameter is that of no other one
      (`declare_first_iff`);
    * only a member of a parameter has the term of a member of a variable,
      whatever else has terms (`member_of_gives`), so the two agree
      (`memberName_iff_readsOwn`);
    * sort keys, reductions and joins go by the shortcut. -/

namespace ChainQuery

open Walk Translation

/-! ## Contexts of a walk -/

namespace Context

/-- The numbers in scope have all been handed out. -/
def Issued (ctx : Context) : Prop :=
  ∀ binding ∈ ctx.scope, binding.2 < ctx.next

/-- The contexts that a walk can reach: it starts afresh, enters and leaves
    functions, and goes on where a part has been walked. -/
inductive Reached (c : Converter) : Context → Prop where
  | start : Reached c .fresh
  | enter {ctx} (params : List Param) : Reached c ctx →
      Reached c (ctx.enter params)
  | leave {ctx} (count : Nat) : Reached c ctx → Reached c (ctx.leave count)
  | after {ctx} (job : Job) : Reached c ctx →
      Reached c (job.walk c ctx).context

end Context

variable {c : Converter} {ctx : Context} {env : Environment}

theorem issued_enter (h : ctx.Issued) (params : List Param) :
    (ctx.enter params).Issued := by
  induction params generalizing ctx with
  | nil => exact h
  | cons p ps ih =>
      have hbind : (ctx.bindParam p).Issued :=
        List.forall_mem_cons.mpr ⟨Nat.lt_succ_self ctx.next,
          fun binding hmem => Nat.lt_succ_of_lt (h binding hmem)⟩
      exact ih hbind

theorem issued_of_reached (h : ctx.Reached c) : ctx.Issued := by
  induction h with
  | start => exact List.forall_mem_nil _
  | enter params _ ih => exact issued_enter ih params
  | leave count _ ih =>
      exact fun binding hmem => ih binding (List.mem_of_mem_drop hmem)
  | after job _ ih =>
      intro binding hmem
      rw [context_job] at hmem ⊢
      exact Nat.lt_add_right _ (ih binding hmem)

/-- The environment of such a context knows no number still to come. -/
theorem lt_of_resolved (h : ctx.Issued) {p : Param} {id : Nat}
    (hid : Environment.ofScope ctx.scope p = some id) : id < ctx.next := by
  obtain ⟨before, after, hscope, -⟩ := List.lookup_eq_some_iff.mp hid
  refine h (p, id) ?_
  rw [hscope]
  exact List.mem_append_right _ (.head _)

/-! ## The first parameter -/

/-- A parameter stands last in the first place when it does not occur
    again. -/
theorem lastPosition_zero_iff {p : Param} {params : List Param} :
    lastPosition? p params = some 0 ↔
      ∃ rest, params = p :: rest ∧ p ∉ rest := by
  cases params with
  | nil =>
      constructor
      · intro h
        cases h
      · rintro ⟨rest, ⟨⟩, -⟩
  | cons q qs =>
      rw [lastPosition?]
      cases hqs : lastPosition? p qs with
      | some i =>
          have hmem : p ∈ qs := lastPosition_isSome.mp (by rw [hqs]; rfl)
          constructor
          · intro h
            cases h
          · rintro ⟨rest, ⟨⟩, hnot⟩
            exact absurd hmem hnot
      | none =>
          have hnot : p ∉ qs := by
            rw [← lastPosition_isSome, hqs]
            exact Bool.false_ne_true
          by_cases hq : q = p
          · subst hq
            simp [hnot]
          · simp [hq]

/-- Among numbers that were handed out before, the number of the first
    parameter of a function stands for that parameter only. -/
theorem declare_first_iff (hissued : ctx.Issued) {params : List Param}
    {p : Param} :
    (Environment.ofScope ctx.scope).declare params ctx.next p
        = some ctx.next ↔
      lastPosition? p params = some 0 := by
  rw [Environment.declare]
  cases lastPosition? p params with
  | some i => simp
  | none =>
      constructor
      · intro h
        exact absurd (lt_of_resolved hissued h) (Nat.lt_irrefl _)
      · intro h
        cases h

/-! ## Terms that are members -/

/-- Nothing else can be said as a member or a parameter. -/
theorem plain_eq_self {e : Expr}
    (h : e.plain.form = .member ∨ e.plain.form = .parameter) :
    e.plain = e := by
  cases e with
  | subquery i q =>
      cases q with
      -- Some of these are said otherwise, but as literals, arrays and calls.
      | root r => cases r <;> rcases h with h | h <;> cases h
      | step q s => cases s <;> rcases h with h | h <;> cases h
      | _ => rcases h with h | h <;> cases h
  | _ => rfl

/-- Only a member has the term of a member. -/
theorem field_of_gives {e : Expr} {target : Term} {name : String}
    (h : Gives (e.part c env) (.node .getField [target, .text name])) :
    ∃ e', e = .field e' name ∧ Gives (e'.part c env) target := by
  have hplain : Expr.Form.member = e.plain.form := form_of_expr h
  rw [plain_eq_self (.inl hplain.symm)] at hplain
  cases e with
  | field e' name' =>
      obtain ⟨args, optargs, hterm, hargs, -⟩ :=
        assembled_field c e' name' env _ h
      cases hterm
      obtain ⟨htarget, htext⟩ := List.forall₂_cons.mp hargs
      obtain ⟨hname, -⟩ := List.forall₂_cons.mp htext
      cases gives_pure hname
      exact ⟨e', rfl, htarget⟩
  | _ => cases hplain

/-- Only a parameter has the term of a variable. -/
theorem param_of_gives {e : Expr} {id : Nat}
    (h : Gives (e.part c env) (.variableRef id)) :
    ∃ p i, e = .param p ∧ env p = some i ∧ Term.number i = .number id := by
  have hplain : Expr.Form.parameter = e.plain.form := form_of_expr h
  rw [plain_eq_self (.inr hplain.symm)] at hplain
  cases e with
  | param p =>
      obtain ⟨i, hi, hterm⟩ := gives_param h
      refine ⟨p, i, rfl, hi, ?_⟩
      injection hterm with _ hargs _
      exact (List.cons.inj hargs).1.symm
  | _ => cases hplain

theorem number_inj {m n : Nat} (hn : n < 2 ^ 53)
    (h : Term.number m = .number n) : m = n :=
  Binary64.ofNat_inj hn (Datum.number.inj (Term.datum.inj h))

/-! ## The shortcut -/

/-- The term of a function reads one member of its own first row: below
    the numbers of the function, which begin with the next one, the body is
    the member of the variable with that number. -/
def Func.ReadsOwn (c : Converter) (ctx : Context) (f : Func)
    (name : String) : Prop :=
  ∃ rest : List Nat, (f.walk c ctx).result
    = .ok (.node .func [.node .makeArray ((ctx.next :: rest).map .number),
        .node .getField [.node .var [.number ctx.next], .text name]])

variable {f : Func} {name : String}

/-- A function walks to what it translates to. -/
theorem result_func (c : Converter) (ctx : Context) (f : Func) :
    (f.walk c ctx).result
      = (f.part c (.ofScope ctx.scope) ctx.next).1 :=
  (follows_job c (.func f) ctx.scope ctx.next).1

/-- Whoever takes the shortcut reads that member, if no other parameter of
    the function has the name of the first. -/
theorem readsOwn_of_memberName (hissued : ctx.Issued)
    (hparams : f.params.Nodup) (h : f.memberName? = some name) :
    f.ReadsOwn c ctx name := by
  obtain ⟨p, rest, rfl⟩ := memberName_func_iff.mp h
  have hfirst := (declare_first_iff hissued).mpr
    (lastPosition_zero_iff.mpr ⟨rest, rfl, (List.nodup_cons.mp hparams).1⟩)
  refine ⟨List.range' (ctx.next + 1) rest.length, ?_⟩
  rw [result_func]
  show (functionTranslate (p :: rest) _
    (fun inner => (Expr.field (.param p) name).translate c inner) _).1 = _
  have hbody : ∀ m, (Expr.field (.param p) name).translate c
      ((Environment.ofScope ctx.scope).declare (p :: rest) ctx.next) m
        = (.ok (.node .getField [.variableRef ctx.next, .text name]), m) := by
    intro m
    rw [Expr.translate, Expr.translate, Environment.reference, hfirst]
    rfl
  rw [functionTranslate,
    bind_of_ok (rfl : take (p :: rest).length ctx.next = _),
    bind_of_ok (hbody _)]
  rfl

/-- Whoever reads a member of the own first row takes the shortcut.  Other
    parameters have other numbers, and as far as `2 ^ 53` these are other
    numbers on the wire. -/
theorem memberName_of_readsOwn (hissued : ctx.Issued)
    (hfew : ctx.next < 2 ^ 53) (h : f.ReadsOwn c ctx name) :
    f.memberName? = some name := by
  obtain ⟨rest, hresult⟩ := h
  rw [result_func] at hresult
  obtain ⟨body, hbody, hterm⟩ := function_of_ok hresult
  have hmember : body
      = .node .getField [.variableRef ctx.next, .text name] := by
    injection hterm with _ hargs _
    exact (List.cons.inj (List.cons.inj hargs).2).1.symm
  rw [hmember] at hbody
  -- Read from the top, the body is a member, and its target a parameter.
  obtain ⟨target, hfield, htarget⟩ := field_of_gives hbody
  obtain ⟨p, i, rfl, hi, hnumber⟩ := param_of_gives htarget
  -- All that is known of the parameter is the double of its number.
  cases number_inj hfew hnumber
  obtain ⟨others, hparams, -⟩ :=
    lastPosition_zero_iff.mp ((declare_first_iff hissued).mp hi)
  exact memberName_func_iff.mpr ⟨p, others, by rw [← hparams, ← hfield]⟩

/-! ## Sort keys, reductions and joins -/

variable {row : RowFunc}

/-- A sort key is a bare name exactly when the shortcut is taken. -/
theorem bare_iff_memberName {direction : Direction} :
    ((SortKey.mk row direction).walk c ctx).result
        = .ok (direction.term (.text name)) ↔
      row.toFunc.memberName? = some name := by
  rw [← node_direction, SortKey.walk, bind_result_iff]
  cases hname : row.toFunc.memberName? with
  | some other =>
      constructor
      · rintro ⟨key, ⟨⟩, ⟨⟩⟩
        rfl
      · rintro ⟨⟩
        exact ⟨_, rfl, rfl⟩
  | none =>
      -- Without a name the key is a function, which is no leaf.
      constructor
      · rintro ⟨key, hkey, ⟨⟩⟩
        replace hkey : (row.walk c ctx).result = .ok (.text name) := hkey
        rw [rowFunc_walk, result_func] at hkey
        obtain ⟨body, -, hterm⟩ := function_of_ok hkey
        cases hterm
      · rintro ⟨⟩

/-- A selector is accepted exactly when the shortcut is taken. -/
theorem accepted_iff_memberName (use : SelectorUse) :
    (∃ t, (row.member use ctx).result = .ok t) ↔
      ∃ name, row.toFunc.memberName? = some name := by
  rw [RowFunc.member]
  cases row.toFunc.memberName? with
  | some name => exact ⟨fun _ => ⟨name, rfl⟩, fun _ => ⟨_, rfl⟩⟩
  | none =>
      constructor
      · rintro ⟨t, ⟨⟩⟩
      · rintro ⟨name, ⟨⟩⟩

theorem nodup_rowFunc (f : RowFunc) : f.toFunc.params.Nodup := by
  cases f
  exact List.nodup_cons.mpr ⟨List.not_mem_nil, .nil⟩

/-- What is made of a result can be made whenever there is one. -/
theorem result_map_iff {α β : Type} {x : Walk α} {g : α → β} :
    (∃ b, ((x >>= fun a => pure (g a)) ctx).result = .ok b) ↔
      ∃ a, (x ctx).result = .ok a := by
  simp only [bind_result_iff]
  constructor
  · rintro ⟨b, a, ha, -⟩
    exact ⟨a, ha⟩
  · rintro ⟨a, ha⟩
    exact ⟨_, a, ha, rfl⟩

/-- Selectors are not walked. -/
theorem context_member (use : SelectorUse) :
    (row.member use ctx).context = ctx := by
  rw [RowFunc.member]
  cases row.toFunc.memberName? with
  | some name => rfl
  | none => rfl

/-- A join by a member has a term when its sides do and its selector is
    accepted. -/
theorem eqJoin_ok_iff {left right : Query} {index : Option String} :
    (∃ t, ((Query.eqJoin left row right index).walk c ctx).result = .ok t) ↔
      (∃ t, (left.walk c ctx).result = .ok t) ∧
        (∃ name, row.toFunc.memberName? = some name) ∧
        ∃ t, (right.walk c (left.walk c ctx).context).result = .ok t := by
  rw [← accepted_iff_memberName .eqJoin, Query.walk]
  simp only [bind_result_iff, context_member]
  constructor
  · rintro ⟨_, l, hl, m, hm, r, hr, -⟩
    exact ⟨⟨l, hl⟩, ⟨m, hm⟩, r, hr⟩
  · rintro ⟨⟨l, hl⟩, ⟨m, hm⟩, r, hr⟩
    exact ⟨_, l, hl, m, hm, r, hr, _, rfl, rfl⟩

/-- A member of anything but the own row is not a shortcut. -/
theorem memberName_foreign {own : Param} {target : Expr} (member : String)
    (h : target ≠ .param own) :
    (RowFunc.mk own (.field target member)).toFunc.memberName? = none := by
  cases hname :
      (RowFunc.mk own (.field target member)).toFunc.memberName? with
  | none => rfl
  | some name =>
      obtain ⟨_, ⟨⟩⟩ := memberName_iff.mp hname
      exact absurd rfl h

/-- **The shortcut and the translation agree.**  In every context whose
    numbers in scope were handed out before, a function whose parameters
    are different takes the shortcut exactly when its term reads one member
    of its own first row.  So sort keys are bare names, and sums, averages
    and joins by a member accept a selector, exactly when the term of the
    function would read one member of its own row.  A member of anything
    else, such as the row of a function around it, a subquery or another
    member, is never a bare name, and is refused where a name is needed.

    Numbers are doubles on the wire, which are told apart up to
    `2 ^ 53`. -/
theorem shortcut_agrees (c : Converter) (ctx : Context)
    (hissued : ctx.Issued) (hfew : ctx.next < 2 ^ 53) :
    (∀ (f : Func) (name : String), f.params.Nodup →
      (f.memberName? = some name ↔ f.ReadsOwn c ctx name)) ∧
    (∀ (f : RowFunc) (direction : Direction) (name : String),
      ((SortKey.mk f direction).walk c ctx).result
          = .ok (direction.term (.text name)) ↔
        f.toFunc.ReadsOwn c ctx name) ∧
    (∀ f : RowFunc, (∃ t, ((Reduction.sum f).walk ctx).result = .ok t) ↔
      ∃ name, f.toFunc.ReadsOwn c ctx name) ∧
    (∀ f : RowFunc, (∃ t, ((Reduction.average f).walk ctx).result = .ok t) ↔
      ∃ name, f.toFunc.ReadsOwn c ctx name) ∧
    (∀ (left right : Query) (f : RowFunc) (index : Option String),
      (∃ t, ((Query.eqJoin left f right index).walk c ctx).result = .ok t) ↔
        (∃ t, (left.walk c ctx).result = .ok t) ∧
          (∃ name, f.toFunc.ReadsOwn c ctx name) ∧
          ∃ t, (right.walk c (left.walk c ctx).context).result = .ok t) ∧
    ∀ (anywhere : Context) (row : Param) (target : Expr) (member : String),
      target ≠ .param row →
        (∀ (direction : Direction) (name : String),
          ((SortKey.mk (.mk row (.field target member)) direction).walk c
              anywhere).result
            ≠ .ok (direction.term (.text name))) ∧
        ∀ use : SelectorUse,
          ((RowFunc.mk row (.field target member)).member use
              anywhere).result
            = .error (.unsupported (.notMember use .member)) := by
  have hshortcut : ∀ (f : Func) (name : String), f.params.Nodup →
      (f.memberName? = some name ↔ f.ReadsOwn c ctx name) :=
    fun f name hparams => ⟨readsOwn_of_memberName hissued hparams,
      memberName_of_readsOwn hissued hfew⟩
  have hrow : ∀ (f : RowFunc) (name : String),
      f.toFunc.memberName? = some name ↔ f.toFunc.ReadsOwn c ctx name :=
    fun f name => hshortcut f.toFunc name (nodup_rowFunc f)
  refine ⟨hshortcut, ?_, ?_, ?_, ?_, ?_⟩
  · intro f direction name
    rw [bare_iff_memberName, hrow]
  · intro f
    rw [Reduction.walk, result_map_iff, accepted_iff_memberName]
    exact exists_congr (hrow f)
  · intro f
    rw [Reduction.walk, result_map_iff, accepted_iff_memberName]
    exact exists_congr (hrow f)
  · intro left right f index
    rw [eqJoin_ok_iff]
    exact and_congr_right' (and_congr_left' (exists_congr (hrow f)))
  · intro anywhere row target member htarget
    have hnone := memberName_foreign member htarget
    refine ⟨fun direction name hbare => ?_, fun use => ?_⟩
    · rw [bare_iff_memberName, hnone] at hbare
      cases hbare
    · rw [RowFunc.member, hnone]
      rfl

theorem shortcut_agrees_insideFunction :
    (Func.mk [⟨5⟩, ⟨6⟩] (.field (.param ⟨5⟩) "age")).ReadsOwn
        (.standard .strict) (Context.fresh.enter [⟨7⟩]) "age" ∧
      ¬ (Func.mk [⟨5⟩, ⟨6⟩] (.field (.param ⟨7⟩) "age")).ReadsOwn
        (.standard .strict) (Context.fresh.enter [⟨7⟩]) "age" ∧
      ((RowFunc.mk ⟨5⟩ (.field (.param ⟨7⟩) "age")).member .sum
          (Context.fresh.enter [⟨7⟩])).result
        = .error (.unsupported (.notMember .sum .member)) := by
  have hissued : (Context.fresh.enter [⟨7⟩]).Issued :=
    issued_of_reached (c := .standard .strict) (.enter _ .start)
  obtain ⟨hshortcut, -, -, -, -, hforeign⟩ :=
    shortcut_agrees (.standard .strict) _ hissued (by decide)
  refine ⟨(hshortcut _ _ (by decide)).mp rfl, fun hreads => ?_,
    (hforeign _ ⟨5⟩ (.param ⟨7⟩) "age" nofun).2 .sum⟩
  cases (hshortcut _ _ (by decide)).mpr hreads

/-- From `2 ^ 53` on they no longer agree, under every converter: the
    doubles of `2 ^ 53` and of the next number are the same, so a member of
    a second parameter reads like one of the first. -/
theorem shortcut_differs_beyond (c : Converter) :
    (Func.mk [⟨0⟩, ⟨1⟩] (.field (.param ⟨1⟩) "age")).memberName? = none ∧
      (Func.mk [⟨0⟩, ⟨1⟩] (.field (.param ⟨1⟩) "age")).ReadsOwn c
        ⟨2 ^ 53, []⟩ "age" := by
  refine ⟨rfl, [2 ^ 53 + 1], ?_⟩
  have hdouble : Binary64.ofNat (2 ^ 53) = Binary64.ofNat (2 ^ 53 + 1) := by
    decide
  -- The number is only named, so that no step computes up to it.
  generalize 2 ^ 53 = n at hdouble
  have hnumber : Term.number n = Term.number (n + 1) :=
    congrArg (fun x => Term.datum (.number x)) hdouble
  rw [hnumber]
  rfl

end ChainQuery
