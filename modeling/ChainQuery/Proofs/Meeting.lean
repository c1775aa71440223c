import ChainQuery.Proofs.Alike
import ChainQuery.Proofs.Assembly
import ChainQuery.Proofs.Numbering
import ChainQuery.Proofs.Same

/-! # Meeting — parts with equal terms

    Two parts meet when they have equal terms, each in an environment of
    its own.  The environments are linked: they declare corresponding
    parameters, under numbers that are equal where they correspond and
    different where they do not.  The route:

    * parts of equal nodes meet (`meets_assembled`, `meets_members`);
    * bodies of equal functions meet, with the parameters of the functions
      in corresponding places (`meets_function`);
    * parameters that meet resolve to corresponding declarations
      (`meets_param`), since no other declaration has that number. -/

namespace ChainQuery

open Term Translation

/-! ## Linked environments -/

/-- Environments that were entered side by side: corresponding parameters
    have equal numbers.  The numbers are those of the first environment,
    innermost first. -/
inductive Linked :
    Renaming → Environment → Environment → List Binary64 → Prop where
  | outside {env env'} : (∀ p, env p = none) → (∀ p, env' p = none) →
      Linked [] env env' []
  | inside {ren env env' around p q i j} : Linked ren env env' around →
      (Binary64.ofNat i).same (Binary64.ofNat j) = true →
      Linked ((p, q) :: ren) (env.declare [p] i) (env'.declare [q] j)
        (Binary64.ofNat i :: around)

variable {c : Converter} {ren : Renaming} {env env' : Environment}
  {around : List Binary64}

theorem declare_one (env : Environment) (p x : Param) (i : Nat) :
    env.declare [p] i x = if p = x then some i else env x := by
  rw [Environment.declare, lastPosition?, lastPosition?]
  by_cases h : p = x
  · rw [if_pos h, if_pos h]
    rfl
  · rw [if_neg h, if_neg h]

/-- Parameters are declared one after another, a later one inside. -/
theorem declare_cons (env : Environment) (p : Param) (ps : List Param)
    (i : Nat) :
    env.declare (p :: ps) i = (env.declare [p] i).declare ps (i + 1) := by
  funext x
  rw [Environment.declare, Environment.declare, declare_one, lastPosition?]
  cases lastPosition? x ps with
  | some k =>
      show some (i + (k + 1)) = some (i + 1 + k)
      rw [Nat.add_assoc, Nat.add_comm 1 k]
  | none =>
      by_cases h : p = x
      · simp only [if_pos h, Nat.add_zero]
      · simp only [if_neg h]

/-- Entering functions of equal numbers links what is inside. -/
theorem linked_declare {ps qs : List Param} {i j : Nat}
    (h : Linked ren env env' around)
    (hnum : List.Forall₂
      (fun m n => (Binary64.ofNat m).same (Binary64.ofNat n) = true)
      (List.range' i ps.length) (List.range' j qs.length)) :
    Linked ((ps.zip qs).reverse ++ ren) (env.declare ps i)
      (env'.declare qs j)
      (((List.range' i ps.length).map Binary64.ofNat).reverse ++ around) := by
  induction ps generalizing qs ren env env' around i j with
  | nil =>
      cases qs with
      | nil => exact h
      | cons q qs => cases hnum
  | cons p ps ih =>
      cases qs with
      | nil => cases hnum
      | cons q qs =>
          rw [List.length_cons, List.length_cons, List.range'_succ,
            List.range'_succ, List.forall₂_cons] at hnum
          have hin := ih (.inside (p := p) (q := q) h hnum.1) hnum.2
          rw [declare_cons env, declare_cons env']
          simpa [List.range'_succ] using hin

/-- The number of a parameter is among those around. -/
theorem linked_left {p : Param} {i : Nat} (h : Linked ren env env' around)
    (hp : env p = some i) : Binary64.ofNat i ∈ around := by
  induction h with
  | outside hnone =>
      rw [hnone p] at hp
      cases hp
  | @inside ren env env' around p' q' i' j' hlink hsame ih =>
      rw [declare_one] at hp
      by_cases hpp : p' = p
      · rw [if_pos hpp] at hp
        cases hp
        exact List.mem_cons_self
      · rw [if_neg hpp] at hp
        exact List.mem_cons_of_mem _ (ih hp)

/-- The number of a parameter in the second environment equals one of
    those around. -/
theorem linked_right {q : Param} {j : Nat} (h : Linked ren env env' around)
    (hq : env' q = some j) :
    ∃ x ∈ around, x.same (Binary64.ofNat j) = true := by
  induction h with
  | outside hnone hnone' =>
      rw [hnone' q] at hq
      cases hq
  | @inside ren env env' around p' q' i' j' hlink hsame ih =>
      rw [declare_one] at hq
      by_cases hqq : q' = q
      · rw [if_pos hqq] at hq
        cases hq
        exact ⟨_, List.mem_cons_self, hsame⟩
      · rw [if_neg hqq] at hq
        obtain ⟨x, hx, hxj⟩ := ih hq
        exact ⟨x, List.mem_cons_of_mem _ hx, hxj⟩

/-- Parameters with equal numbers resolve to corresponding declarations:
    where only one of them resolved to the innermost, its number would be
    around twice. -/
theorem corresponds_of_same {p q : Param} {i j : Nat}
    (h : Linked ren env env' around) (hapart : Apart around)
    (hp : env p = some i) (hq : env' q = some j)
    (hij : (Binary64.ofNat i).same (Binary64.ofNat j) = true) :
    Corresponds ren p q := by
  induction h with
  | outside hnone =>
      rw [hnone p] at hp
      cases hp
  | @inside ren env env' around p' q' i' j' hlink hsame ih =>
      obtain ⟨hhead, htail⟩ := List.pairwise_cons.mp hapart
      rw [declare_one] at hp hq
      by_cases hpp : p' = p
      · rw [if_pos hpp] at hp
        cases hp
        by_cases hqq : q' = q
        · subst hpp hqq
          exact .here
        · -- `p` is declared here and `q` further out.
          rw [if_neg hqq] at hq
          obtain ⟨x, hx, hxj⟩ := linked_right hlink hq
          have hix := Binary64.same_trans hij (Binary64.same_symm hxj)
          rw [hhead x hx] at hix
          cases hix
      · rw [if_neg hpp] at hp
        by_cases hqq : q' = q
        · -- `q` is declared here and `p` further out.
          rw [if_pos hqq] at hq
          cases hq
          have hi := Binary64.same_trans hsame (Binary64.same_symm hij)
          rw [hhead _ (linked_left hlink hp)] at hi
          cases hi
        · rw [if_neg hqq] at hq
          exact .outer (Ne.symm hpp) (Ne.symm hqq) (ih htail hp hq)

/-! ## Parts that meet -/

/-- Parts with equal terms in linked environments.  The numbers that the
    first term declares differ from each other and from those around. -/
def Meets (ren : Renaming) (x y : Part) : Prop :=
  ∃ env env' around t u, Linked ren env env' around ∧
    Gives (x env) t ∧ Gives (y env') u ∧ t.same u = true ∧
    Apart (around ++ t.declared)

/-- What is apart remains so when some of it is left out. -/
theorem apart_sublist {xs ys : List Binary64} (h : xs.Sublist ys)
    (hys : Apart ys) : Apart xs :=
  List.Pairwise.sublist h hys

theorem meets_args {xs ys : List Part} {ts us : List Term}
    (hlink : Linked ren env env' around) (hxs : PartsGive env xs ts)
    (hys : PartsGive env' ys us)
    (hsame : List.Forall₂ (fun t u => t.same u = true) ts us)
    (hapart : Apart (around ++ declaredArgs ts)) :
    List.Forall₂ (Meets ren) xs ys := by
  induction hsame generalizing xs ys with
  | nil =>
      cases hxs
      cases hys
      exact .nil
  | @cons t u ts us ht hts ih =>
      rcases hxs with - | ⟨hx, hxs⟩
      rcases hys with - | ⟨hy, hys⟩
      rw [declaredArgs] at hapart
      have hhead : Apart (around ++ t.declared) :=
        apart_sublist ((List.sublist_append_left _ _).append_left _) hapart
      have htail : Apart (around ++ declaredArgs ts) :=
        apart_sublist ((List.sublist_append_right _ _).append_left _) hapart
      exact .cons ⟨env, env', around, t, u, hlink, hx, hy, ht, hhead⟩
        (ih hxs hys htail)

/-- Named parts of the same names that meet one by one. -/
def NamedMeet (ren : Renaming) (xs ys : List (String × Part)) : Prop :=
  List.Forall₂ (fun m n => m.1 = n.1 ∧ Meets ren m.2 n.2) xs ys

theorem meets_named {xs ys : List (String × Part)}
    {ts us : List (String × Term)} (hlink : Linked ren env env' around)
    (hxs : NamedGive env xs ts) (hys : NamedGive env' ys us)
    (hsame : List.Forall₂
      (fun e f => e.1 = f.1 ∧ e.2.same f.2 = true) ts us)
    (hapart : Apart (around ++ declaredNamed ts)) : NamedMeet ren xs ys := by
  induction hsame generalizing xs ys with
  | nil =>
      cases hxs
      cases hys
      exact .nil
  | @cons t u ts us ht hts ih =>
      rcases hxs with - | ⟨⟨hname, hx⟩, hxs⟩
      rcases hys with - | ⟨⟨hname', hy⟩, hys⟩
      obtain ⟨k, t⟩ := t
      rw [declaredNamed] at hapart
      have hhead : Apart (around ++ t.declared) :=
        apart_sublist ((List.sublist_append_left _ _).append_left _) hapart
      have htail : Apart (around ++ declaredNamed ts) :=
        apart_sublist ((List.sublist_append_right _ _).append_left _) hapart
      refine .cons ⟨hname.trans (ht.1.trans hname'.symm), ?_⟩
        (ih hxs hys htail)
      exact ⟨env, env', around, t, u.2, hlink, hx, hy, ht.2, hhead⟩

/-- Nodes that meet are of one kind, and their parts meet. -/
theorem meets_assembled {kind kind' : Kind} {xs ys : List Part}
    {ms ns : List (String × Part)} {x y : Part} (hk : kind.Ordinary)
    (hx : Assembled kind xs ms x) (hy : Assembled kind' ys ns y)
    (h : Meets ren x y) :
    kind = kind' ∧ List.Forall₂ (Meets ren) xs ys ∧ NamedMeet ren ms ns := by
  obtain ⟨env, env', around, t, u, hlink, ht, hu, hsame, hapart⟩ := h
  obtain ⟨args, optargs, rfl, hargs, hnamed⟩ := hx env t ht
  obtain ⟨args', optargs', rfl, hargs', hnamed'⟩ := hy env' u hu
  obtain ⟨⟨hkind, hall⟩, hopt⟩ := same_apply.mp hsame
  rw [declared_ordinary hk] at hapart
  refine ⟨hkind, ?_, ?_⟩
  · refine meets_args hlink hargs hargs' hall (apart_sublist ?_ hapart)
    exact (List.sublist_append_left _ _).append_left _
  · refine meets_named hlink hnamed hnamed' hopt (apart_sublist ?_ hapart)
    exact (List.sublist_append_right _ _).append_left _

/-- Members of objects that meet can be put in an order in which they meet
    one by one. -/
theorem meets_members {ms ns : List (String × Expr)}
    (h : Meets ren (Expr.part c (.object ms)) (Expr.part c (.object ns))) :
    ∃ ms' : List (String × Expr), ms'.Perm ns ∧
      List.Forall₂ (fun m n => m.1 = n.1 ∧
        Meets ren (m.2.part c) (n.2.part c)) ms ms' := by
  obtain ⟨env, env', around, t, u, hlink, ht, hu, hsame, hapart⟩ := h
  obtain ⟨out, ts, rfl, hout, hts⟩ := gives_object c ht
  obtain ⟨out', us, rfl, hout', hus⟩ := gives_object c hu
  obtain ⟨-, hopt⟩ := same_apply.mp hsame
  -- First pair the terms of `ms` as written with those of the other object,
  obtain ⟨mid, hmid, hmidPerm⟩ := List.perm_comp_forall₂ hout.symm hopt
  -- then the members of the other object with these.
  rw [NamedGive, List.forall₂_map_left_iff] at hus
  obtain ⟨ms', hms', hperm⟩ :=
    List.perm_comp_forall₂ (hmidPerm.trans hout') hus.flip
  refine ⟨ms', hperm, ?_⟩
  have hgive : NamedGive env' (ms'.map fun n => (n.1, n.2.part c)) mid :=
    List.forall₂_map_left_iff.mpr hms'.flip
  have hmeet : NamedMeet ren (ms.map fun m => (m.1, m.2.part c))
      (ms'.map fun n => (n.1, n.2.part c)) := by
    refine meets_named hlink hts hgive hmid ?_
    rw [declared_ordinary (by decide)] at hapart
    refine apart_perm ?_ hapart
    exact (declaredNamed_perm hout).append_left around
  rw [NamedMeet, List.forall₂_map_left_iff,
    List.forall₂_map_right_iff] at hmeet
  exact hmeet

/-- Functions that meet have as many parameters, and bodies that meet
    inside. -/
theorem meets_function {f g : Func}
    (h : Meets ren (f.part c) (g.part c)) :
    f.params.length = g.params.length ∧
      Meets ((f.params.zip g.params).reverse ++ ren) (f.body.part c)
        (g.body.part c) := by
  obtain ⟨env, env', around, t, u, hlink, ht, hu, hsame, hapart⟩ := h
  obtain ⟨i, body, hbody, rfl⟩ := gives_function ht
  obtain ⟨j, body', hbody', rfl⟩ := gives_function hu
  obtain ⟨⟨-, hargs⟩, -⟩ := same_apply.mp hsame
  rw [List.forall₂_cons, List.forall₂_cons] at hargs
  obtain ⟨hids, hbodies, -⟩ := hargs
  have hnum : List.Forall₂
      (fun m n => (Binary64.ofNat m).same (Binary64.ofNat n) = true)
      (List.range' i f.params.length) (List.range' j g.params.length) := by
    obtain ⟨⟨-, hnums⟩, -⟩ := same_apply.mp hids
    rw [List.forall₂_map_left_iff, List.forall₂_map_right_iff] at hnums
    exact hnums
  refine ⟨by simpa using hnum.length_eq, ?_⟩
  refine ⟨_, _, _, body, body', linked_declare hlink hnum, hbody, hbody',
    hbodies, apart_perm ?_ hapart⟩
  -- What the function lists moves from its term to what is around.
  rw [declared_function, ← List.append_assoc]
  refine List.Perm.append_right _ ?_
  exact List.perm_append_comm.trans
    ((List.reverse_perm _).symm.append_right around)

/-! ## Leaves and parameters that meet -/

theorem meets_const {t u : Term}
    (h : Meets ren (.const t) (.const u)) : t.same u = true := by
  obtain ⟨env, env', around, t', u', -, ht, hu, hsame, -⟩ := h
  cases gives_pure ht
  cases gives_pure hu
  exact hsame

theorem meets_result {r r' : Except TermError Term}
    (h : Meets ren (.result r) (.result r')) :
    ∃ t u, r = .ok t ∧ r' = .ok u ∧ t.same u = true := by
  obtain ⟨env, env', around, t, u, -, ht, hu, hsame, -⟩ := h
  exact ⟨t, u, gives_ofExcept ht, gives_ofExcept hu, hsame⟩

/-- Literals with equal leaves are alike. -/
theorem alike_of_judge {v w : Value} {t u : Term}
    (hv : c.judge v = .ok t) (hw : c.judge w = .ok u)
    (h : t.same u = true) : c.Alike v w := by
  obtain ⟨d, hd, rfl⟩ := judge_leaf hv
  obtain ⟨e, he, rfl⟩ := judge_leaf hw
  exact ⟨d, e, hd, he, h⟩

/-- Literals with equal leaves one by one are alike one by one. -/
theorem alike_of_judgeAll {vs ws : List Value} {ts us : List Term}
    (hvs : c.judgeAll vs = .ok ts) (hws : c.judgeAll ws = .ok us)
    (h : List.Forall₂ (fun t u => t.same u = true) ts us) :
    List.Forall₂ c.Alike vs ws := by
  replace hvs := judgeAll_ok hvs
  replace hws := judgeAll_ok hws
  induction h generalizing vs ws with
  | nil =>
      cases hvs
      cases hws
      exact .nil
  | cons hhead htail ih =>
      rcases hvs with - | ⟨hv, hvs⟩
      rcases hws with - | ⟨hw, hws⟩
      exact .cons (alike_of_judge hv hw hhead) (ih hvs hws)

theorem meets_literal {v w : Value}
    (h : Meets ren (.literal c v) (.literal c w)) : c.Alike v w := by
  obtain ⟨t, u, hv, hw, hsame⟩ := meets_result h
  exact alike_of_judge hv hw hsame

theorem meets_literals {vs ws : List Value}
    (h : List.Forall₂ (Meets ren) (vs.map (.literal c))
      (ws.map (.literal c))) : List.Forall₂ c.Alike vs ws := by
  rw [List.forall₂_map_left_iff, List.forall₂_map_right_iff] at h
  exact h.imp fun _ _ => meets_literal

theorem meets_base {base base' : Option Value}
    (h : NamedMeet ren (basePart c base) (basePart c base')) :
    Option.Rel c.Alike base base' := by
  cases base with
  | none =>
      cases base' with
      | none => exact .none
      | some w => cases h
  | some v =>
      cases base' with
      | none => cases h
      | some w =>
          rcases h with - | ⟨⟨-, hmeet⟩, -⟩
          exact .some (meets_literal hmeet)

/-- Names and flags that meet are equal one by one. -/
theorem meets_constParts {es fs : List (String × Term)}
    (h : NamedMeet ren (constParts es) (constParts fs)) :
    List.Forall₂ (fun e f => e.1 = f.1 ∧ e.2.same f.2 = true) es fs := by
  rw [NamedMeet, constParts, constParts, List.forall₂_map_left_iff,
    List.forall₂_map_right_iff] at h
  exact h.imp fun _ _ hmeet => ⟨hmeet.1, meets_const hmeet.2⟩

theorem gives_param {p : Param} {t : Term}
    (h : Gives (Expr.part c (.param p) env) t) :
    ∃ i, env p = some i ∧ t = .variableRef i := by
  replace h : Gives (env.reference p) t := h
  rw [Environment.reference] at h
  cases hp : env p with
  | none =>
      rw [hp] at h
      exact (gives_fail h).elim
  | some i =>
      rw [hp] at h
      exact ⟨i, rfl, gives_pure h⟩

/-- Parameters that meet correspond. -/
theorem meets_param {p q : Param}
    (h : Meets ren (Expr.part c (.param p)) (Expr.part c (.param q))) :
    Corresponds ren p q := by
  obtain ⟨env, env', around, t, u, hlink, ht, hu, hsame, hapart⟩ := h
  obtain ⟨i, hi, rfl⟩ := gives_param ht
  obtain ⟨j, hj, rfl⟩ := gives_param hu
  obtain ⟨⟨-, hargs⟩, -⟩ := same_apply.mp hsame
  rw [List.forall₂_cons] at hargs
  refine corresponds_of_same hlink ?_ hi hj hargs.1
  exact apart_sublist (List.sublist_append_left _ _) hapart

/-- The kinds of terms of parts that meet are equal. -/
theorem meets_kind {x y : Part} {kind kind' : Kind} (h : Meets ren x y)
    (hx : ∀ env t, Gives (x env) t → t.kind = kind)
    (hy : ∀ env t, Gives (y env) t → t.kind = kind') : kind = kind' := by
  obtain ⟨env, env', around, t, u, -, ht, hu, hsame, -⟩ := h
  rw [← hx env t ht, ← hy env' u hu]
  exact kind_of_same hsame

end ChainQuery
