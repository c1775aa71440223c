import ChainQuery.Proofs.Forms

/-! # Faithfulness — equal terms come from like chains

    Generation loses nothing but what likeness leaves open.  The route:

    * `Expr.Faithful` and `Query.Faithful` say of one side that it is
      alike to whatever it meets;
    * what an expression meets is of its own form once it is said plainly
      (`faithful_of_form`), and what a chain meets is of its form;
    * nodes of one form that meet have parts that meet, so faithfulness
      passes from the parts to the node (`faithful_hereditary`).

    A chain inside an expression may meet an expression that is not a
    subquery, so what is passed on for chains is faithfulness in both
    places. -/

namespace ChainQuery

open Term Translation

variable {c : Converter} {ren : Renaming}

/-- An expression that is alike to every expression it meets. -/
def Expr.Faithful (c : Converter) (e : Expr) : Prop :=
  ∀ ren f, Meets ren (e.part c) (f.part c) → Expr.Alike c ren e f

/-- A chain that is alike to every chain it meets. -/
def Query.Faithful (c : Converter) (q : Query) : Prop :=
  ∀ ren r, Meets ren (q.part c) (r.part c) → Query.Alike c ren q r

/-- A chain that is faithful by itself and inside expressions. -/
def Query.FaithfulAnywhere (c : Converter) (q : Query) : Prop :=
  q.Faithful c ∧ ∀ i, (Expr.subquery i q).Faithful c

/-! ## Plain expressions -/

/-- An expression is faithful when what it says plainly is. -/
theorem faithful_of_plain {e : Expr} (h : e.plain.Faithful c) :
    e.Faithful c := by
  intro ren f hmeet
  rw [← part_plain c e] at hmeet
  exact alike_plain_left (h ren f hmeet)

/-- Of a plain expression only the meetings with expressions of its own
    form have to be considered. -/
theorem faithful_of_form {e : Expr} (hplain : e.plain = e)
    (h : ∀ ren f, f.form = e.form → Meets ren (e.part c) (f.part c) →
      Expr.Alike c ren e f) : e.Faithful c := by
  intro ren f hmeet
  have hform := meets_expr_form hmeet
  rw [hplain] at hform
  rw [← part_plain c f] at hmeet
  exact alike_plain_right (h ren f.plain hform.symm hmeet)

/-- A chain that no expression can say directly is faithful inside
    expressions when it is by itself. -/
theorem faithful_anywhere {q : Query}
    (hplain : ∀ i, (Expr.subquery i q).plain = .subquery i q)
    (h : q.Faithful c) : q.FaithfulAnywhere c := by
  refine ⟨h, fun i => ?_⟩
  refine faithful_of_form (hplain i) fun ren f hform hmeet => ?_
  cases f with
  | subquery j r => exact .subquery (h ren r hmeet)
  | _ => cases hform

/-! ## Lists -/

theorem alike_items {es fs : List Expr} (h : ∀ e ∈ es, e.Faithful c)
    (hmeet : List.Forall₂ (Meets ren) (es.map (Expr.part c))
      (fs.map (Expr.part c))) : ItemsAlike c ren es fs := by
  rw [List.forall₂_map_left_iff, List.forall₂_map_right_iff] at hmeet
  induction hmeet with
  | nil => exact .nil
  | cons hhead _ ih =>
      obtain ⟨he, hes⟩ := List.forall_mem_cons.mp h
      exact .cons (he _ _ hhead) (ih hes)

theorem alike_members {ms ns : List (String × Expr)}
    (h : ∀ m ∈ ms, m.2.Faithful c)
    (hmeet : List.Forall₂ (fun m n => m.1 = n.1 ∧
      Meets ren (m.2.part c) (n.2.part c)) ms ns) :
    MembersAlike c ren ms ns := by
  induction hmeet with
  | nil => exact .nil
  | @cons m n ms ns hhead _ ih =>
      obtain ⟨name, e⟩ := m
      obtain ⟨name', f⟩ := n
      obtain ⟨he, hms⟩ := List.forall_mem_cons.mp h
      obtain ⟨hname, hmeet⟩ := hhead
      replace hname : name = name' := hname
      subst hname
      exact .cons (he _ _ hmeet) (ih hms)

theorem alike_func {f g : Func} (h : f.body.Faithful c)
    (hmeet : Meets ren (f.part c) (g.part c)) : Func.Alike c ren f g := by
  obtain ⟨hlen, hbody⟩ := meets_function hmeet
  exact .mk hlen (h _ _ hbody)

/-- Selectors of the same member are alike as functions. -/
theorem alike_sameMember {f g : RowFunc} (h : f.SameMember g) :
    Func.Alike c ren f.toFunc g.toFunc := by
  obtain ⟨row, row', name, rfl, rfl⟩ := h
  exact .mk rfl (.field (.param .here))

/-- What keys sort by is alike: a name is a member, and never meets a
    function. -/
theorem alike_keyPart {f g : RowFunc} (h : f.toFunc.body.Faithful c)
    (hmeet : Meets ren (f.keyPart c) (g.keyPart c)) :
    Func.Alike c ren f.toFunc g.toFunc := by
  have hnamed : ∀ {f : RowFunc} {name : String},
      f.toFunc.memberName? = some name →
        f.keyPart c = .const (.text name) := by
    intro f name hname
    funext env
    show nameOrTranslate f.toFunc.memberName? _ = _
    rw [hname]
    rfl
  have hother : ∀ {f : RowFunc}, f.toFunc.memberName? = none →
      f.keyPart c = f.toFunc.part c := by
    intro f hname
    funext env
    show nameOrTranslate f.toFunc.memberName? _ = _
    rw [hname]
    exact rowFunc_translate c env f
  have htext : ∀ (s : String) (env : Environment) (t : Term),
      Gives (Part.const (.text s) env) t → t.kind = .datum := by
    intro s env t ht
    cases gives_pure ht
    rfl
  have hfunc : ∀ (f : Func) (env : Environment) (t : Term),
      Gives (f.part c env) t → t.kind = .func := by
    intro f env t ht
    obtain ⟨first, body, -, rfl⟩ := gives_function ht
    rfl
  -- Two names are compared as leaves, two functions as functions, and a
  -- leaf is never of the kind of a function.
  cases hf : f.toFunc.memberName? with
  | some name =>
      rw [hnamed hf] at hmeet
      cases hg : g.toFunc.memberName? with
      | some name' =>
          rw [hnamed hg] at hmeet
          cases same_text.mp (meets_const hmeet)
          obtain ⟨row, rfl⟩ := memberName_iff.mp hf
          obtain ⟨row', rfl⟩ := memberName_iff.mp hg
          exact alike_sameMember ⟨row, row', name, rfl, rfl⟩
      | none =>
          rw [hother hg] at hmeet
          cases meets_kind hmeet (htext name) (hfunc _)
  | none =>
      rw [hother hf] at hmeet
      cases hg : g.toFunc.memberName? with
      | some name' =>
          rw [hnamed hg] at hmeet
          cases meets_kind hmeet (hfunc _) (htext name')
      | none =>
          rw [hother hg] at hmeet
          exact alike_func h hmeet

theorem alike_keys {js ks : List SortKey} (h : ∀ k ∈ js, k.body.Faithful c)
    (hmeet : List.Forall₂ (Meets ren) (js.map (SortKey.part c))
      (ks.map (SortKey.part c))) : KeysAlike c ren js ks := by
  rw [List.forall₂_map_left_iff, List.forall₂_map_right_iff] at hmeet
  induction hmeet with
  | nil => exact .nil
  | @cons j k js ks hhead _ ih =>
      obtain ⟨hj, hjs⟩ := List.forall_mem_cons.mp h
      obtain ⟨f, direction⟩ := j
      obtain ⟨g, direction'⟩ := k
      obtain ⟨hkind, hparts, -⟩ :=
        meets_assembled (ordinary_direction direction)
          (assembled_key c f direction) (assembled_key c g direction') hhead
      obtain rfl : direction = direction' := by
        cases direction <;> cases direction' <;>
          first | rfl | cases hkind
      exact .cons (alike_keyPart hj (List.forall₂_cons.mp hparts).1)
        (ih hjs)

/-! ## Expressions -/

theorem compareKind_inj {op op' : CompareOp} (h : op.kind = op'.kind) :
    op = op' := by
  cases op <;> cases op' <;> first | rfl | cases h

theorem arithKind_inj {op op' : ArithOp} (h : op.kind = op'.kind) :
    op = op' := by
  cases op <;> cases op' <;> first | rfl | cases h

theorem faithful_param (p : Param) : (Expr.param p).Faithful c := by
  refine faithful_of_form rfl fun ren f hform hmeet => ?_
  cases f with
  | param q => exact .param (meets_param hmeet)
  | _ => cases hform

theorem faithful_literal (v : Value) : (Expr.literal v).Faithful c := by
  refine faithful_of_form rfl fun ren f hform hmeet => ?_
  cases f with
  | literal w => exact .literal (meets_literal hmeet)
  | _ => cases hform

theorem faithful_field {e : Expr} (he : e.Faithful c) (name : String) :
    (Expr.field e name).Faithful c := by
  refine faithful_of_form rfl fun ren f hform hmeet => ?_
  cases f with
  | field e' name' =>
      obtain ⟨-, hparts, -⟩ := meets_assembled (by decide)
        (assembled_field c e name) (assembled_field c e' name') hmeet
      obtain ⟨hhead, hrest⟩ := List.forall₂_cons.mp hparts
      cases same_text.mp (meets_const (List.forall₂_cons.mp hrest).1)
      exact .field (he ren e' hhead)
  | _ => cases hform

theorem faithful_compare {a b : Expr} (ha : a.Faithful c)
    (hb : b.Faithful c) (op : CompareOp) :
    (Expr.compare op a b).Faithful c := by
  refine faithful_of_form rfl fun ren f hform hmeet => ?_
  cases f with
  | compare op' a' b' =>
      obtain ⟨hkind, hparts, -⟩ := meets_assembled (ordinary_compare op)
        (assembled_compare c op a b) (assembled_compare c op' a' b') hmeet
      cases compareKind_inj hkind
      obtain ⟨hleft, hrest⟩ := List.forall₂_cons.mp hparts
      exact .compare (ha ren a' hleft)
        (hb ren b' (List.forall₂_cons.mp hrest).1)
  | _ => cases hform

theorem faithful_arith {a b : Expr} (ha : a.Faithful c)
    (hb : b.Faithful c) (op : ArithOp) :
    (Expr.arith op a b).Faithful c := by
  refine faithful_of_form rfl fun ren f hform hmeet => ?_
  cases f with
  | arith op' a' b' =>
      obtain ⟨hkind, hparts, -⟩ := meets_assembled (ordinary_arith op)
        (assembled_arith c op a b) (assembled_arith c op' a' b') hmeet
      cases arithKind_inj hkind
      obtain ⟨hleft, hrest⟩ := List.forall₂_cons.mp hparts
      exact .arith (ha ren a' hleft)
        (hb ren b' (List.forall₂_cons.mp hrest).1)
  | _ => cases hform

theorem faithful_all {es : List Expr} (hes : ∀ e ∈ es, e.Faithful c) :
    (Expr.all es).Faithful c := by
  refine faithful_of_form rfl fun ren f hform hmeet => ?_
  have hall := assembled_all c es
  cases f with
  | all fs =>
      exact .all (alike_items hes
        (meets_assembled (by decide) hall (assembled_all c fs) hmeet).2.1)
  | any fs =>
      cases
        (meets_assembled (by decide) hall (assembled_any c fs) hmeet).1
  | not f =>
      cases
        (meets_assembled (by decide) hall (assembled_not c f) hmeet).1
  | _ => cases hform

theorem faithful_any {es : List Expr} (hes : ∀ e ∈ es, e.Faithful c) :
    (Expr.any es).Faithful c := by
  refine faithful_of_form rfl fun ren f hform hmeet => ?_
  have hany := assembled_any c es
  cases f with
  | any fs =>
      exact .any (alike_items hes
        (meets_assembled (by decide) hany (assembled_any c fs) hmeet).2.1)
  | all fs =>
      cases
        (meets_assembled (by decide) hany (assembled_all c fs) hmeet).1
  | not f =>
      cases
        (meets_assembled (by decide) hany (assembled_not c f) hmeet).1
  | _ => cases hform

theorem faithful_not {e : Expr} (he : e.Faithful c) :
    (Expr.not e).Faithful c := by
  refine faithful_of_form rfl fun ren f hform hmeet => ?_
  have hnot := assembled_not c e
  cases f with
  | not f =>
      obtain ⟨-, hparts, -⟩ :=
        meets_assembled (by decide) hnot (assembled_not c f) hmeet
      exact .not (he ren f (List.forall₂_cons.mp hparts).1)
  | all fs =>
      cases
        (meets_assembled (by decide) hnot (assembled_all c fs) hmeet).1
  | any fs =>
      cases
        (meets_assembled (by decide) hnot (assembled_any c fs) hmeet).1
  | _ => cases hform

theorem faithful_array {es : List Expr} (hes : ∀ e ∈ es, e.Faithful c) :
    (Expr.array es).Faithful c := by
  refine faithful_of_form rfl fun ren f hform hmeet => ?_
  cases f with
  | array fs =>
      exact .array (alike_items hes (meets_assembled (by decide)
        (assembled_array c es) (assembled_array c fs) hmeet).2.1)
  | _ => cases hform

theorem faithful_object {ms : List (String × Expr)}
    (hms : ∀ m ∈ ms, m.2.Faithful c) : (Expr.object ms).Faithful c := by
  refine faithful_of_form rfl fun ren f hform hmeet => ?_
  cases f with
  | object ns =>
      obtain ⟨ms', hperm, hall⟩ := meets_members hmeet
      exact .object hperm (alike_members hms hall)
  | _ => cases hform

theorem faithful_call {es : List Expr} (hes : ∀ e ∈ es, e.Faithful c)
    (name : String) : (Expr.call name es).Faithful c := by
  refine faithful_of_form rfl fun ren f hform hmeet => ?_
  cases f with
  | call name' fs =>
      -- No two functions of the remote engine share a kind.
      have hinj : ∀ r ∈ RemoteCall.all, ∀ r' ∈ RemoteCall.all,
          r.kind = r'.kind → r.name = r'.name := by decide
      obtain ⟨env, env', around, t, u, -, ht, hu, -, -⟩ := id hmeet
      have hjudge := call_judged c ht
      have hjudge' := call_judged c hu
      obtain ⟨hkind, hparts, -⟩ := meets_assembled (ordinary_call hjudge)
        (assembled_call c hjudge) (assembled_call c hjudge') hmeet
      obtain ⟨r, hr, rfl, -, hrkind⟩ := call_of_judge hjudge
      obtain ⟨r', hr', rfl, -, hrkind'⟩ := call_of_judge hjudge'
      rw [hinj r hr r' hr' (hrkind.trans (hkind.trans hrkind'.symm))]
      exact .call (alike_items hes hparts)
  | _ => cases hform

/-! ## Chains -/

/-- An index over a member, as a node of its parts. -/
theorem assembled_indexCreate (c : Converter) (t : Table) (name : String) :
    Assembled .indexCreate [.const t.term, .const (.text name)] []
      (Query.part c (.root (.indexCreate t name))) := by
  intro env u h
  cases gives_ofExcept h
  exact ⟨_, _, rfl,
    .cons (const_gives env _) (.cons (const_gives env _) .nil), .nil⟩

theorem faithful_root (r : Root) : (Query.root r).Faithful c := by
  intro ren q hmeet
  have hkind := meets_query_kind hmeet
  have hform := meets_query_form hmeet
  cases q with
  | root r' =>
      obtain ⟨t, u, hr, hr', hsame⟩ := meets_result hmeet
      exact .root (alike_root hr hr' hsame)
  | indexCreateWith table name key =>
      -- The only root of this kind has one argument less.
      cases r with
      | indexCreate table' name' =>
          obtain ⟨-, hparts, -⟩ := meets_assembled (by decide)
            (assembled_indexCreate c table' name')
            (assembled_indexCreateWith c table name key) hmeet
          exact absurd hparts.length_eq (by simp)
      | _ => cases hkind
  | _ => cases hform

theorem faithful_indexCreateWith {key : RowFunc}
    (hkey : key.toFunc.body.Faithful c) (table : Table) (name : String) :
    (Query.indexCreateWith table name key).Faithful c := by
  intro ren q hmeet
  have hkind := meets_query_kind hmeet
  have hform := meets_query_form hmeet
  cases q with
  | indexCreateWith table' name' key' =>
      obtain ⟨-, hparts, -⟩ := meets_assembled (by decide)
        (assembled_indexCreateWith c table name key)
        (assembled_indexCreateWith c table' name' key') hmeet
      obtain ⟨htable, hrest⟩ := List.forall₂_cons.mp hparts
      obtain ⟨hname, hlast⟩ := List.forall₂_cons.mp hrest
      cases same_table (meets_const htable)
      cases same_text.mp (meets_const hname)
      exact .indexCreateWith
        (alike_func hkey (List.forall₂_cons.mp hlast).1)
  | root r =>
      cases r with
      | indexCreate table' name' =>
          obtain ⟨-, hparts, -⟩ := meets_assembled (by decide)
            (assembled_indexCreateWith c table name key)
            (assembled_indexCreate c table' name') hmeet
          exact absurd hparts.length_eq (by simp)
      | _ => cases hkind
  | _ => cases hform

theorem faithful_step {q : Query} (hq : q.Faithful c) (s : Step) :
    (Query.step q s).Faithful c := by
  intro ren r hmeet
  have hform := meets_query_form hmeet
  cases r with
  | step r s' =>
      obtain ⟨hkind, hparts, hnames⟩ := meets_assembled (ordinary_step s)
        (assembled_step c q s) (assembled_step c r s') hmeet
      obtain ⟨hsource, hliterals⟩ := List.forall₂_cons.mp hparts
      exact .step (hq ren r hsource)
        (alike_step hkind (meets_literals hliterals)
          (meets_constParts hnames))
  | _ => cases hform

theorem faithful_rowStep {q : Query} {f : RowFunc} (hq : q.Faithful c)
    (hf : f.toFunc.body.Faithful c) (s : RowStep) :
    (Query.rowStep q s f).Faithful c := by
  intro ren r hmeet
  have hform := meets_query_form hmeet
  cases r with
  | rowStep r s' g =>
      obtain ⟨hkind, hparts, hnames⟩ := meets_assembled (ordinary_rowStep s)
        (assembled_rowStep c q s f) (assembled_rowStep c r s' g) hmeet
      cases rowStep_eq hkind (meets_constParts hnames)
      obtain ⟨hsource, hrest⟩ := List.forall₂_cons.mp hparts
      exact .rowStep (hq ren r hsource)
        (alike_func hf (List.forall₂_cons.mp hrest).1)
  | _ => cases hform

theorem faithful_orderBy {q : Query} {first : SortKey}
    {others : List SortKey} (hq : q.Faithful c)
    (hkeys : ∀ k ∈ first :: others, k.body.Faithful c) :
    (Query.orderBy q first others).Faithful c := by
  intro ren r hmeet
  have hform := meets_query_form hmeet
  cases r with
  | orderBy r first' others' =>
      obtain ⟨-, hparts, -⟩ := meets_assembled (by decide)
        (assembled_orderBy c q first others)
        (assembled_orderBy c r first' others') hmeet
      obtain ⟨hsource, hrest⟩ := List.forall₂_cons.mp hparts
      exact .orderBy (hq ren r hsource) (alike_keys hkeys hrest)
  | _ => cases hform

theorem faithful_union {a b : Query} (ha : a.Faithful c)
    (hb : b.Faithful c) : (Query.union a b).Faithful c := by
  intro ren r hmeet
  have hform := meets_query_form hmeet
  cases r with
  | union a' b' =>
      obtain ⟨-, hparts, -⟩ := meets_assembled (by decide)
        (assembled_union c a b) (assembled_union c a' b') hmeet
      obtain ⟨hfirst, hrest⟩ := List.forall₂_cons.mp hparts
      exact .union (ha ren a' hfirst)
        (hb ren b' (List.forall₂_cons.mp hrest).1)
  | _ => cases hform

theorem faithful_reduce {q : Query} {f : PairFunc} (hq : q.Faithful c)
    (hf : f.toFunc.body.Faithful c) (base : Option Value) :
    (Query.reduce q f base).Faithful c := by
  intro ren r hmeet
  have hform := meets_query_form hmeet
  cases r with
  | reduce r g base' =>
      obtain ⟨-, hparts, hbase⟩ := meets_assembled (by decide)
        (assembled_reduce c q f base) (assembled_reduce c r g base') hmeet
      obtain ⟨hsource, hrest⟩ := List.forall₂_cons.mp hparts
      exact .reduce (hq ren r hsource)
        (alike_func hf (List.forall₂_cons.mp hrest).1) (meets_base hbase)
  | _ => cases hform

theorem faithful_groupBy {q : Query} {key : RowFunc} (hq : q.Faithful c)
    (hkey : key.toFunc.body.Faithful c) (reduction : Reduction) :
    (Query.groupBy q reduction key).Faithful c := by
  intro ren r hmeet
  have hform := meets_query_form hmeet
  cases r with
  | groupBy r reduction' key' =>
      obtain ⟨-, hparts, -⟩ := meets_assembled (by decide)
        (assembled_groupBy c q reduction key)
        (assembled_groupBy c r reduction' key') hmeet
      obtain ⟨hsource, hrest⟩ := List.forall₂_cons.mp hparts
      obtain ⟨hkeys, hrest⟩ := List.forall₂_cons.mp hrest
      obtain ⟨t, u, hr, hr', hsame⟩ :=
        meets_result (List.forall₂_cons.mp hrest).1
      exact .groupBy (hq ren r hsource) (alike_reduction hr hr' hsame)
        (alike_func hkey hkeys)
  | _ => cases hform

theorem faithful_groupedMapReduce {q : Query} {f g : RowFunc}
    {r : PairFunc} (hq : q.Faithful c) (hf : f.toFunc.body.Faithful c)
    (hg : g.toFunc.body.Faithful c) (hr : r.toFunc.body.Faithful c)
    (base : Option Value) :
    (Query.groupedMapReduce q f g r base).Faithful c := by
  intro ren q' hmeet
  have hform := meets_query_form hmeet
  cases q' with
  | groupedMapReduce q' f' g' r' base' =>
      obtain ⟨-, hparts, hbase⟩ := meets_assembled (by decide)
        (assembled_groupedMapReduce c q f g r base)
        (assembled_groupedMapReduce c q' f' g' r' base') hmeet
      obtain ⟨hsource, hrest⟩ := List.forall₂_cons.mp hparts
      obtain ⟨hgrouping, hrest⟩ := List.forall₂_cons.mp hrest
      obtain ⟨hmapping, hrest⟩ := List.forall₂_cons.mp hrest
      exact .groupedMapReduce (hq ren q' hsource) (alike_func hf hgrouping)
        (alike_func hg hmapping)
        (alike_func hr (List.forall₂_cons.mp hrest).1) (meets_base hbase)
  | _ => cases hform

theorem faithful_join {a b : Query} {f : PairFunc} (ha : a.Faithful c)
    (hb : b.Faithful c) (hf : f.toFunc.body.Faithful c) (kind : JoinKind) :
    (Query.join kind a b f).Faithful c := by
  intro ren r hmeet
  have hform := meets_query_form hmeet
  cases r with
  | join kind' a' b' f' =>
      obtain ⟨hkind, hparts, -⟩ := meets_assembled (ordinary_join kind)
        (assembled_join c kind a b f) (assembled_join c kind' a' b' f')
        hmeet
      obtain rfl : kind = kind' := by
        cases kind <;> cases kind' <;> first | rfl | cases hkind
      obtain ⟨hleft, hrest⟩ := List.forall₂_cons.mp hparts
      obtain ⟨hright, hrest⟩ := List.forall₂_cons.mp hrest
      exact .join (ha ren a' hleft) (hb ren b' hright)
        (alike_func hf (List.forall₂_cons.mp hrest).1)
  | _ => cases hform

theorem faithful_eqJoin {a b : Query} (ha : a.Faithful c)
    (hb : b.Faithful c) (member : RowFunc) (index : Option String) :
    (Query.eqJoin a member b index).Faithful c := by
  intro ren r hmeet
  have hform := meets_query_form hmeet
  cases r with
  | eqJoin a' member' b' index' =>
      obtain ⟨-, hparts, hnames⟩ := meets_assembled (by decide)
        (assembled_eqJoin c a member b index)
        (assembled_eqJoin c a' member' b' index') hmeet
      cases textNames_same (meets_constParts hnames)
      obtain ⟨hleft, hrest⟩ := List.forall₂_cons.mp hparts
      obtain ⟨hmember, hrest⟩ := List.forall₂_cons.mp hrest
      obtain ⟨t, u, hr, hr', hsame⟩ := meets_result hmember
      exact .eqJoin (ha ren a' hleft) (sameMember_of_judge hr hr' hsame)
        (hb ren b' (List.forall₂_cons.mp hrest).1)
  | _ => cases hform

/-! ## Every expression and every chain -/

/-- Roots are faithful inside expressions as well: three of them are said
    plainly there. -/
theorem faithful_root_anywhere (r : Root) :
    (Query.root r).FaithfulAnywhere c := by
  cases r with
  | literal v =>
      exact ⟨faithful_root _, fun _ => faithful_of_plain (faithful_literal v)⟩
  | literalSeq vs =>
      refine ⟨faithful_root _, fun _ => faithful_of_plain ?_⟩
      refine faithful_array fun e he => ?_
      obtain ⟨v, -, rfl⟩ := List.mem_map.mp he
      exact faithful_literal v
  | now =>
      refine ⟨faithful_root _, fun _ => faithful_of_plain ?_⟩
      exact faithful_call (List.forall_mem_nil _) "now"
  | _ => exact faithful_anywhere (fun _ => rfl) (faithful_root _)

/-- A step is faithful inside expressions as well: a count is said plainly
    there, of a chain that is still a subquery. -/
theorem faithful_step_anywhere {q : Query} (hq : q.FaithfulAnywhere c)
    (s : Step) : (Query.step q s).FaithfulAnywhere c := by
  cases s with
  | count =>
      refine ⟨faithful_step hq.1 _, fun i => faithful_of_plain ?_⟩
      exact faithful_call (List.forall_mem_singleton.mpr (hq.2 i)) "count"
  | _ => exact faithful_anywhere (fun _ => rfl) (faithful_step hq.1 _)

/-- Faithfulness passes from the parts to the node, form by form. -/
theorem faithful_hereditary (c : Converter) :
    Hereditary (Expr.Faithful c) (Query.FaithfulAnywhere c) where
  param := faithful_param
  literal := faithful_literal
  field _ name he := faithful_field he name
  compare op _ _ ha hb := faithful_compare ha hb op
  arith op _ _ ha hb := faithful_arith ha hb op
  all _ hes := faithful_all hes
  any _ hes := faithful_any hes
  not _ he := faithful_not he
  array _ hes := faithful_array hes
  object _ hms := faithful_object hms
  call name _ hes := faithful_call hes name
  subquery i _ hq := hq.2 i
  root := faithful_root_anywhere
  indexCreateWith t name _ hkey :=
    faithful_anywhere (fun _ => rfl) (faithful_indexCreateWith hkey t name)
  step _ s hq := faithful_step_anywhere hq s
  rowStep _ s _ hq hf :=
    faithful_anywhere (fun _ => rfl) (faithful_rowStep hq.1 hf s)
  orderBy _ _ _ hq hfirst hothers :=
    faithful_anywhere (fun _ => rfl)
      (faithful_orderBy hq.1 (List.forall_mem_cons.mpr ⟨hfirst, hothers⟩))
  union _ _ ha hb :=
    faithful_anywhere (fun _ => rfl) (faithful_union ha.1 hb.1)
  reduce _ _ base hq hf :=
    faithful_anywhere (fun _ => rfl) (faithful_reduce hq.1 hf base)
  groupBy _ reduction _ hq hkey :=
    faithful_anywhere (fun _ => rfl)
      (faithful_groupBy hq.1 hkey reduction)
  groupedMapReduce _ _ _ _ base hq hg hm hr :=
    faithful_anywhere (fun _ => rfl)
      (faithful_groupedMapReduce hq.1 hg hm hr base)
  join kind _ _ _ ha hb hf :=
    faithful_anywhere (fun _ => rfl) (faithful_join ha.1 hb.1 hf kind)
  eqJoin _ member _ index ha hb :=
    faithful_anywhere (fun _ => rfl)
      (faithful_eqJoin ha.1 hb.1 member index)

/-- **Generation loses nothing.**  Chains with equal terms, under one
    converter, are alike.  The numbers of variables are doubles on the
    wire, and only the first `2 ^ 53` of them are told apart; one of the
    chains must not use up more (`unfaithful_beyond`). -/
theorem generate_faithful (c : Converter) (q r : Query) (t u : Term)
    (hq : (q.generate c).result = .ok t)
    (hr : (r.generate c).result = .ok u) (hsame : t.same u = true)
    (hfew : (q.generate c).context.next ≤ 2 ^ 53 + 1) :
    Query.Alike c [] q r := by
  obtain ⟨m, hm, -, hok⟩ := job_counts c (.query q) 1
  have hnext : (q.generate c).context.next = m := congrArg Context.next hm
  obtain ⟨⟨hle, hperm⟩, -⟩ := hok t hq
  have hapart : Apart t.declared := by
    refine apart_of_subperm ?_ hperm.subperm
    rw [Nat.add_sub_cancel' hle, ← hnext]
    exact hfew
  have hgive : ∀ {q : Query} {t : Term}, (q.generate c).result = .ok t →
      Gives (q.part c (.ofScope [])) t := by
    intro q t hok
    exact ⟨1, (follows_job c (.query q) [] 1).1.symm.trans hok⟩
  refine ((faithful_hereditary c).query q).1 [] r ?_
  exact ⟨.ofScope [], .ofScope [], [], t, u,
    .outside (fun _ => rfl) (fun _ => rfl), hgive hq, hgive hr, hsame,
    hapart⟩

/-- A chain with a function over a row `p`, a member compared with the
    literal `v`, and the time as `e` says it. -/
def stamped (p : Param) (v : Value) (e : Expr)
    (order : List (String × Expr) → List (String × Expr)) : Query :=
  .rowStep (.root (.table ⟨none, "readings", false⟩)) .map
    (.mk p (.object (order
      [("high", .compare .gt (.field (.param p) "level") (.literal v)),
       ("at", e)])))

theorem generate_faithful_stamped :
    ∃ t u,
      ((stamped ⟨0⟩ (.int 4) (.subquery 1 (.root .now)) id).generate
        (.standard .strict)).result = .ok t ∧
      ((stamped ⟨7⟩ (.float (.ofNat 4)) (.call "now" []) List.reverse).generate
        (.standard .strict)).result = .ok u ∧
      t.same u = true ∧
      Query.Alike (.standard .strict) []
        (stamped ⟨0⟩ (.int 4) (.subquery 1 (.root .now)) id)
        (stamped ⟨7⟩ (.float (.ofNat 4)) (.call "now" []) List.reverse) := by
  refine ⟨_, _, rfl, rfl, by decide, ?_⟩
  exact generate_faithful _ _ _ _ _ rfl rfl (by decide) (by decide)

/-! ## The bound -/

/-- A chain that uses up `n` numbers, one for each step. -/
def tower : Nat → Query
  | 0 => .root .dbList
  | n + 1 => .rowStep (tower n) .map (.mk ⟨0⟩ (.param ⟨0⟩))

/-- A tower joined with a root by what one of the two rows says. -/
def towerJoin (n : Nat) (p : Param) : Query :=
  .join .inner (tower n) (.root .dbList) (.mk ⟨0⟩ ⟨1⟩ (.param p))

/-- The term of a function that gives a parameter. -/
theorem translate_giving {env : Environment} {params : List Param}
    {p : Param} {id n : Nat} (h : env.declare params n p = some id) :
    functionTranslate params env
        (fun inner => (Expr.param p).translate c inner) n
      = (.ok (.function (List.range' n params.length) (.variableRef id)),
        n + params.length) := by
  rw [functionTranslate, bind_of_ok (rfl : take params.length n = _),
    Expr.translate, Environment.reference, h]
  rfl

/-- Such a term equals itself, since its numbers are numbers. -/
theorem same_giving (ids : List Nat) (id : Nat) :
    (Term.function ids (.variableRef id)).same
      (.function ids (.variableRef id)) = true := by
  have hnumber : ∀ n : Nat, (Term.number n).same (.number n) = true :=
    Binary64.same_ofNat
  have hids : List.Forall₂ (fun a b => a.same b = true)
      (ids.map Term.number) (ids.map Term.number) := by
    refine List.forall₂_same.mpr fun t ht => ?_
    obtain ⟨n, -, rfl⟩ := List.mem_map.mp ht
    exact hnumber n
  have hlist := same_node .makeArray hids
  have hbody := same_node .var (.cons (hnumber id) .nil)
  exact same_node .func (.cons hlist (.cons hbody .nil))

/-- A tower has a term, which equals itself. -/
theorem translate_tower (c : Converter) (env : Environment) (n k : Nat) :
    ∃ t, (tower n).translate c env k = (.ok t, k + n) ∧
      t.same t = true := by
  induction n with
  | zero => exact ⟨.node .dbList [], rfl, rfl⟩
  | succ n ih =>
      obtain ⟨t, ht, hsame⟩ := ih
      refine ⟨.node .map [t, .function [k + n] (.variableRef (k + n))],
        ?_, ?_⟩
      · rw [tower, Query.translate, bind_of_ok ht, RowFunc.translate,
          bind_of_ok (translate_giving rfl)]
        rfl
      · exact same_node .map (.cons hsame (.cons (same_giving _ _) .nil))

/-- The term of a tower that is joined. -/
def towerTerm (t : Term) (n id : Nat) : Term :=
  .node .innerJoin [t, .node .dbList [],
    .function (List.range' (1 + n) 2) (.variableRef id)]

theorem generate_towerJoin {n id : Nat} {t : Term} {p : Param}
    (ht : (tower n).translate c (.ofScope []) 1 = (.ok t, 1 + n))
    (hp : Environment.declare (.ofScope []) [⟨0⟩, ⟨1⟩] (1 + n) p
      = some id) :
    ((towerJoin n p).generate c).result = .ok (towerTerm t n id) ∧
      ((towerJoin n p).generate c).context.next = 1 + n + 2 := by
  have hjoin : (towerJoin n p).translate c (.ofScope []) 1
      = (.ok (towerTerm t n id), 1 + n + 2) := by
    rw [towerJoin, Query.translate, bind_of_ok ht,
      bind_of_ok (rfl : (Query.root .dbList).translate c _ _ = _),
      PairFunc.translate, bind_of_ok (translate_giving hp)]
    rfl
  obtain ⟨hr, hc⟩ := follows_job c (.query (towerJoin n p)) [] 1
  rw [Job.translate, hjoin] at hr hc
  exact ⟨hr, congrArg Context.next hc⟩

/-- One number more, and faithfulness fails under every converter: the
    doubles of `2 ^ 53` and of the next number are the same, so a join
    that gives its left row has the term of one that gives its right
    row. -/
theorem unfaithful_beyond (c : Converter) :
    ∃ q r t, (q.generate c).result = .ok t ∧
      (r.generate c).result = .ok t ∧ t.same t = true ∧
      (q.generate c).context.next = 2 ^ 53 + 2 ∧
      ¬ Query.Alike c [] q r := by
  -- The height is only named, so that no step computes a tower of it.
  obtain ⟨n, hn⟩ : ∃ n, 1 + n = 2 ^ 53 := ⟨2 ^ 53 - 1, by decide⟩
  obtain ⟨t, ht, hsame⟩ := translate_tower c (.ofScope []) n 1
  let env := Environment.declare (.ofScope []) [⟨0⟩, ⟨1⟩] (1 + n)
  have hleft : env ⟨0⟩ = some (1 + n) := rfl
  have hright : env ⟨1⟩ = some (1 + n + 1) := rfl
  obtain ⟨hq, hnext⟩ := generate_towerJoin ht hleft
  obtain ⟨hr, -⟩ := generate_towerJoin ht hright
  have hdouble : Binary64.ofNat (2 ^ 53 + 1) = Binary64.ofNat (2 ^ 53) := by
    decide
  have hnumber : Term.number (1 + n + 1) = Term.number (1 + n) := by
    rw [hn]
    exact congrArg (fun x => Term.datum (.number x)) hdouble
  have hterm : towerTerm t n (1 + n + 1) = towerTerm t n (1 + n) := by
    rw [towerTerm, Term.variableRef, hnumber]
    rfl
  rw [hterm] at hr
  refine ⟨towerJoin n ⟨0⟩, towerJoin n ⟨1⟩, _, hq, hr, ?_, ?_, ?_⟩
  · exact same_node .innerJoin
      (.cons hsame (.cons rfl (.cons (same_giving _ _) .nil)))
  · rw [hnext, hn]
  · intro halike
    cases halike with
    | join _ _ hfunc =>
        cases hfunc with
        | mk _ hbody =>
            cases hbody with
            | param hcorr =>
                cases hcorr with
                | outer _ hne _ => exact hne rfl
            | left hstands _ => cases hstands
            | right hstands _ => cases hstands

end ChainQuery
