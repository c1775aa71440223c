import ChainQuery.Proofs.Faithful
import ChainQuery.Proofs.Slots

/-! # Shapes — generated terms keep to the grammar

    What a chain gives keeps to the grammar at every depth.  The route:

    * `Part.Fills` says that a slot admits whatever a part gives;
    * an assembled node is admitted when its parts fill the slots of a form
      of its kind (`fills_assembled`), so the shape of every form of node
      is read off the table (`shaped_hereditary`);
    * the numbers a function lists are among those its term declares
      (`declared_sublist`), and so are distinct as long as doubles tell
      them apart. -/

namespace ChainQuery

open Term Translation

variable {c : Converter} {config : Converter.Config} {env : Environment}
  {slot : Slot} {p : Production} {kind : Kind} {t : Term}
  {args : List Term}

/-! ## Parts that fill slots -/

/-- Whatever a part gives, a slot admits. -/
def Part.Fills (slot : Slot) (x : Part) : Prop :=
  ∀ env t, Gives (x env) t → slot.Admits t

theorem fills_const (h : slot.Admits t) : Part.Fills slot (.const t) := by
  intro env t' ht
  rwa [gives_pure ht]

theorem fills_result {r : Except TermError Term}
    (h : ∀ t, r = .ok t → slot.Admits t) : Part.Fills slot (.result r) :=
  fun _ t ht => h t (gives_ofExcept ht)

/-- What fills a slot fills a wider one. -/
theorem fills_mono {slot' : Slot} {x : Part} (h : Part.Fills slot x)
    (hle : ∀ t, slot.Fits t → slot'.Fits t) : Part.Fills slot' x :=
  fun env t ht => admits_mono (h env t ht) (hle t)

/-- What parts give, the slots that they fill admit. -/
theorem admits_parts {slots : List Slot} {parts : List Part}
    (h : List.Forall₂ Part.Fills slots parts)
    (hgive : PartsGive env parts args) :
    List.Forall₂ Slot.Admits slots args := by
  induction h generalizing args with
  | nil =>
      cases hgive
      exact .nil
  | cons hx _ ih =>
      cases hgive with
      | cons ht hts => exact .cons (hx _ _ ht) (ih hts)

/-- Named parts give such as a production has, and what they give keeps
    to the grammar. -/
def NamedFill (p : Production) (named : List (String × Part)) : Prop :=
  ∀ env optargs, NamedGive env named optargs →
    p.TakesNamed optargs ∧ ∀ e ∈ optargs, e.2.Obeys grammar

theorem namedFill_none (h : p.always = []) : NamedFill p [] := by
  intro env optargs hgive
  cases hgive
  exact ⟨takes_none h, List.forall_mem_nil _⟩

/-- Constant parts give what they are. -/
theorem eq_of_constParts {names optargs : List (String × Term)}
    (h : NamedGive env (constParts names) optargs) : optargs = names := by
  induction names generalizing optargs with
  | nil =>
      cases h
      rfl
  | cons e rest ih =>
      cases h with
      | cons he hrest =>
          obtain ⟨hname, hgive⟩ := he
          rw [ih hrest, Prod.ext hname.symm (gives_pure hgive)]

theorem namedFill_leaves {names : List (String × Term)}
    (hleaf : ∀ e ∈ names, ∃ d, e.2 = .datum d) (h : p.TakesNamed names) :
    NamedFill p (constParts names) := by
  intro env optargs hgive
  rw [eq_of_constParts hgive]
  exact ⟨h, obeys_leaves hleaf⟩

theorem namedFill_base (base : Option Value)
    (hslot : p.slot? "base" = some .leaf) (h : p.always = []) :
    NamedFill p (basePart c base) := by
  cases base with
  | none => exact namedFill_none h
  | some v =>
      intro env optargs hgive
      obtain ⟨⟨name, t⟩, rest, ⟨hname, ht⟩, hrest, rfl⟩ :=
        List.forall₂_cons_left_iff.mp hgive
      cases hname
      cases hrest
      obtain ⟨hobeys, hfit⟩ := admits_judge (gives_ofExcept ht)
      exact ⟨takes_one .leaf hslot h hfit,
        List.forall_mem_singleton.mpr hobeys⟩

/-- A node keeps to the grammar when its parts fill the slots of a form of
    its kind. -/
theorem fills_assembled {parts : List Part} {named : List (String × Part)}
    {x : Part} {form rest : List Slot} {kinds : List Kind}
    (h : Assembled kind parts named x) (hkind : kind ∈ kinds)
    (hform : form ∈ (grammar kind).forms)
    (hrest : ∀ slot ∈ rest, slot ∈ (grammar kind).more)
    (hparts : List.Forall₂ Part.Fills (form ++ rest) parts)
    (hnamed : NamedFill (grammar kind) named) :
    Part.Fills (.of kinds) x := by
  intro env t ht
  obtain ⟨args, optargs, rfl, hargs, hoptargs⟩ := h env t ht
  obtain ⟨htakes, hobeys⟩ := hnamed env optargs hoptargs
  exact admits_apply hkind hform hrest (admits_parts hparts hargs) htakes
    hobeys

/-- A node whose positional arguments are all fixed. -/
theorem fills_fixed {parts : List Part} {named : List (String × Part)}
    {x : Part} {form : List Slot} {kinds : List Kind}
    (h : Assembled kind parts named x) (hkind : kind ∈ kinds)
    (hform : form ∈ (grammar kind).forms)
    (hparts : List.Forall₂ Part.Fills form parts)
    (hnamed : NamedFill (grammar kind) named) :
    Part.Fills (.of kinds) x := by
  rw [← List.append_nil form] at hparts
  exact fills_assembled h hkind hform (List.forall_mem_nil _) hparts hnamed

/-- A node of any number of parts. -/
theorem fills_list {parts : List Part} {x : Part} {kinds : List Kind}
    (h : Assembled kind parts [] x) (hkind : kind ∈ kinds)
    (hform : [] ∈ (grammar kind).forms)
    (hmore : (grammar kind).more = some slot)
    (halways : (grammar kind).always = [])
    (hparts : ∀ part ∈ parts, Part.Fills slot part) :
    Part.Fills (.of kinds) x := by
  refine fills_assembled h hkind hform ?_ (forall₂_replicate hparts)
    (namedFill_none halways)
  intro slot' hslot
  rw [List.eq_of_mem_replicate hslot]
  exact hmore

theorem fills_func {f : Func} (h : Part.Fills .value (f.body.part c)) :
    Part.Fills (.func f.params.length) (f.part c) := by
  intro env t ht
  obtain ⟨first, body, hbody, rfl⟩ := gives_function ht
  have hfunc := admits_function (List.range' first f.params.length)
    (h _ _ hbody)
  rwa [List.length_range'] at hfunc

/-! ## Expressions and chains -/

/-- What an expression gives is a value of the grammar. -/
def Expr.Shaped (c : Converter) (e : Expr) : Prop :=
  Part.Fills .value (e.part c)

/-- What a chain gives is the term of a chain of the grammar. -/
def Query.Shaped (c : Converter) (q : Query) : Prop :=
  Part.Fills .chain (q.part c)

theorem fills_reference (p : Param) : (Expr.param p).Shaped c := by
  intro env t ht
  obtain ⟨id, -, rfl⟩ := gives_param ht
  exact admits_node (by decide) (.head _) rfl
    (.cons (admits_leaf ⟨_, rfl⟩) .nil)

theorem fills_text (s : String) : Part.Fills .text (.const (.text s)) :=
  fills_const (admits_text s)

theorem fills_literal (v : Value) : Part.Fills .leaf (.literal c v) :=
  fills_result fun _ h => admits_judge h

theorem fills_int (n : Int64) :
    Part.Fills .number (.literal (.standard config) (.int n)) :=
  fills_result fun _ h => admits_int h

theorem fills_row {f : RowFunc} (h : f.toFunc.body.Shaped c) :
    Part.Fills (.func 1) (f.toFunc.part c) := by
  obtain ⟨row, body⟩ := f
  exact fills_func h

theorem fills_pair {f : PairFunc} (h : f.toFunc.body.Shaped c) :
    Part.Fills (.func 2) (f.toFunc.part c) := by
  obtain ⟨left, right, body⟩ := f
  exact fills_func h

theorem fills_items {es : List Expr} (h : ∀ e ∈ es, e.Shaped c) :
    ∀ part ∈ es.map (Expr.part c), Part.Fills .value part := by
  intro part hpart
  obtain ⟨e, he, rfl⟩ := List.mem_map.mp hpart
  exact h e he

/-- Names of members are taken once. -/
theorem members_once {ms : List (String × Expr)}
    {done out : List (String × Term)} (hdone : (done.map Prod.fst).Nodup)
    (h : Gives (translateMembers c env ms done) out) :
    (out.map Prod.fst).Nodup := by
  induction ms generalizing done with
  | nil =>
      cases gives_pure h
      exact hdone
  | cons m ms ih =>
      obtain ⟨name, e⟩ := m
      rw [translateMembers] at h
      obtain ⟨t, -, h⟩ := gives_bind h
      by_cases hname : Entries.has name done = true
      · rw [if_pos hname] at h
        exact (gives_fail h).elim
      · rw [if_neg hname] at h
        have hnew : name ∉ done.map Prod.fst := mt Entries.has_iff.mpr hname
        have hput := (Entries.put_perm t hnew).map Prod.fst
        exact ih (hput.nodup_iff.mpr (List.nodup_cons.mpr ⟨hnew, hdone⟩)) h

/-- What is given by name comes from a part of that name. -/
theorem mem_namedGive {named : List (String × Part)}
    {ts : List (String × Term)} (h : NamedGive env named ts)
    {e : String × Term} (he : e ∈ ts) :
    ∃ m ∈ named, m.1 = e.1 ∧ Gives (m.2 env) e.2 := by
  induction h with
  | nil => cases he
  | cons hm _ ih =>
      rcases List.mem_cons.mp he with rfl | hrest
      · exact ⟨_, List.mem_cons_self, hm⟩
      · obtain ⟨m, hmem, hgive⟩ := ih hrest
        exact ⟨m, List.mem_cons_of_mem _ hmem, hgive⟩

/-- An object of values, each under a name of its own. -/
theorem fills_object {ms : List (String × Expr)}
    (h : ∀ m ∈ ms, m.2.Shaped c) : (Expr.object ms).Shaped c := by
  intro env t ht
  obtain ⟨out, hout, hpure⟩ := gives_bind ht
  cases gives_pure hpure
  obtain ⟨ts, hts, hperm⟩ := members_give hout
  rw [List.append_nil] at hperm
  have hvalues : ∀ e ∈ out, Slot.value.Admits e.2 := by
    intro e he
    obtain ⟨part, hpart, -, hgive⟩ :=
      mem_namedGive hts (hperm.mem_iff.mp he)
    obtain ⟨m, hm, rfl⟩ := List.mem_map.mp hpart
    exact h m hm env e.2 hgive
  have hnone : (([] : List (String × Term)).map Prod.fst).Nodup :=
    List.nodup_nil
  refine admits_apply (by decide) (.head _) (List.forall_mem_nil _) .nil
    ⟨?_, List.forall_mem_nil _, members_once hnone hout⟩
    fun e he => (hvalues e he).1
  intro e he
  exact ⟨.value, rfl, (hvalues e he).2⟩

/-- A call has as many values as its function takes. -/
theorem fills_call {name : String} {es : List Expr}
    (h : ∀ e ∈ es, e.Shaped c) : (Expr.call name es).Shaped c := by
  intro env t ht
  have hjudge := call_judged c ht
  obtain ⟨call, hcall, -, harity, hkind⟩ := call_of_judge hjudge
  have hall : ∀ call ∈ RemoteCall.all, call.kind ∈ valueKinds ∧
      List.replicate call.arity Slot.value ∈ (grammar call.kind).forms ∧
      (grammar call.kind).always = [] := by
    decide
  obtain ⟨hvalue, hform, halways⟩ := hall call hcall
  rw [hkind] at hvalue hform halways
  have hparts := forall₂_replicate (fills_items h)
  rw [List.length_map, ← harity] at hparts
  exact fills_fixed (assembled_call c hjudge) hvalue hform hparts
    (namedFill_none halways) env t ht

/-- A key to sort by. -/
theorem fills_key {k : SortKey} (h : k.body.Shaped c) :
    Part.Fills .sortKey (k.part c) := by
  obtain ⟨f, direction⟩ := k
  have hkey : Part.Fills (.either .text (.func 1)) (f.keyPart c) := by
    intro env t ht
    rw [RowFunc.keyPart] at ht
    cases hname : f.toFunc.memberName? with
    | some name =>
        rw [hname] at ht
        rw [gives_pure ht]
        exact admits_mono (admits_text name) .inl
    | none =>
        rw [hname] at ht
        exact admits_mono (fills_row h env t (rowFunc_gives ht)) .inr
  cases direction with
  | asc =>
      exact fills_fixed (assembled_key c f .asc) (by decide) (.head _)
        (.cons hkey .nil) (namedFill_none rfl)
  | desc =>
      exact fills_fixed (assembled_key c f .desc) (by decide) (.head _)
        (.cons hkey .nil) (namedFill_none rfl)

theorem chain_step (s : Step) : s.kind ∈ chainKinds := by
  cases s <;> simp [Step.kind, chainKinds]

theorem chain_rowStep (s : RowStep) : s.kind ∈ chainKinds := by
  cases s <;> simp [RowStep.kind, chainKinds]

/-- The literals of a step are such as a form of its kind has after the
    source. -/
theorem fills_operands {x : Part} (s : Step) (hx : Part.Fills .chain x) :
    ∃ form ∈ (grammar s.kind).forms, List.Forall₂ Part.Fills form
      (x :: s.literals.map (.literal (.standard config))) := by
  cases s with
  | get key keyMember =>
      have hkey : Part.Fills (.either .text .number)
          (.literal (.standard config) key.toValue) :=
        fills_result fun _ h => admits_primaryKey h
      exact ⟨_, .head _, .cons hx (.cons hkey .nil)⟩
  | getAll key index =>
      exact ⟨_, .head _, .cons hx (.cons (fills_literal key) .nil)⟩
  | between left right index lb rb =>
      exact ⟨_, .head _, .cons hx (.cons (fills_literal left)
        (.cons (fills_literal right) .nil))⟩
  | skip n => exact ⟨_, .head _, .cons hx (.cons (fills_int n) .nil)⟩
  | limit n => exact ⟨_, .head _, .cons hx (.cons (fills_int n) .nil)⟩
  | slice start stop =>
      cases stop with
      | none =>
          exact ⟨_, .head _, .cons hx (.cons (fills_int start) .nil)⟩
      | some stop =>
          exact ⟨_, .tail _ (.head _), .cons hx (.cons (fills_int start)
            (.cons (fills_int stop) .nil))⟩
  | nth n => exact ⟨_, .head _, .cons hx (.cons (fills_int n) .nil)⟩
  | replace v nonAtomic =>
      exact ⟨_, .head _, .cons hx (.cons (fills_literal v) .nil)⟩
  | replaceAndReturn v nonAtomic =>
      exact ⟨_, .head _, .cons hx (.cons (fills_literal v) .nil)⟩
  | count =>
      have hvalue := fills_mono hx fun _ => value_of_chain
      exact ⟨_, .head _, .cons hvalue .nil⟩
  | distinct => exact ⟨_, .head _, .cons hx .nil⟩
  | zip => exact ⟨_, .head _, .cons hx .nil⟩
  | delete => exact ⟨_, .head _, .cons hx .nil⟩
  | deleteAndReturn => exact ⟨_, .head _, .cons hx .nil⟩

theorem fills_step {q : Query} (s : Step)
    (hq : q.Shaped (.standard config)) :
    Query.Shaped (.standard config) (.step q s) := by
  obtain ⟨form, hform, hparts⟩ := fills_operands s hq
  exact fills_fixed (assembled_step _ q s) (chain_step s) hform hparts
    (namedFill_leaves (step_names_leaf s) (takes_step s))

theorem fills_rowStep {q : Query} (s : RowStep) {f : RowFunc}
    (hq : q.Shaped c) (hf : f.toFunc.body.Shaped c) :
    Query.Shaped c (.rowStep q s f) := by
  have hform : [.chain, .func 1] ∈ (grammar s.kind).forms := by
    cases s <;> exact .head _
  exact fills_fixed (assembled_rowStep c q s f) (chain_rowStep s) hform
    (.cons hq (.cons (fills_row hf) .nil))
    (namedFill_leaves (rowStep_names_leaf s) (takes_rowStep s))

/-- Rows are sorted by one key or more. -/
theorem fills_orderBy {q : Query} {first : SortKey} {others : List SortKey}
    (hq : q.Shaped c) (hfirst : first.body.Shaped c)
    (hothers : ∀ k ∈ others, k.body.Shaped c) :
    Query.Shaped c (.orderBy q first others) := by
  have hkeys : ∀ part ∈ others.map (SortKey.part c),
      Part.Fills .sortKey part := by
    intro part hpart
    obtain ⟨k, hk, rfl⟩ := List.mem_map.mp hpart
    exact fills_key (hothers k hk)
  refine fills_assembled (assembled_orderBy c q first others) (by decide)
    (.head _) ?_
    (.cons hq (.cons (fills_key hfirst) (forall₂_replicate hkeys)))
    (namedFill_none rfl)
  intro slot hslot
  rw [List.eq_of_mem_replicate hslot]
  rfl

theorem fills_eqJoin {a b : Query} (member : RowFunc)
    (index : Option String) (ha : a.Shaped c) (hb : b.Shaped c) :
    Query.Shaped c (.eqJoin a member b index) := by
  have hmember : Part.Fills .text (.result (member.judgeMember .eqJoin)) :=
    fills_result fun _ h => admits_member h
  refine fills_fixed (assembled_eqJoin c a member b index) (by decide)
    (.head _) (.cons ha (.cons hmember (.cons hb .nil))) ?_
  refine namedFill_leaves ?_ (takes_textNames index rfl rfl)
  intro e he
  obtain ⟨s, -, rfl⟩ := List.mem_map.mp he
  exact ⟨_, rfl⟩

/-- Every form of node has the shape of its kind. -/
theorem shaped_hereditary (config : Converter.Config) :
    Hereditary (Expr.Shaped (.standard config))
      (Query.Shaped (.standard config)) where
  param p := fills_reference p
  literal v := fills_mono (fills_literal v) fun _ => value_of_leaf
  field e name he :=
    fills_fixed (assembled_field _ e name) (by decide) (.head _)
      (.cons he (.cons (fills_text name) .nil)) (namedFill_none rfl)
  compare op a b ha hb := by
    have h := assembled_compare (.standard config) op a b
    cases op <;>
      exact fills_fixed h (by decide) (.head _)
        (.cons ha (.cons hb .nil)) (namedFill_none rfl)
  arith op a b ha hb := by
    have h := assembled_arith (.standard config) op a b
    cases op <;>
      exact fills_fixed h (by decide) (.head _)
        (.cons ha (.cons hb .nil)) (namedFill_none rfl)
  all es hes :=
    fills_list (assembled_all _ es) (by decide) (.head _) rfl rfl
      (fills_items hes)
  any es hes :=
    fills_list (assembled_any _ es) (by decide) (.head _) rfl rfl
      (fills_items hes)
  not e he :=
    fills_fixed (assembled_not _ e) (by decide) (.head _)
      (.cons he .nil) (namedFill_none rfl)
  array es hes :=
    fills_list (assembled_array _ es) (by decide) (.head _) rfl rfl
      (fills_items hes)
  object _ hms := fills_object hms
  call _ _ hes := fills_call hes
  subquery _ _ hq := fills_mono hq fun _ => value_of_chain
  root r := fills_result fun _ h => admits_root h
  indexCreateWith t name key hkey :=
    fills_fixed (assembled_indexCreateWith _ t name key) (by decide)
      (.tail _ (.head _))
      (.cons (fills_const (admits_table (by decide) t))
        (.cons (fills_text name) (.cons (fills_row hkey) .nil)))
      (namedFill_none rfl)
  step _ s hq := fills_step s hq
  rowStep _ s _ hq hf := fills_rowStep s hq hf
  orderBy _ _ _ hq hfirst hothers := fills_orderBy hq hfirst hothers
  union a b ha hb :=
    fills_fixed (assembled_union _ a b) (by decide) (.head _)
      (.cons ha (.cons hb .nil)) (namedFill_none rfl)
  reduce q f base hq hf :=
    fills_fixed (assembled_reduce _ q f base) (by decide) (.head _)
      (.cons hq (.cons (fills_pair hf) .nil)) (namedFill_base base rfl rfl)
  groupBy q reduction key hq hkey :=
    fills_fixed (assembled_groupBy _ q reduction key) (by decide)
      (.head _)
      (.cons hq (.cons (fills_row hkey)
        (.cons (fills_result fun _ h => admits_reduction h) .nil)))
      (namedFill_none rfl)
  groupedMapReduce q g m r base hq hg hm hr :=
    fills_fixed (assembled_groupedMapReduce _ q g m r base) (by decide)
      (.head _)
      (.cons hq (.cons (fills_row hg)
        (.cons (fills_row hm) (.cons (fills_pair hr) .nil))))
      (namedFill_base base rfl rfl)
  join kind a b f ha hb hf := by
    have h := assembled_join (.standard config) kind a b f
    cases kind <;>
      exact fills_fixed h (by decide) (.head _)
        (.cons ha (.cons hb (.cons (fills_pair hf) .nil)))
        (namedFill_none rfl)
  eqJoin _ member _ index ha hb := fills_eqJoin member index ha hb

/-! ## Listed numbers -/

mutual

/-- What a node declares is among what the whole term declares. -/
theorem declared_sublist :
    ∀ t : Term, ∀ s ∈ t.nodes, s.declared.Sublist t.declared
  | .datum d => fun s hs => by
      rw [List.mem_singleton.mp hs]
  | .apply kind args optargs => fun s hs => by
      rw [Term.nodes, List.mem_cons, List.mem_append] at hs
      rcases hs with rfl | hs | hs
      · exact List.Sublist.refl _
      · exact ((declaredArgs_sublist args s hs).trans
          (List.sublist_append_left _ _)).trans
            (List.sublist_append_right _ _)
      · exact ((declaredNamed_sublist optargs s hs).trans
          (List.sublist_append_right _ _)).trans
            (List.sublist_append_right _ _)
termination_by structural t => t

theorem declaredArgs_sublist :
    ∀ ts : List Term, ∀ s ∈ nodesOfArgs ts,
      s.declared.Sublist (declaredArgs ts)
  | [] => fun _ hs => by cases hs
  | t :: ts => fun s hs => by
      rw [nodesOfArgs, List.mem_append] at hs
      rcases hs with hs | hs
      · exact (declared_sublist t s hs).trans
          (List.sublist_append_left _ _)
      · exact (declaredArgs_sublist ts s hs).trans
          (List.sublist_append_right _ _)
termination_by structural ts => ts

theorem declaredNamed_sublist :
    ∀ es : List (String × Term), ∀ s ∈ nodesOfNamed es,
      s.declared.Sublist (declaredNamed es)
  | [] => fun _ hs => by cases hs
  | (name, t) :: rest => fun s hs => by
      rw [nodesOfNamed, List.mem_append] at hs
      rcases hs with hs | hs
      · exact (declared_sublist t s hs).trans
          (List.sublist_append_left _ _)
      · exact (declaredNamed_sublist rest s hs).trans
          (List.sublist_append_right _ _)
termination_by structural es => es

end

/-- A function declares the numbers it lists. -/
theorem listed_sublist {s : Term} (h : s.kind = .func) :
    (listed s.args).Sublist s.declared := by
  cases s with
  | datum d => cases h
  | apply kind args optargs =>
      replace h : kind = .func := h
      rw [declared, if_pos h]
      exact List.sublist_append_left _ _

/-- The numbers a generated term declares are apart while doubles tell
    them apart. -/
theorem apart_generated {q : Query} (h : (q.generate c).result = .ok t)
    (hfew : (q.generate c).context.next ≤ 2 ^ 53 + 1) :
    Apart t.declared := by
  obtain ⟨m, hm, -, hok⟩ := job_counts c (.query q) 1
  have hnext : (q.generate c).context.next = m := congrArg Context.next hm
  obtain ⟨⟨hle, hperm⟩, -⟩ := hok t h
  refine apart_of_subperm ?_ hperm.subperm
  rw [Nat.add_sub_cancel' hle, ← hnext]
  exact hfew

/-! ## Generated terms -/

/-- **Generated terms keep to the grammar.**  Under the standard converter
    with any settings, every node of the term of a chain, at any depth,
    has the positional arguments and the named arguments of its kind; and
    every function lists distinct numbers, as long as no more are used up
    than doubles tell apart. -/
theorem generate_obeys_grammar (config : Converter.Config) (q : Query)
    (t : Term) (h : (q.generate (.standard config)).result = .ok t) :
    t.Obeys grammar ∧
      ((q.generate (.standard config)).context.next ≤ 2 ^ 53 + 1 →
        ∀ s ∈ t.nodes, s.kind = .func → Apart (listed s.args)) := by
  have hgive : Gives (q.part (.standard config) (.ofScope [])) t :=
    ⟨1, (follows_job _ (.query q) [] 1).1.symm.trans h⟩
  have hadmits := (shaped_hereditary config).query q _ t hgive
  refine ⟨hadmits.1, fun hfew s hs hfunc => ?_⟩
  have hapart := apart_generated h hfew
  exact apart_sublist ((listed_sublist hfunc).trans
    (declared_sublist t s hs)) hapart

/-- Games in a range, the highest score first and then those not yet
    rated. -/
def rankedGames : Query :=
  let game : Param := ⟨0⟩
  .orderBy
    (.step (.root (.table ⟨some "app", "games", true⟩))
      (.between (.int 1) (.text "z") none .including .excluding))
    (.mk (.mk game (.field (.param game) "score")) .desc)
    [.mk (.mk game (.not (.field (.param game) "rated"))) .asc]

theorem generate_obeys_grammar_rankedGames :
    ∃ t, (rankedGames.generate (.standard .strict)).result = .ok t ∧
      t.Obeys grammar ∧
      ∀ s ∈ t.nodes, s.kind = .func → Apart (listed s.args) := by
  obtain ⟨hobeys, hapart⟩ :=
    generate_obeys_grammar .strict rankedGames _ rfl
  exact ⟨_, rfl, hobeys, hapart (by decide)⟩

/-- With one number more, a function of two rows lists the same double
    twice. -/
theorem listed_twice_beyond (c : Converter) :
    ∃ (q : Query) (t : Term), (q.generate c).result = .ok t ∧
      (q.generate c).context.next = 2 ^ 53 + 2 ∧
      ∃ s ∈ t.nodes, s.kind = .func ∧ ¬ Apart (listed s.args) := by
  obtain ⟨n, hn⟩ : ∃ n, 1 + n = 2 ^ 53 := ⟨2 ^ 53 - 1, by decide⟩
  obtain ⟨t, ht, -⟩ := translate_tower c (.ofScope []) n 1
  have hrow : Environment.declare (.ofScope []) [⟨0⟩, ⟨1⟩] (1 + n) ⟨0⟩
      = some (1 + n) := rfl
  obtain ⟨hq, hnext⟩ := generate_towerJoin ht hrow
  let predicate := Term.function (List.range' (1 + n) 2)
    (.variableRef (1 + n))
  refine ⟨towerJoin n ⟨0⟩, _, hq, by rw [hnext, hn], predicate, ?_, rfl, ?_⟩
  · refine List.mem_cons_of_mem _ (List.mem_append_left _ ?_)
    exact mem_nodesOfArgs.mpr ⟨predicate, by simp [predicate], .head _⟩
  · intro hapart
    replace hapart : Apart (listed [.node .makeArray
      ((List.range' (1 + n) 2).map .number), .variableRef (1 + n)]) := hapart
    rw [listed_function, hn] at hapart
    have hfirst := (List.pairwise_cons.mp hapart).1
    have hsame := hfirst (Binary64.ofNat (2 ^ 53 + 1)) (.head _)
    revert hsame
    decide

/-- The table as it is written down does not hold: it leaves out what a
    table reference may carry, and the numbers of a function are doubles. -/
theorem documented_violated :
    (∃ t, (Query.generate (.standard .strict)
        (.root (.table ⟨none, "t", true⟩))).result = .ok t ∧
      ¬ t.Obeys documented) ∧
    ∃ (q : Query) (t : Term),
      (q.generate (.standard .strict)).result = .ok t ∧
      ∃ s ∈ t.nodes, s.kind = .func ∧ ¬ Apart (listed s.args) := by
  refine ⟨⟨_, rfl, fun hobeys => ?_⟩, ?_⟩
  · have hallows : (documented .table).Allows [.text "t"]
        [("use_outdated", Term.flag)] := hobeys _ (.head _)
    obtain ⟨slot, hslot, -⟩ := hallows.named.allowed _ (.head _)
    cases hslot
  · obtain ⟨q, t, ht, -, hlisted⟩ := listed_twice_beyond (.standard .strict)
    exact ⟨q, t, ht, hlisted⟩

end ChainQuery
