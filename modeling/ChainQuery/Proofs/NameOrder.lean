import ChainQuery.Draft.Term
import ChainQuery.Proofs.Charts
import ChainQuery.Proofs.KeyOrder

/-! # Name order — the names in a term are in order

    A node comes without names, and names are only ever put, one at a time.
    So wherever a term comes from, its names are in order at every depth.
    The route:

    * being in order passes from the arguments of a node to the node
      (`ordered_apply`), and to a term from the one with a name less
      (`ordered_withOptarg`);
    * generated terms are made of these two (`ordered_hereditary`,
      `ordered_job`), and so are terms written by hand (`ordered_read`). -/

namespace ChainQuery

open Term Translation

variable {kind : Kind} {args : List Term} {optargs : List (String × Term)}
  {t value : Term}

/-! ## Nodes and names -/

/-- At every depth the names of a term are in order. -/
def Term.Ordered (t : Term) : Prop :=
  ∀ s ∈ t.nodes, Entries.Sorted s.optargs

theorem mem_nodes_apply {s : Term} : s ∈ (Term.apply kind args optargs).nodes
    ↔ s = .apply kind args optargs ∨ (∃ t ∈ args, s ∈ t.nodes) ∨
      ∃ e ∈ optargs, s ∈ e.2.nodes := by
  rw [Term.nodes, List.mem_cons, List.mem_append, mem_nodesOfArgs,
    mem_nodesOfNamed]

theorem ordered_datum (d : Datum) : (Term.datum d).Ordered := by
  intro s hs
  rw [List.mem_singleton.mp hs]
  exact .nil

/-- An operation is in order when its own names are, and its arguments. -/
theorem ordered_apply : (Term.apply kind args optargs).Ordered ↔
    Entries.Sorted optargs ∧ (∀ t ∈ args, t.Ordered) ∧
      ∀ e ∈ optargs, e.2.Ordered := by
  constructor
  · intro h
    refine ⟨h _ (mem_nodes_apply.mpr (Or.inl rfl)), ?_, ?_⟩
    · intro t ht s hs
      exact h s (mem_nodes_apply.mpr (Or.inr (Or.inl ⟨t, ht, hs⟩)))
    · intro e he s hs
      exact h s (mem_nodes_apply.mpr (Or.inr (Or.inr ⟨e, he, hs⟩)))
  · rintro ⟨hsorted, hargs, hnamed⟩ s hs
    rcases mem_nodes_apply.mp hs with rfl | ⟨t, ht, hs⟩ | ⟨e, he, hs⟩
    · exact hsorted
    · exact hargs t ht s hs
    · exact hnamed e he s hs

/-- The names at the top are in order. -/
theorem Term.Ordered.sorted (h : t.Ordered) : Entries.Sorted t.optargs := by
  cases t with
  | datum d => exact .nil
  | apply kind args optargs => exact (ordered_apply.mp h).1

theorem ordered_node (kind : Kind) (h : ∀ t ∈ args, t.Ordered) :
    (Term.node kind args).Ordered :=
  ordered_apply.mpr ⟨.nil, h, List.forall_mem_nil _⟩

/-- A name that is put leaves the names in order. -/
theorem ordered_withOptarg (h : t.Ordered) (name : String)
    (hvalue : value.Ordered) : (t.withOptarg name value).Ordered := by
  cases t with
  | datum d => exact h
  | apply kind args optargs =>
      obtain ⟨hsorted, hargs, hnamed⟩ := ordered_apply.mp h
      refine ordered_apply.mpr
        ⟨Entries.sorted_put value hsorted, hargs, ?_⟩
      intro e he
      rcases Entries.mem_put he with rfl | hmem
      · exact hvalue
      · exact hnamed e hmem

theorem ordered_withOptional (h : t.Ordered) (name : String)
    {value : Option Term} (hvalue : ∀ v ∈ value, v.Ordered) :
    (t.withOptional name value).Ordered := by
  cases value with
  | none => exact h
  | some v => exact ordered_withOptarg h name (hvalue v rfl)

theorem ordered_withFlag (h : t.Ordered) (name : String) (on : Bool) :
    (t.withFlag name on).Ordered := by
  cases on with
  | false => exact h
  | true => exact ordered_withOptarg h name (ordered_datum _)

theorem ordered_withText (h : t.Ordered) (name : String)
    (s : Option String) : (t.withText name s).Ordered := by
  cases s with
  | none => exact h
  | some s => exact ordered_withOptarg h name (ordered_datum _)

theorem ordered_attach (h : t.Ordered) (s : Step) :
    (s.attach t).Ordered := by
  cases s with
  | get key keyMember => exact ordered_withText h _ _
  | getAll key index => exact ordered_withText h _ _
  | between left right index lb rb =>
      exact ordered_withOptarg (ordered_withOptarg
        (ordered_withText h _ _) _ (ordered_datum _)) _ (ordered_datum _)
  | replace v nonAtomic => exact ordered_withFlag h _ _
  | replaceAndReturn v nonAtomic =>
      exact ordered_withOptarg (ordered_withFlag h _ _) _ (ordered_datum _)
  | deleteAndReturn => exact ordered_withOptarg h _ (ordered_datum _)
  | _ => exact h

theorem ordered_attachRow (h : t.Ordered) (s : RowStep) :
    (s.attach t).Ordered := by
  cases s with
  | update nonAtomic => exact ordered_withFlag h _ _
  | updateAndReturn nonAtomic =>
      exact ordered_withOptarg (ordered_withFlag h _ _) _ (ordered_datum _)
  | _ => exact h

/-! ## Generated terms -/

/-- Every term that a part gives is in order. -/
def Part.Ordered (x : Part) : Prop :=
  ∀ env t, Gives (x env) t → t.Ordered

variable {c : Converter}

theorem ordered_const (h : t.Ordered) : Part.Ordered (.const t) := by
  intro env u hu
  cases gives_pure hu
  exact h

theorem ordered_judged {v : Value} (h : c.judge v = .ok t) : t.Ordered := by
  obtain ⟨d, -, rfl⟩ := judge_leaf h
  exact ordered_datum d

theorem ordered_literal (v : Value) : Part.Ordered (.literal c v) :=
  fun _ _ h => ordered_judged (gives_ofExcept h)

theorem names_of_gives {env : Environment} {named : List (String × Part)}
    {optargs : List (String × Term)} (h : NamedGive env named optargs) :
    named.map Prod.fst = optargs.map Prod.fst := by
  induction h with
  | nil => rfl
  | cons hfirst _ ih => rw [List.map_cons, List.map_cons, hfirst.1, ih]

/-- A node is in order when its parts are, and the names it comes with. -/
theorem ordered_assembled {parts : List Part}
    {named : List (String × Part)} {x : Part}
    (h : Assembled kind parts named x) (hparts : ∀ p ∈ parts, p.Ordered)
    (hsorted : Entries.Sorted named) (hnamed : ∀ m ∈ named, m.2.Ordered) :
    x.Ordered := by
  intro env t ht
  obtain ⟨args, optargs, rfl, hargs, hoptargs⟩ := h env t ht
  refine ordered_apply.mpr ⟨?_, ?_, ?_⟩
  · have hkeys := Entries.keys_pairwise hsorted
    rw [names_of_gives hoptargs] at hkeys
    exact List.pairwise_map.mp hkeys
  · intro t ht
    obtain ⟨x, hx, hgives⟩ := forall₂_mem_right hargs ht
    exact hparts x hx env t hgives
  · intro e he
    obtain ⟨m, hm, -, hgives⟩ := forall₂_mem_right hoptargs he
    exact hnamed m hm env e.2 hgives

/-- A node without names of its own. -/
theorem ordered_nameless {parts : List Part} {x : Part}
    (h : Assembled kind parts [] x) (hparts : ∀ p ∈ parts, p.Ordered) :
    x.Ordered :=
  ordered_assembled h hparts .nil (List.forall_mem_nil _)

/-- Names and flags that a term of its own could have. -/
theorem ordered_names {names : List (String × Term)}
    (h : (Term.apply kind args names).Ordered) :
    Entries.Sorted (constParts names) ∧
      ∀ m ∈ constParts names, m.2.Ordered := by
  obtain ⟨hsorted, -, hnamed⟩ := ordered_apply.mp h
  refine ⟨List.pairwise_map.mpr hsorted, ?_⟩
  intro m hm
  obtain ⟨e, he, rfl⟩ := List.mem_map.mp hm
  exact ordered_const (hnamed e he)

theorem ordered_base (base : Option Value) :
    Entries.Sorted (basePart c base) ∧
      ∀ m ∈ basePart c base, m.2.Ordered := by
  cases base with
  | none => exact ⟨.nil, List.forall_mem_nil _⟩
  | some v =>
      exact ⟨List.pairwise_singleton _ _,
        List.forall_mem_singleton.mpr (ordered_literal v)⟩

theorem ordered_function {f : Func} (h : (f.body.part c).Ordered) :
    (f.part c).Ordered := by
  intro env t ht
  obtain ⟨first, body, hbody, rfl⟩ := gives_function ht
  refine ordered_node _ (List.forall_mem_cons.mpr
    ⟨ordered_node _ ?_, List.forall_mem_singleton.mpr (h _ _ hbody)⟩)
  intro t ht
  obtain ⟨id, -, rfl⟩ := List.mem_map.mp ht
  exact ordered_datum _

theorem ordered_database (name : String) : (databaseTerm name).Ordered :=
  ordered_node _ (List.forall_mem_singleton.mpr (ordered_datum _))

theorem ordered_table (table : Table) : table.term.Ordered := by
  refine ordered_withFlag (ordered_node _ ?_) _ _
  cases table.db with
  | none => exact List.forall_mem_singleton.mpr (ordered_datum _)
  | some db =>
      exact List.forall_mem_cons.mpr ⟨ordered_database db,
        List.forall_mem_singleton.mpr (ordered_datum _)⟩

theorem ordered_root (r : Root) :
    (Query.part c (.root r)).Ordered := by
  intro env t ht
  have hjudge : r.judge c = .ok t := gives_ofExcept ht
  cases r with
  | literal v => exact ordered_judged hjudge
  | literalSeq vs =>
      obtain ⟨items, hitems, hok⟩ := bind_eq_ok.mp hjudge
      cases hok
      refine ordered_node _ ?_
      intro t ht
      obtain ⟨v, -, hv⟩ := forall₂_mem_right (judgeAll_ok hitems) ht
      exact ordered_judged hv
  | insert table v upsert =>
      obtain ⟨value, hvalue, hok⟩ := bind_eq_ok.mp hjudge
      cases hok
      refine ordered_withFlag (ordered_node _ ?_) _ _
      simp [ordered_table table, ordered_judged hvalue]
  | table table =>
      cases hjudge
      exact ordered_table table
  | dbList | now =>
      cases hjudge
      exact ordered_node _ (List.forall_mem_nil _)
  | db name | dbCreate name | dbDrop name =>
      cases hjudge
      exact ordered_node _ (by simp [ordered_datum, text])
  | tableList db | tableCreate db name | tableDrop db name =>
      cases hjudge
      exact ordered_node _ (by simp [ordered_database, ordered_datum, text])
  | indexList table | indexCreate table name | indexDrop table name =>
      cases hjudge
      exact ordered_node _ (by simp [ordered_table, ordered_datum, text])

/-- Whatever members are put, the names they are put under are in order. -/
theorem sorted_members {env : Environment} {ms : List (String × Expr)}
    {done out : List (String × Term)} (hdone : Entries.Sorted done)
    (h : Gives (translateMembers c env ms done) out) :
    Entries.Sorted out := by
  induction ms generalizing done with
  | nil =>
      cases gives_pure h
      exact hdone
  | cons m ms ih =>
      obtain ⟨name, e⟩ := m
      rw [translateMembers] at h
      obtain ⟨t, -, h⟩ := gives_bind h
      by_cases hd : Entries.has name done = true
      · rw [if_pos hd] at h
        exact (gives_fail h).elim
      · rw [if_neg hd] at h
        exact ih (Entries.sorted_put t hdone) h

theorem ordered_object {ms : List (String × Expr)}
    (h : ∀ m ∈ ms, (m.2.part c).Ordered) :
    (Expr.part c (.object ms)).Ordered := by
  intro env t ht
  obtain ⟨out, ts, rfl, hperm, hts⟩ := gives_object c ht
  obtain ⟨out', hout, hpure⟩ := gives_bind ht
  cases gives_pure hpure
  refine ordered_apply.mpr
    ⟨sorted_members .nil hout, List.forall_mem_nil _, ?_⟩
  intro e he
  obtain ⟨part, hpart, -, hgives⟩ :=
    forall₂_mem_right hts (hperm.mem_iff.mp he)
  obtain ⟨m, hm, rfl⟩ := List.mem_map.mp hpart
  exact h m hm env e.2 hgives

theorem ordered_judgeMember (use : SelectorUse) (f : RowFunc) :
    Part.Ordered (.result (f.judgeMember use)) := by
  intro env t ht
  obtain ⟨name, -, rfl⟩ := judgeMember_leaf (gives_ofExcept ht)
  exact ordered_datum _

theorem ordered_reduction (r : Reduction) :
    Part.Ordered (.result r.judge) := by
  intro env t ht
  have hobject : (Term.node .makeObj []).Ordered :=
    ordered_node _ (List.forall_mem_nil _)
  have hjudge : r.judge = .ok t := gives_ofExcept ht
  cases r with
  | count =>
      cases hjudge
      exact ordered_withOptarg hobject _ (ordered_datum _)
  | sum f | average f =>
      obtain ⟨leaf, hleaf, hok⟩ := bind_eq_ok.mp hjudge
      cases hok
      obtain ⟨name, -, rfl⟩ := judgeMember_leaf hleaf
      exact ordered_withOptarg hobject _ (ordered_datum _)

theorem ordered_key {k : SortKey} (h : (k.body.part c).Ordered) :
    (k.part c).Ordered := by
  obtain ⟨f, direction⟩ := k
  refine ordered_nameless (assembled_key c f direction)
    (List.forall_mem_singleton.mpr ?_)
  intro env t ht
  replace ht : Gives (nameOrTranslate f.toFunc.memberName? _) t := ht
  cases hname : f.toFunc.memberName? with
  | some name =>
      rw [hname] at ht
      cases gives_pure ht
      exact ordered_datum _
  | none =>
      rw [hname] at ht
      exact ordered_function h env t (rowFunc_gives ht)

/-- Generated terms are in order, form by form. -/
theorem ordered_hereditary (c : Converter) :
    Hereditary (fun e => (e.part c).Ordered)
      (fun q => (q.part c).Ordered) where
  param p env t ht := by
    obtain ⟨id, -, rfl⟩ := gives_param ht
    exact ordered_node _ (List.forall_mem_singleton.mpr (ordered_datum _))
  literal v := ordered_literal v
  field e name he :=
    ordered_nameless (assembled_field c e name)
      (by simp [he, ordered_const (ordered_datum _), text])
  compare op a b ha hb :=
    ordered_nameless (assembled_compare c op a b) (by simp [ha, hb])
  arith op a b ha hb :=
    ordered_nameless (assembled_arith c op a b) (by simp [ha, hb])
  all es hes :=
    ordered_nameless (assembled_all c es) (List.forall_mem_map.mpr hes)
  any es hes :=
    ordered_nameless (assembled_any c es) (List.forall_mem_map.mpr hes)
  not e he :=
    ordered_nameless (assembled_not c e) (List.forall_mem_singleton.mpr he)
  array es hes :=
    ordered_nameless (assembled_array c es) (List.forall_mem_map.mpr hes)
  object _ hms := ordered_object hms
  call _ _ hes env t ht :=
    ordered_nameless (assembled_call c (call_judged c ht))
      (List.forall_mem_map.mpr hes) env t ht
  subquery _ _ hq := hq
  root := ordered_root
  indexCreateWith table name key hkey :=
    ordered_nameless (assembled_indexCreateWith c table name key)
      (by simp [ordered_const (ordered_table table),
        ordered_const (ordered_datum _), text, ordered_function hkey])
  step q s hq :=
    have hnames := ordered_attach
      (ordered_node s.kind (List.forall_mem_nil _)) s
    have ⟨hsorted, hnamed⟩ := ordered_names (attach_step s [] ▸ hnames)
    ordered_assembled (assembled_step c q s)
      (List.forall_mem_cons.mpr ⟨hq, List.forall_mem_map.mpr
        fun v _ => ordered_literal v⟩) hsorted hnamed
  rowStep q s f hq hf :=
    have hnames := ordered_attachRow
      (ordered_node s.kind (List.forall_mem_nil _)) s
    have ⟨hsorted, hnamed⟩ := ordered_names (attach_rowStep s [] ▸ hnames)
    ordered_assembled (assembled_rowStep c q s f)
      (by simp [hq, ordered_function hf]) hsorted hnamed
  orderBy q first others hq hfirst hothers :=
    ordered_nameless (assembled_orderBy c q first others)
      (List.forall_mem_cons.mpr ⟨hq, List.forall_mem_map.mpr
        (List.forall_mem_cons.mpr ⟨ordered_key hfirst,
          fun k hk => ordered_key (hothers k hk)⟩)⟩)
  union a b ha hb :=
    ordered_nameless (assembled_union c a b) (by simp [ha, hb])
  reduce q f base hq hf :=
    ordered_assembled (assembled_reduce c q f base)
      (by simp [hq, ordered_function hf]) (ordered_base base).1
      (ordered_base base).2
  groupBy q reduction key hq hkey :=
    ordered_nameless (assembled_groupBy c q reduction key)
      (by simp [hq, ordered_function hkey, ordered_reduction])
  groupedMapReduce q g m r base hq hg hm hr :=
    ordered_assembled (assembled_groupedMapReduce c q g m r base)
      (by simp [hq, ordered_function hg, ordered_function hm,
        ordered_function hr]) (ordered_base base).1 (ordered_base base).2
  join kind a b f ha hb hf :=
    ordered_nameless (assembled_join c kind a b f)
      (by simp [ha, hb, ordered_function hf])
  eqJoin a member b index ha hb := by
    refine ordered_assembled (assembled_eqJoin c a member b index)
      (by simp [ha, hb, ordered_judgeMember]) ?_ ?_
    · cases index with
      | none => exact .nil
      | some name => exact List.pairwise_singleton _ _
    · intro m hm
      obtain ⟨e, he, rfl⟩ := List.mem_map.mp hm
      obtain ⟨name, -, rfl⟩ := List.mem_map.mp he
      exact ordered_const (ordered_datum _)

/-- **Every generated term has its names in order**, at every depth and in
    every context, whatever the converter does. -/
theorem ordered_job (c : Converter) (job : Job) (ctx : Context)
    (h : (job.walk c ctx).result = .ok t) : t.Ordered := by
  obtain ⟨hresult, -⟩ := follows_job c job ctx.scope ctx.next
  rw [hresult] at h
  have hgives : Gives (job.translate c (.ofScope ctx.scope)) t :=
    ⟨ctx.next, h⟩
  have hordered := ordered_hereditary c
  cases job with
  | query q => exact hordered.query q _ t hgives
  | func f => exact ordered_function (hordered.expr f.body) _ t hgives
  | expr e => exact hordered.expr e _ t hgives
  | literal v => exact ordered_judged (gives_ofExcept hgives)

/-! ## Written terms -/

variable {terms : List (String × Term)}

mutual

/-- A term written by hand is in order where the stored ones are. -/
theorem ordered_read (h : ∀ e ∈ terms, e.2.Ordered) :
    ∀ (d : Draft.Term) (t : Term), d.read terms = .ok t → t.Ordered
  | .datum d, t, ht => by
      cases ht
      exact ordered_datum d
  | .apply kind args, t, ht => by
      obtain ⟨ts, hts, hok⟩ := bind_eq_ok.mp ht
      cases hok
      exact ordered_node kind (ordered_readArgs h args ts hts)
  | .stored name, t, ht => by
      rw [Draft.Term.read] at ht
      cases hlookup : terms.lookup name with
      | none =>
          rw [hlookup] at ht
          cases ht
      | some u =>
          rw [hlookup] at ht
          cases ht
          obtain ⟨before, after, hterms, -⟩ :=
            List.lookup_eq_some_iff.mp hlookup
          exact h (name, t) (by simp [hterms])
  | .withOptarg d name value, t, ht => by
      obtain ⟨u, hu, ht⟩ := bind_eq_ok.mp ht
      obtain ⟨v, hv, hok⟩ := bind_eq_ok.mp ht
      cases hok
      exact ordered_withOptarg (ordered_read h d u hu) name
        (ordered_read h value v hv)
  | .withOptional d name value, t, ht => by
      obtain ⟨u, hu, ht⟩ := bind_eq_ok.mp ht
      obtain ⟨v, hv, hok⟩ := bind_eq_ok.mp ht
      cases hok
      exact ordered_withOptional (ordered_read h d u hu) name
        (ordered_readOptional h value v hv)
termination_by structural d => d

theorem ordered_readArgs (h : ∀ e ∈ terms, e.2.Ordered) :
    ∀ (ds : List Draft.Term) (ts : List Term),
      Draft.readArgs terms ds = .ok ts → ∀ t ∈ ts, t.Ordered
  | [], ts, hts => by
      cases hts
      exact List.forall_mem_nil _
  | d :: ds, ts, hts => by
      obtain ⟨u, hu, hts⟩ := bind_eq_ok.mp hts
      obtain ⟨us, hus, hok⟩ := bind_eq_ok.mp hts
      cases hok
      exact List.forall_mem_cons.mpr
        ⟨ordered_read h d u hu, ordered_readArgs h ds us hus⟩
termination_by structural ds => ds

theorem ordered_readOptional (h : ∀ e ∈ terms, e.2.Ordered) :
    ∀ (d : Option Draft.Term) (value : Option Term),
      Draft.readOptional terms d = .ok value → ∀ v ∈ value, v.Ordered
  | none, value, hvalue => by
      cases hvalue
      rintro v ⟨⟩
  | some d, value, hvalue => by
      obtain ⟨u, hu, hok⟩ := bind_eq_ok.mp hvalue
      cases hok
      rintro v ⟨⟩
      exact ordered_read h d u hu
termination_by structural d => d

end

end ChainQuery
