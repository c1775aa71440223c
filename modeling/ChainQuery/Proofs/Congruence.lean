import ChainQuery.Proofs.Equality
import ChainQuery.Proofs.Identities
import ChainQuery.Proofs.Occasions
import ChainQuery.Query.Equality

/-! # Congruence — equal expressions are translated alike

    Equality of expressions looks into literals, which compare as values,
    and stops at embedded chains, which compare by the identity of the
    embedding.  Translation respects it: from one context, expressions
    that are equal give terms that are equal, or the same error, and leave
    the same context and the same record behind.  The route:

    * equal literals have the same kinds in the same places and convert
      alike, so they are judged alike (`concurs_judge`);
    * walks that concur compose (`concurs_andThen`), so what holds of the
      parts of an expression holds of the whole (`respected_hereditary`);
    * chains embedded under one identity are one chain, whose terms are
      equal to themselves (`concurs_query`). -/

namespace ChainQuery

open Converter Walk

/-! ## Equal literals -/

namespace Value

mutual

/-- Equal values have the same kinds in the same places. -/
theorem kinds_of_same : ∀ v w : Value, v.same w = true → v.kinds = w.kinds
  | .list items, w, h => by
      cases w with
      | list items' =>
          rw [kinds, kinds, kindsOfItems_of_same items items' h]
          rfl
      | _ => cases h
  | .map entries, w, h => by
      cases w with
      | map entries' =>
          rw [kinds, kinds, kindsOfEntries_of_same entries entries' h]
          rfl
      | _ => cases h
  | .null, w, h | .bool _, w, h | .int _, w, h | .uint _, w, h
  | .float _, w, h | .text _, w, h | .blob _, w, h => by
      cases w <;> first | rfl | cases h

theorem kindsOfItems_of_same : ∀ vs ws : List Value,
    sameItems vs ws = true → kindsOfItems vs = kindsOfItems ws
  | [], [], _ => rfl
  | [], _ :: _, h => by cases h
  | _ :: _, [], h => by cases h
  | v :: vs, w :: ws, h => by
      rw [sameItems, Bool.and_eq_true] at h
      rw [kindsOfItems, kindsOfItems, kinds_of_same v w h.1,
        kindsOfItems_of_same vs ws h.2]

theorem kindsOfEntries_of_same : ∀ es fs : List (Value × Value),
    sameEntries es fs = true → kindsOfEntries es = kindsOfEntries fs
  | [], [], _ => rfl
  | [], _ :: _, h => by cases h
  | _ :: _, [], h => by cases h
  | (key, item) :: es, (key', item') :: fs, h => by
      rw [sameEntries, Bool.and_eq_true, Bool.and_eq_true] at h
      rw [kindsOfEntries, kindsOfEntries, kinds_of_same key key' h.1.1,
        kinds_of_same item item' h.1.2, kindsOfEntries_of_same es fs h.2]

end

end Value

variable {supports : Value.Kind → Bool} {config : Config}

/-- Equal literals are judged alike. -/
theorem concurs_judge {v w : Value} (h : v.same w = true) :
    Concurs Term.Same ((around supports config).judge v)
      ((around supports config).judge w) := by
  rw [judge, judge, Value.kinds_of_same v w h]
  cases (around supports config).allow w.kinds with
  | error e => exact .error e
  | ok u =>
      have hconvert : Concurs Datum.Same
          ((around supports config).convert v)
          ((around supports config).convert w) :=
        concurs_convertAt config v w 0 h
      dsimp only [bind, Except.bind]
      generalize (around supports config).convert v = r at hconvert ⊢
      generalize (around supports config).convert w = s at hconvert ⊢
      cases hconvert with
      | ok hde => exact .ok hde
      | error e => exact .error _

/-! ## Walks -/

variable {α β : Type} {R : α → α → Prop} {S : β → β → Prop}

/-- Two walks that end with related results or the same error, in the same
    context and with the same record. -/
structure Outcome.Concurs (R : α → α → Prop) (o p : Outcome α) :
    Prop where
  result : ChainQuery.Concurs R o.result p.result
  context : o.context = p.context
  notes : o.notes = p.notes

/-- From every context the walks end alike. -/
def Walk.Concurs (R : α → α → Prop) (x y : Walk α) : Prop :=
  ∀ ctx, (x ctx).Concurs R (y ctx)

theorem concurs_done {a b : α} (h : R a b) :
    Walk.Concurs R (pure a) (pure b) :=
  fun _ => ⟨.ok h, rfl, rfl⟩

/-- A walk does what it does. -/
theorem concurs_self (x : Walk α) : Walk.Concurs (· = ·) x x := by
  intro ctx
  refine ⟨?_, rfl, rfl⟩
  cases (x ctx).result with
  | ok a => exact .ok rfl
  | error e => exact .error e

theorem concurs_unsupported (u : Unsupported) :
    Walk.Concurs R (unsupported u) (unsupported u) :=
  fun _ => ⟨.error _, rfl, rfl⟩

/-- Walks that concur compose. -/
theorem concurs_andThen {x y : Walk α} {f g : α → Walk β}
    (h : Walk.Concurs R x y)
    (hf : ∀ a b, R a b → Walk.Concurs S (f a) (g b)) :
    Walk.Concurs S (x >>= f) (y >>= g) := by
  intro ctx
  show (andThen x f ctx).Concurs S (andThen y g ctx)
  rw [andThen, andThen]
  have hxy := h ctx
  generalize x ctx = o at hxy ⊢
  generalize y ctx = p at hxy ⊢
  obtain ⟨result, middle, notes⟩ := o
  obtain ⟨result', middle', notes'⟩ := p
  obtain ⟨hresult, hcontext, hnotes⟩ := hxy
  cases hcontext
  cases hnotes
  cases hresult with
  | error e => exact ⟨.error e, rfl, rfl⟩
  | @ok a b hab =>
      obtain ⟨hrest, hcontext, hnotes⟩ := hf a b hab middle
      exact ⟨hrest, hcontext, congrArg (notes ++ ·) hnotes⟩

/-- The body of a function meets the same scope on both sides. -/
theorem concurs_withParams {params : List Param} {x y : Walk α}
    (h : Walk.Concurs R x y) :
    Walk.Concurs (fun a b => a.1 = b.1 ∧ R a.2 b.2) (withParams params x)
      (withParams params y) := by
  intro ctx
  obtain ⟨hresult, hcontext, hnotes⟩ := h (ctx.enter params)
  refine ⟨?_, congrArg (·.leave params.length) hcontext, hnotes⟩
  rw [withParams, withParams]
  generalize (x (ctx.enter params)).result = r at hresult ⊢
  generalize (y (ctx.enter params)).result = s at hresult ⊢
  cases hresult with
  | ok hab => exact .ok ⟨rfl, hab⟩
  | error e => exact .error e

theorem concurs_function {params : List Param} {x y : Walk Term}
    (h : Walk.Concurs Term.Same x y) :
    Walk.Concurs Term.Same (functionWalk params x)
      (functionWalk params y) := by
  refine concurs_andThen (concurs_withParams h) ?_
  rintro ⟨ids, body⟩ ⟨ids', body'⟩ ⟨hids, hbody⟩
  replace hids : ids = ids' := hids
  subst hids
  refine concurs_done (Term.same_node _ (.cons (Term.same_node _ ?_)
    (.cons hbody .nil)))
  rw [List.forall₂_map_left_iff, List.forall₂_map_right_iff,
    List.forall₂_same]
  exact fun n _ => same_self_number n

/-! ## Expressions -/

theorem concurs_literal {v w : Value} (h : v.same w = true) :
    Walk.Concurs Term.Same ((around supports config).literal v)
      ((around supports config).literal w) := by
  intro ctx
  rw [literal_eq, literal_eq]
  refine ⟨concurs_judge h, rfl, ?_⟩
  rw [questions, questions, Value.kinds_of_same v w h,
    Value.kind_of_same h]

/-- What a chain gives is equal to itself. -/
theorem concurs_query (q : Query) :
    Walk.Concurs Term.Same (q.walk (around supports config))
      (q.walk (around supports config)) := by
  intro ctx
  refine ⟨?_, rfl, rfl⟩
  obtain ⟨hresult, -⟩ :=
    (lexical_hereditary (around supports config)).query q ctx.scope ctx.next
  replace hresult : (q.walk _ ctx).result = _ := hresult
  cases hwalk : (q.walk (around supports config) ctx).result with
  | error e => exact .error e
  | ok t =>
      -- Not every term is equal to itself, but those of chains are.
      have hself := (selfEqual_hereditary supports config).query q
      exact .ok (hself _ t ⟨ctx.next, hresult.symm.trans hwalk⟩)

/-- Equal expressions, with the same chains under the same identities,
    are walked alike. -/
def Expr.Respected (c : Converter) (e : Expr) : Prop :=
  ∀ f : Expr, e.same f = true → SharedChains e.embeds f.embeds →
    Walk.Concurs Term.Same (e.walk c) (f.walk c)

variable {c : Converter}

theorem length_of_sameExprs {es fs : List Expr}
    (h : sameExprs es fs = true) : es.length = fs.length := by
  induction es generalizing fs with
  | nil =>
      cases fs with
      | nil => rfl
      | cons f fs => cases h
  | cons e es ih =>
      cases fs with
      | nil => cases h
      | cons f fs =>
          rw [sameExprs, Bool.and_eq_true] at h
          rw [List.length_cons, List.length_cons, ih h.2]

theorem concurs_items {es fs : List Expr}
    (hes : ∀ e ∈ es, e.Respected c) (h : sameExprs es fs = true)
    (hchains : SharedChains (embedsOfItems es) (embedsOfItems fs)) :
    Walk.Concurs (List.Forall₂ Term.Same) (walkItems c es)
      (walkItems c fs) := by
  induction es generalizing fs with
  | nil =>
      cases fs with
      | nil => exact concurs_done .nil
      | cons f fs => cases h
  | cons e es ih =>
      cases fs with
      | nil => cases h
      | cons f fs =>
          rw [sameExprs, Bool.and_eq_true] at h
          obtain ⟨he, hes⟩ := List.forall_mem_cons.mp hes
          obtain ⟨hfirst, hrest⟩ := shared_append hchains
          exact concurs_andThen (he f h.1 hfirst) fun _ _ ht =>
            concurs_andThen (ih hes h.2 hrest) fun _ _ hts =>
              concurs_done (.cons ht hts)

theorem concurs_members {ms ns : List (String × Expr)}
    (hms : ∀ m ∈ ms, m.2.Respected c) (h : sameMembers ms ns = true)
    (hchains : SharedChains (embedsOfMembers ms) (embedsOfMembers ns))
    {done done' : List (String × Term)}
    (hdone : Entries.Related Term.Same done done') :
    Walk.Concurs (Entries.Related Term.Same) (walkMembers c ms done)
      (walkMembers c ns done') := by
  induction ms generalizing ns done done' with
  | nil =>
      cases ns with
      | nil => exact concurs_done hdone
      | cons n ns => cases h
  | cons m ms ih =>
      cases ns with
      | nil => cases h
      | cons n ns =>
          obtain ⟨name, e⟩ := m
          obtain ⟨name', f⟩ := n
          rw [sameMembers, Bool.and_eq_true, Bool.and_eq_true,
            beq_iff_eq] at h
          obtain ⟨⟨rfl, he⟩, hrest⟩ := h
          obtain ⟨hrespected, hms⟩ := List.forall_mem_cons.mp hms
          obtain ⟨hfirst, hothers⟩ := shared_append hchains
          refine concurs_andThen (hrespected f he hfirst) fun t u ht => ?_
          rw [← Entries.has_of_related hdone name]
          by_cases hname : Entries.has name done = true
          · rw [if_pos hname, if_pos hname]
            exact concurs_unsupported _
          · rw [if_neg hname, if_neg hname]
            exact ih hms hrest hothers (Entries.related_put hdone name ht)

/-- Equality is respected from the parts of an expression to the whole. -/
theorem respected_hereditary (supports : Value.Kind → Bool)
    (config : Config) :
    Hereditary (Expr.Respected (around supports config)) fun _ => True where
  param p f h hchains := by
    cases f with
    | param p' =>
        have hp : p = p' := beq_iff_eq.mp h
        subst hp
        refine concurs_andThen (concurs_self _) fun id _ hid => ?_
        subst hid
        exact concurs_done
          (Term.same_node _ (.cons (same_self_number id) .nil))
    | _ => cases h
  literal v f h hchains := by
    cases f with
    | literal w => exact concurs_literal h
    | _ => cases h
  field e name he f h hchains := by
    cases f with
    | field e' name' =>
        rw [Expr.same, Bool.and_eq_true, beq_iff_eq] at h
        obtain ⟨hsame, rfl⟩ := h
        exact concurs_andThen (he e' hsame hchains) fun _ _ ht =>
          concurs_done (Term.same_node _
            (.cons ht (.cons (same_self_text name) .nil)))
    | _ => cases h
  compare op a b ha hb f h hchains := by
    cases f with
    | compare op' a' b' =>
        rw [Expr.same, Bool.and_eq_true, Bool.and_eq_true,
          beq_iff_eq] at h
        obtain ⟨⟨rfl, hleft⟩, hright⟩ := h
        obtain ⟨hfirst, hsecond⟩ := shared_append hchains
        exact concurs_andThen (ha a' hleft hfirst) fun _ _ ht =>
          concurs_andThen (hb b' hright hsecond) fun _ _ hu =>
            concurs_done (Term.same_node _ (.cons ht (.cons hu .nil)))
    | _ => cases h
  arith op a b ha hb f h hchains := by
    cases f with
    | arith op' a' b' =>
        rw [Expr.same, Bool.and_eq_true, Bool.and_eq_true,
          beq_iff_eq] at h
        obtain ⟨⟨rfl, hleft⟩, hright⟩ := h
        obtain ⟨hfirst, hsecond⟩ := shared_append hchains
        exact concurs_andThen (ha a' hleft hfirst) fun _ _ ht =>
          concurs_andThen (hb b' hright hsecond) fun _ _ hu =>
            concurs_done (Term.same_node _ (.cons ht (.cons hu .nil)))
    | _ => cases h
  all es hes f h hchains := by
    cases f with
    | all fs =>
        exact concurs_andThen (concurs_items hes h hchains) fun _ _ hts =>
          concurs_done (Term.same_node _ hts)
    | _ => cases h
  any es hes f h hchains := by
    cases f with
    | any fs =>
        exact concurs_andThen (concurs_items hes h hchains) fun _ _ hts =>
          concurs_done (Term.same_node _ hts)
    | _ => cases h
  not e he f h hchains := by
    cases f with
    | not e' =>
        exact concurs_andThen (he e' h hchains) fun _ _ ht =>
          concurs_done (Term.same_node _ (.cons ht .nil))
    | _ => cases h
  array es hes f h hchains := by
    cases f with
    | array fs =>
        exact concurs_andThen (concurs_items hes h hchains) fun _ _ hts =>
          concurs_done (Term.same_node _ hts)
    | _ => cases h
  object ms hms f h hchains := by
    cases f with
    | object ns =>
        exact concurs_andThen (concurs_members hms h hchains .nil)
          fun _ _ hes =>
            concurs_done (Term.same_apply.mpr ⟨⟨rfl, .nil⟩, hes⟩)
    | _ => cases h
  call name es hes f h hchains := by
    cases f with
    | call name' fs =>
        rw [Expr.same, Bool.and_eq_true, beq_iff_eq] at h
        obtain ⟨rfl, hitems⟩ := h
        -- The number of arguments is checked before they are walked.
        show Walk.Concurs Term.Same (RemoteCall.check name es.length >>= _)
          (RemoteCall.check name fs.length >>= _)
        rw [length_of_sameExprs hitems]
        refine concurs_andThen (concurs_self _) fun kind _ hkind => ?_
        subst hkind
        exact concurs_andThen (concurs_items hes hitems hchains)
          fun _ _ hts => concurs_done (Term.same_node _ hts)
    | _ => cases h
  subquery i q _ f h hchains := by
    cases f with
    | subquery j r =>
        have hij : i = j := beq_iff_eq.mp h
        subst hij
        have hqr : q = r :=
          hchains i q r (List.mem_singleton_self _)
            (List.mem_singleton_self _)
        subst hqr
        exact concurs_query q
    | _ => cases h
  root _ := trivial
  indexCreateWith _ _ _ _ := trivial
  step _ _ _ := trivial
  rowStep _ _ _ _ _ := trivial
  orderBy _ _ _ _ _ _ := trivial
  union _ _ _ _ := trivial
  reduce _ _ _ _ _ := trivial
  groupBy _ _ _ _ _ := trivial
  groupedMapReduce _ _ _ _ _ _ _ _ _ := trivial
  join _ _ _ _ _ _ _ := trivial
  eqJoin _ _ _ _ _ _ := trivial

/-- **Equal expressions are translated alike.**  Under the standard
    conversion behind any choice of kinds, with any settings and from any
    context, two expressions that are equal both have terms, which are
    equal, or fail with the same error; they leave the same context
    behind, the next number included, and put the same questions and
    events on record.  The same goes for functions.  It takes that one
    identity is of one chain on both sides, and whatever a session
    captures, after whatever requests, meets that. -/
theorem equality_respected (supports : Value.Kind → Bool)
    (config : Config) :
    (∀ (a b : Expr) (ctx : Context), a.same b = true →
      SharedChains a.embeds b.embeds →
        (a.walk (around supports config) ctx).Concurs Term.Same
          (b.walk (around supports config) ctx)) ∧
    (∀ (f g : Func) (ctx : Context), f.same g = true →
      SharedChains f.body.embeds g.body.embeds →
        (f.walk (around supports config) ctx).Concurs Term.Same
          (g.walk (around supports config) ctx)) ∧
    ∀ (c : Converter) (requests : List Session.Request),
      let s := (Session.start c).after requests
      (∀ (d d' : Draft.Expr) a b middle rest,
        d.capture ⟨[], s.shelf⟩ s.supply = (.ok a, middle) →
        d'.capture ⟨[], s.shelf⟩ middle = (.ok b, rest) →
          SharedChains a.embeds b.embeds) ∧
      ∀ (d d' : Draft.Func) f g middle rest,
        d.capture ⟨[], s.shelf⟩ s.supply = (.ok f, middle) →
        d'.capture ⟨[], s.shelf⟩ middle = (.ok g, rest) →
          SharedChains f.body.embeds g.body.embeds := by
  have hrespected := respected_hereditary supports config
  refine ⟨fun a b ctx h hchains => hrespected.expr a b h hchains ctx,
    fun f g ctx h hchains => ?_, fun c requests => ?_⟩
  · obtain ⟨params, body⟩ := f
    obtain ⟨params', body'⟩ := g
    rw [Func.same, Bool.and_eq_true, beq_iff_eq] at h
    obtain ⟨hparams, hbody⟩ := h
    replace hparams : params = params' := hparams
    subst hparams
    exact concurs_function (hrespected.expr body body' hbody hchains) ctx
  · intro s
    have hs : s.Sharing :=
      Session.sharing_after (Session.sharing_start c) requests
    refine ⟨fun d d' a b _ _ ha hb => ?_, fun d d' f g _ _ hf hg => ?_⟩
    · exact Session.shared_of_captured hs
        (Draft.advances_hereditary.expr d)
        ((Draft.mints_hereditary _).expr d)
        (Draft.advances_hereditary.expr d')
        ((Draft.mints_hereditary _).expr d') ha hb
    · exact Session.shared_of_captured hs (Draft.advances_func d)
        (Draft.mints_func _ d) (Draft.advances_func d')
        (Draft.mints_func _ d') hf hg

/-- The players of the team of a row. -/
def teammates (row : Param) : Query :=
  .rowStep (.root (.table ⟨none, "players", false⟩)) .filter
    (.mk ⟨9⟩ (.compare .eq (.field (.param ⟨9⟩) "team")
      (.field (.param row) "team")))

/-- Whether a row scores above a bar, in a team of some sizes, one of them
    the bar. -/
def above (bar : Value) : Func :=
  ⟨[⟨1⟩], .all
    [.compare .gt (.field (.param ⟨1⟩) "score") (.literal bar),
     .call "contains" [.literal (.map [(.text "sizes", .list [bar])]),
       .call "count" [.subquery 4 (teammates ⟨1⟩)]]]⟩

/-- The number of all players. -/
def playerCount : Draft.Expr :=
  .call "count" [.subquery (.mk (.root (.table ⟨none, "players", false⟩))
    [])]

/-- The two zeros are equal bars; so are two lists of a zero and a blob,
    which has no wire form; and a stored expression is equal to itself. -/
theorem equality_respected_zeros :
    let c := around (fun kind => kind != .blob) .strict
    let zero : Value := .float ⟨0⟩
    let negative : Value := .float ⟨0x8000000000000000⟩
    (∃ t u, ((above zero).walk c ⟨5, []⟩).result = .ok t ∧
      ((above negative).walk c ⟨5, []⟩).result = .ok u ∧
        t.same u = true) ∧
    (∃ e,
      ((above (.list [zero, .blob []])).walk c ⟨5, []⟩).result
        = .error e ∧
      ((above (.list [negative, .blob []])).walk c ⟨5, []⟩).result
        = .error e) ∧
    let s := (Session.start c).after [.expr playerCount (some "size")]
    ∃ a rest, (Draft.Expr.stored "size").capture ⟨[], s.shelf⟩ s.supply
      = (.ok a, rest) ∧ SharedChains a.embeds a.embeds := by
  intro c zero negative
  obtain ⟨-, hfunc, hsession⟩ :=
    equality_respected (fun kind => kind != .blob) .strict
  have hchains : ∀ v w : Value,
      SharedChains (above v).body.embeds (above w).body.embeds := by
    intro v w i q r hq hr
    cases List.mem_singleton.mp hq
    cases List.mem_singleton.mp hr
    rfl
  have hzeros := hfunc (above zero) (above negative) ⟨5, []⟩ (by decide)
    (hchains _ _)
  have hblobs := hfunc (above (.list [zero, .blob []]))
    (above (.list [negative, .blob []])) ⟨5, []⟩ (by decide)
    (hchains _ _)
  refine ⟨⟨_, _, rfl, rfl, ?_⟩, ⟨_, rfl, ?_⟩, _, _, rfl, ?_⟩
  · cases hzeros.result with
    | ok hsame => exact hsame
  · have hresult := hblobs.result
    generalize ((above (.list [negative, .blob []])).walk c
      ⟨5, []⟩).result = r at hresult ⊢
    cases hresult with
    | error e => rfl
  · obtain ⟨hexpr, -⟩ := hsession c [.expr playerCount (some "size")]
    exact hexpr (.stored "size") (.stored "size") _ _ _ _ rfl rfl

end ChainQuery
