import ChainQuery.Proofs.Accepted
import ChainQuery.Proofs.Relabeling
import ChainQuery.Term.Fingerprint

/-! # Respelling — one draft captured at two points

    Parameters are numbered as they are made, so the same draft captured
    at two points gives two chains.  They differ in these numbers only:
    whatever relabels the first point to the second relabels the first
    chain to the second (`Copies`).  The route:

    * what is made at one point is made at the other
      (`copies_make`, `copies_identity`), and what is known at one is known
      at the other (`copies_resolve`, `copies_stored`);
    * a relabeled chain has the shape it had (`shape_relabel`), so a step
      is offered at both or at none (`copies_action`);
    * a draft that is complete in itself can be captured anywhere
      (`carries_shift`), so it always generates the same. -/

namespace ChainQuery

open Draft Draft.Capture

variable {r : Relabeling}

/-! ## Chains with other parameters -/

theorem relabelKeys_append (ks ls : List SortKey) :
    relabelKeys r (ks ++ ls) = relabelKeys r ks ++ relabelKeys r ls := by
  induction ks with
  | nil => rfl
  | cons k ks ih =>
      rw [List.cons_append, relabelKeys, ih, relabelKeys, List.cons_append]

/-- Parameters have no part in the shape of a chain. -/
theorem shape_relabel (q : ChainQuery.Query) :
    (q.relabel r).shape = q.shape := by
  cases q with
  | step source s =>
      show s.shape (source.relabel r).shape = s.shape source.shape
      rw [shape_relabel source]
  | rowStep source s f =>
      show s.shape (source.relabel r).shape = s.shape source.shape
      rw [shape_relabel source]
  | orderBy source first others =>
      show Shape.sequence (source.relabel r).shape.item = _
      rw [shape_relabel source]
      rfl
  | union first second =>
      show Shape.sequence (first.relabel r).shape.item = _
      rw [shape_relabel first]
      rfl
  | join kind left right f =>
      show Shape.sequence (.pair (left.relabel r).shape.item
        (right.relabel r).shape.item) = _
      rw [shape_relabel left, shape_relabel right]
      rfl
  | eqJoin left member right index =>
      show Shape.sequence (.pair (left.relabel r).shape.item
        (right.relabel r).shape.item) = _
      rw [shape_relabel left, shape_relabel right]
      rfl
  | root | indexCreateWith | reduce | groupBy | groupedMapReduce => rfl
termination_by structural q

variable {q made : ChainQuery.Query}

theorem asTable_relabel : (q.relabel r).asTable? = q.asTable? := by
  cases q <;> rfl

theorem isOrdered_relabel : (q.relabel r).isOrdered = q.isOrdered := by
  cases q <;> rfl

theorem modify_relabel {m : Modifier} (h : q.modify? m = some made) :
    (q.relabel r).modify? m = some (made.relabel r) := by
  rw [Query.modify?.eq_def] at h
  split at h <;> cases h <;> rfl

theorem thenBy_relabel {key : SortKey} (h : q.thenBy? key = some made) :
    (q.relabel r).thenBy? (key.relabel r) = some (made.relabel r) := by
  obtain ⟨source, first, others, rfl, rfl⟩ := thenBy_ok h
  show some (Query.orderBy _ _ (relabelKeys r others ++ [key.relabel r]))
    = some (Query.orderBy _ _ (relabelKeys r (others ++ [key])))
  rw [relabelKeys_append]
  rfl

/-! ## Points of capture -/

/-- A point where drafts are captured. -/
structure Site where
  around : Surroundings
  supply : Supply

/-- What is written at a site. -/
def Draft.Query.writtenAt (draft : Draft.Query) (site : Site) :
    Option ChainQuery.Query :=
  (draft.capture site.around site.supply).1.toOption

/-- The same names are bound around two points, and what is stored at the
    first is stored at the second, relabeled. -/
structure Relabeling.Surrounds (r : Relabeling)
    (around around' : Surroundings) : Prop where
  bound : around'.bound = around.bound.map fun b => (b.1, r.param b.2)
  exprs : ∀ name e, around.shelf.exprs.lookup name = some e →
    around'.shelf.exprs.lookup name = some (e.relabel r)
  queries : ∀ name q, around.shelf.queries.lookup name = some q →
    around'.shelf.queries.lookup name = some (q.relabel r)

/-- What is next at one point is next at the other, and what was made
    under a name at the first was made under it at the second,
    relabeled. -/
structure Relabeling.Supplies (r : Relabeling) (supply supply' : Supply) :
    Prop where
  params : ∀ k, r.param ⟨supply.nextParam + k⟩ = ⟨supply'.nextParam + k⟩
  identities : ∀ k,
    r.identity (supply.nextIdentity + k) = supply'.nextIdentity + k
  made : ∀ name p, supply.made.lookup name = some p →
    supply'.made.lookup name = some (r.param p)

/-- A relabeling leads from one site to another. -/
structure Relabeling.Carries (r : Relabeling) (site site' : Site) :
    Prop where
  around : r.Surrounds site.around site'.around
  supply : r.Supplies site.supply site'.supply

namespace Draft.Capture

variable {α β : Type} {copy : α → α} {copy' : β → β} {x y : Capture α}

/-- What the first step of capturing gives at one point, the second gives
    at the other, copied; and it leads on from there. -/
def Copies (r : Relabeling) (copy : α → α) (x y : Capture α) : Prop :=
  ∀ around around', r.Surrounds around around' →
    ∀ supply supply', r.Supplies supply supply' →
      ∀ a rest, x around supply = (.ok a, rest) →
        ∃ rest', y around' supply' = (.ok (copy a), rest') ∧
          r.Supplies rest rest'

theorem copies_done (copy : α → α) (a : α) :
    Copies r copy (pure a) (pure (copy a)) := by
  rintro around around' - supply supply' hsupply _ _ ⟨⟩
  exact ⟨supply', rfl, hsupply⟩

/-- Sequences copy sequences. -/
theorem copies_bind {f g : α → Capture β} (hx : Copies r copy x y)
    (hf : ∀ a, Copies r copy' (f a) (g (copy a))) :
    Copies r copy' (x >>= f) (y >>= g) := by
  intro around around' haround supply supply' hsupply b rest h
  obtain ⟨a, middle, ha, hb⟩ := andThen_ok h
  obtain ⟨middle', ha', hmiddle⟩ :=
    hx around around' haround supply supply' hsupply a middle ha
  obtain ⟨rest', hb', hrest⟩ :=
    hf a around around' haround middle middle' hmiddle b rest hb
  refine ⟨rest', ?_, hrest⟩
  show andThen y g around' supply' = _
  rw [andThen, ha']
  exact hb'

theorem copies_offered {word : String} {o o' : Option α}
    (h : ∀ a, o = some a → o' = some (copy a)) :
    Copies r copy (offered word o) (offered word o') := by
  intro around around' _ supply supply' hsupply a rest hoffered
  cases o with
  | none => cases hoffered
  | some b =>
      cases hoffered
      rw [h a rfl]
      exact ⟨supply', rfl, hsupply⟩

theorem copies_require {word : String} {ok ok' : Bool} (h : ok' = ok) :
    Copies r id (require word ok) (require word ok') := by
  subst h
  cases ok' with
  | true => exact copies_done id ()
  | false =>
      intro around around' _ supply supply' _ a rest hrequire
      cases hrequire

theorem copies_unnamed : Copies r r.param makeUnnamed makeUnnamed := by
  rintro around around' - supply supply' hsupply _ _ ⟨⟩
  refine ⟨_, congrArg (fun p => (Except.ok p, _))
    (hsupply.params 0).symm, ?_, hsupply.identities, hsupply.made⟩
  intro k
  rw [Nat.add_assoc, Nat.add_assoc]
  exact hsupply.params (1 + k)

theorem copies_identity :
    Copies r r.identity makeIdentity makeIdentity := by
  rintro around around' - supply supply' hsupply _ _ ⟨⟩
  refine ⟨_, congrArg (fun i => (Except.ok i, _))
    (hsupply.identities 0).symm, hsupply.params, ?_, hsupply.made⟩
  intro k
  rw [Nat.add_assoc, Nat.add_assoc]
  exact hsupply.identities (1 + k)

/-- A parameter made under a name hides the one made before it, at both
    points. -/
theorem copies_make (name : String) :
    Copies r r.param (make name) (make name) := by
  rintro around around' - supply supply' hsupply _ _ ⟨⟩
  refine ⟨_, congrArg (fun p => (Except.ok p, _))
    (hsupply.params 0).symm, ?_, hsupply.identities, ?_⟩
  · intro k
    rw [Nat.add_assoc, Nat.add_assoc]
    exact hsupply.params (1 + k)
  · intro other p hlookup
    rw [List.lookup_cons] at hlookup ⊢
    by_cases hname : (other == name) = true
    · rw [hname] at hlookup ⊢
      cases hlookup
      exact congrArg some (hsupply.params 0).symm
    · rw [Bool.not_eq_true] at hname
      rw [hname] at hlookup ⊢
      exact hsupply.made other p hlookup

theorem lookup_bound (bound : List (String × Param)) (name : String) :
    (bound.map fun b => (b.1, r.param b.2)).lookup name
      = (bound.lookup name).map r.param := by
  induction bound with
  | nil => rfl
  | cons b bound ih =>
      rw [List.map_cons, List.lookup_cons, List.lookup_cons, ih]
      cases name == b.1 with
      | true => rfl
      | false => rfl

theorem copies_resolve (name : String) :
    Copies r r.param (resolve name) (resolve name) := by
  intro around around' haround supply supply' hsupply p rest h
  rw [resolve] at h ⊢
  rw [haround.bound, lookup_bound]
  cases hbound : around.bound.lookup name with
  | some bound =>
      rw [hbound] at h
      cases h
      exact ⟨supply', rfl, hsupply⟩
  | none =>
      rw [hbound] at h
      cases hmade : supply.made.lookup name with
      | none =>
          rw [hmade] at h
          cases h
      | some known =>
          rw [hmade] at h
          cases h
          rw [hsupply.made name p hmade]
          exact ⟨supply', rfl, hsupply⟩

theorem copies_stored {things : Shelf → List (String × α)}
    (h : ∀ around around', r.Surrounds around around' → ∀ name a,
      (things around.shelf).lookup name = some a →
        (things around'.shelf).lookup name = some (copy a))
    (name : String) :
    Copies r copy (storedIn things name) (storedIn things name) := by
  intro around around' haround supply supply' hsupply a rest hstored
  rw [storedIn] at hstored ⊢
  cases hlookup : (things around.shelf).lookup name with
  | none =>
      rw [hlookup] at hstored
      cases hstored
  | some b =>
      rw [hlookup] at hstored
      cases hstored
      rw [h around around' haround name a hlookup]
      exact ⟨supply', rfl, hsupply⟩

theorem copies_binding (names : List String) (params : List Param)
    (h : Copies r copy x y) :
    Copies r copy (binding names params x)
      (binding names (params.map r.param) y) := by
  intro around around' haround supply supply' hsupply a rest hx
  -- The names are the same on both sides, the parameters are relabeled.
  have hinner : r.Surrounds
      ⟨(names.zip params).reverse ++ around.bound, around.shelf⟩
      ⟨(names.zip (params.map r.param)).reverse ++ around'.bound,
        around'.shelf⟩ := by
    refine ⟨?_, haround.exprs, haround.queries⟩
    show (names.zip (params.map r.param)).reverse ++ around'.bound = _
    rw [haround.bound, List.map_append, List.map_reverse,
      List.zip_map_right]
    rfl
  exact h _ _ hinner supply supply' hsupply a rest hx

/-- Parameters made on failure do not show in what is given. -/
theorem copies_makingOnFailure (names : List String)
    (h : Copies r copy x y) :
    Copies r copy (makingOnFailure names x) (makingOnFailure names y) := by
  intro around around' haround supply supply' hsupply a rest hmaking
  rw [makingOnFailure] at hmaking ⊢
  rcases hx : x around supply with ⟨result, middle⟩
  rw [hx] at hmaking
  cases result with
  | error e => cases hmaking
  | ok b =>
      cases hmaking
      obtain ⟨rest', hy, hrest⟩ :=
        h around around' haround supply supply' hsupply a rest hx
      rw [hy]
      exact ⟨rest', rfl, hrest⟩

end Draft.Capture

/-! ## Reading drafts -/

/-- Captured at two points, a written expression gives one expression and
    its copy. -/
def Draft.Expr.Copied (r : Relabeling) (e : Draft.Expr) : Prop :=
  Copies r (ChainQuery.Expr.relabel r) e.capture e.capture

/-- Captured at two points, a written chain gives one chain and its
    copy. -/
def Draft.Query.Copied (r : Relabeling) (q : Draft.Query) : Prop :=
  Copies r (ChainQuery.Query.relabel r) q.capture q.capture

/-- Written after a chain and after its copy, a step gives one chain and
    its copy. -/
def Draft.Action.Copied (r : Relabeling) (a : Action) : Prop :=
  ∀ word (q : ChainQuery.Query), Copies r (ChainQuery.Query.relabel r)
    (a.capture word q) (a.capture word (q.relabel r))

theorem copies_rowFunc {f : Draft.RowFunc} (h : f.body.Copied r) :
    Copies r (ChainQuery.RowFunc.relabel r) f.capture f.capture := by
  obtain ⟨row, body⟩ := f
  refine copies_bind (copies_make row) fun p => ?_
  exact copies_bind (copies_binding [row] [p] h) fun _ => copies_done _ _

theorem copies_pairFunc {f : Draft.PairFunc} (h : f.body.Copied r) :
    Copies r (ChainQuery.PairFunc.relabel r) f.capture f.capture := by
  obtain ⟨left, right, body⟩ := f
  refine copies_bind (copies_make left) fun p => ?_
  refine copies_bind (copies_make right) fun p' => ?_
  exact copies_bind (copies_binding [left, right] [p, p'] h) fun _ =>
    copies_done _ _

theorem copies_reduction {reduction : Draft.Reduction}
    (h : ∀ e ∈ reduction.bodies, e.Copied r) :
    Copies r (ChainQuery.Reduction.relabel r) reduction.capture
      reduction.capture := by
  cases reduction with
  | count => exact copies_done _ _
  | sum f =>
      exact copies_bind (copies_rowFunc (h _ (.head _))) fun _ =>
        copies_done _ _
  | average f =>
      exact copies_bind (copies_rowFunc (h _ (.head _))) fun _ =>
        copies_done _ _

theorem copies_items {es : List Draft.Expr} (h : ∀ e ∈ es, e.Copied r) :
    Copies r (relabelItems r) (captureItems es) (captureItems es) := by
  induction es with
  | nil => exact copies_done _ _
  | cons e es ih =>
      obtain ⟨he, hes⟩ := List.forall_mem_cons.mp h
      exact copies_bind he fun _ =>
        copies_bind (ih hes) fun _ => copies_done _ _

theorem copies_members {ms : List (String × Draft.Expr)}
    (h : ∀ m ∈ ms, m.2.Copied r) :
    Copies r (relabelMembers r) (captureMembers ms)
      (captureMembers ms) := by
  induction ms with
  | nil => exact copies_done _ _
  | cons m ms ih =>
      obtain ⟨name, e⟩ := m
      obtain ⟨he, hms⟩ := List.forall_mem_cons.mp h
      exact copies_bind he fun _ =>
        copies_bind (ih hms) fun _ => copies_done _ _

/-- Every step is offered by a chain and by its copy, or by neither. -/
theorem copies_action (a : Action) (hbodies : ∀ e ∈ a.bodies, e.Copied r)
    (hother : ∀ q ∈ a.other?, q.Copied r) : a.Copied r := by
  intro word q
  have hsequence : (q.relabel r).shape.isSequence = q.shape.isSequence := by
    rw [shape_relabel]
  cases a with
  | onDatabase s =>
      refine copies_offered fun made h => ?_
      obtain ⟨name, rfl, rfl⟩ := inDatabase_ok h
      rfl
  | onTable s =>
      refine copies_offered fun made h => ?_
      obtain ⟨t, rfl, rfl⟩ := onTable_ok h
      rfl
  | modify m => exact copies_offered fun made h => modify_relabel h
  | plain s =>
      refine copies_offered fun made h => ?_
      rw [Query.andThen?] at h ⊢
      rw [shape_relabel]
      by_cases haccepts : s.accepts q.shape = true
      · rw [if_pos haccepts] at h ⊢
        cases h
        rfl
      · rw [if_neg haccepts] at h
        cases h
  | indexCreateWith name key =>
      have hkey := copies_rowFunc (hbodies _ (.head _))
      have htable : Copies r id (offered word q.asTable?)
          (offered word (q.relabel r).asTable?) := by
        rw [asTable_relabel]
        exact copies_offered fun _ h => h
      exact copies_bind htable fun t =>
        copies_bind hkey fun _ => copies_done _ _
  | rowStep s f =>
      have hf := copies_rowFunc (hbodies _ (.head _))
      refine copies_bind (copies_require ?_) fun _ =>
        copies_bind hf fun _ => copies_done _ _
      rw [shape_relabel]
  | orderBy key direction =>
      have hkey := copies_rowFunc (hbodies _ (.head _))
      exact copies_bind (copies_require hsequence) fun _ =>
        copies_bind hkey fun _ => copies_done _ _
  | thenBy key direction =>
      have hkey := copies_rowFunc (hbodies _ (.head _))
      exact copies_bind (copies_require isOrdered_relabel) fun _ =>
        copies_bind hkey fun _ =>
          copies_offered fun _ h => thenBy_relabel h
  | union other =>
      have hq := hother other rfl
      refine copies_bind (copies_require hsequence) fun _ =>
        copies_bind hq fun made => ?_
      refine copies_bind (copies_require ?_) fun _ => copies_done _ _
      rw [shape_relabel, shape_relabel]
  | reduce f =>
      have hf := copies_pairFunc (hbodies _ (.head _))
      exact copies_bind (copies_require hsequence) fun _ =>
        copies_bind hf fun _ => copies_done _ _
  | groupBy reduction key =>
      have hkey := copies_rowFunc (hbodies _ (.head _))
      have hreduction := copies_reduction fun e he =>
        hbodies e (.tail _ he)
      exact copies_bind (copies_require hsequence) fun _ =>
        copies_bind hreduction fun _ =>
          copies_bind hkey fun _ => copies_done _ _
  | groupedMapReduce grouping mapping reduction =>
      have hg := copies_rowFunc (hbodies _ (.head _))
      have hm := copies_rowFunc (hbodies _ (.tail _ (.head _)))
      have hr := copies_pairFunc (hbodies _ (.tail _ (.tail _ (.head _))))
      exact copies_bind (copies_require hsequence) fun _ =>
        copies_bind (copies_makingOnFailure _ hg) fun _ =>
          copies_bind (copies_makingOnFailure _ hm) fun _ =>
            copies_bind hr fun _ => copies_done _ _
  | join kind other predicate =>
      have hq := hother other rfl
      have hf := copies_pairFunc (hbodies _ (.head _))
      refine copies_bind (copies_require hsequence) fun _ =>
        copies_bind hq fun made => ?_
      refine copies_bind (copies_require ?_) fun _ =>
        copies_bind hf fun _ => copies_done _ _
      rw [shape_relabel]
  | eqJoin member other =>
      have hq := hother other rfl
      have hmember := copies_rowFunc (hbodies _ (.head _))
      refine copies_bind (copies_require hsequence) fun _ =>
        copies_bind hq fun made => ?_
      refine copies_bind (copies_require ?_) fun _ =>
        copies_bind hmember fun _ => copies_done _ _
      rw [shape_relabel]

theorem copies_steps {steps : List Written}
    (h : ∀ w ∈ steps, w.action.Copied r) (q : ChainQuery.Query) :
    Copies r (ChainQuery.Query.relabel r) (captureSteps steps q)
      (captureSteps steps (q.relabel r)) := by
  induction steps generalizing q with
  | nil => exact copies_done _ q
  | cons w steps ih =>
      obtain ⟨hw, hsteps⟩ := List.forall_mem_cons.mp h
      obtain ⟨word, action⟩ := w
      exact copies_bind (hw word q) fun next => ih hsteps next

/-- Every form of draft is copied. -/
theorem copies_hereditary (r : Relabeling) :
    Draft.Hereditary (Draft.Expr.Copied r) (Draft.Action.Copied r)
      (Draft.Query.Copied r) where
  named name := copies_bind (copies_resolve name) fun _ => copies_done _ _
  fresh := copies_bind copies_unnamed fun _ => copies_done _ _
  stored name := copies_stored (fun _ _ h => h.exprs) name
  literal v := copies_done (ChainQuery.Expr.relabel r) (.literal v)
  field _ _ he := copies_bind he fun _ => copies_done _ _
  compare _ _ _ ha hb :=
    copies_bind ha fun _ => copies_bind hb fun _ => copies_done _ _
  arith _ _ _ ha hb :=
    copies_bind ha fun _ => copies_bind hb fun _ => copies_done _ _
  all _ hes := copies_bind (copies_items hes) fun _ => copies_done _ _
  any _ hes := copies_bind (copies_items hes) fun _ => copies_done _ _
  not _ he := copies_bind he fun _ => copies_done _ _
  array _ hes := copies_bind (copies_items hes) fun _ => copies_done _ _
  object _ hms := copies_bind (copies_members hms) fun _ => copies_done _ _
  call _ _ hes := copies_bind (copies_items hes) fun _ => copies_done _ _
  subquery _ hq :=
    copies_bind hq fun _ => copies_bind copies_identity fun _ =>
      copies_done _ _
  action a hbodies hother := copies_action a hbodies hother
  chain start steps hsteps := by
    refine copies_bind ?_ fun q => copies_steps hsteps q
    cases start with
    | root root =>
        exact copies_done (ChainQuery.Query.relabel r) (.root root)
    | stored name => exact copies_stored (fun _ _ h => h.queries) name

/-- Where a relabeling leads from one site to another, what is written at
    the first is written at the other, relabeled. -/
theorem written_relabel {here there : Site} {draft : Draft.Query}
    (h : r.Carries here there) (hq : draft.writtenAt here = some q) :
    draft.writtenAt there = some (q.relabel r) := by
  rw [Draft.Query.writtenAt] at hq ⊢
  rcases hcapture : draft.capture here.around here.supply
    with ⟨result, rest⟩
  rw [hcapture] at hq
  cases result with
  | error e => cases hq
  | ok made =>
      cases hq
      obtain ⟨rest', hcopy, -⟩ := (copies_hereditary r).query draft
        here.around there.around h.around here.supply there.supply h.supply
        q rest hcapture
      rw [hcopy]
      rfl

/-! ## Complete drafts -/

/-- A site where nothing is known: whatever is written there is complete
    in itself. -/
def Site.empty : Site :=
  ⟨⟨[], .empty⟩, ⟨0, 0, []⟩⟩

/-- Number everything further up. -/
def Relabeling.shift (params identities : Nat) : Relabeling where
  param p := ⟨p.number + params⟩
  identity i := i + identities
  injective p p' h := by
    obtain ⟨number⟩ := p
    obtain ⟨number'⟩ := p'
    have hnumber : number + params = number' + params :=
      congrArg Param.number h
    rw [Nat.add_right_cancel hnumber]

/-- From where nothing is known a shift leads anywhere. -/
theorem carries_shift (site : Site) (h : site.around.bound = []) :
    (Relabeling.shift site.supply.nextParam
      site.supply.nextIdentity).Carries .empty site where
  around := by
    refine ⟨h, ?_, ?_⟩
    · rintro name e ⟨⟩
    · rintro name q ⟨⟩
  supply := by
    refine ⟨?_, ?_, ?_⟩
    · intro k
      show (⟨0 + k + site.supply.nextParam⟩ : Param) = _
      rw [Nat.zero_add, Nat.add_comm]
    · intro k
      show 0 + k + site.supply.nextIdentity = _
      rw [Nat.zero_add, Nat.add_comm]
    · rintro name p ⟨⟩

/-! ## Written twice -/

/-- **Generation ignores the numbers of parameters.**  Relabel the
    parameters of a job and of the scope it is done in, different ones
    differently: the term is the same, and with it its fingerprint, the
    same numbers are used up and the same questions asked; or the error is
    the same, but for the parameter it may be about.  So a draft captured
    at two points generates the same at both, whenever what is known at
    the first is known at the second under some relabeling; and a draft
    that is complete in itself generates the same wherever it is
    written. -/
theorem generation_ignores_parameters (c : Converter) :
    (∀ (r : Relabeling) (job : Job) (ctx : Context),
      let o := job.walk c ctx
      let o' := (job.relabel r).walk c (ctx.relabel r)
      o'.result = o.result.mapError (.relabel r) ∧
      o'.result.toOption.map Term.fingerprint
        = o.result.toOption.map Term.fingerprint ∧
      o'.context = o.context.relabel r ∧
      Note.questions o'.notes = Note.questions o.notes) ∧
    (∀ (r : Relabeling) (here there : Site) (draft : Draft.Query)
        (q : ChainQuery.Query),
      r.Carries here there → draft.writtenAt here = some q →
      ∃ q', draft.writtenAt there = some q' ∧
        (q.generate c).Matches (q'.generate c)) ∧
    ∀ draft : Draft.Query, (draft.writtenAt .empty).isSome = true →
      ∀ here there : Site, here.around.bound = [] →
        there.around.bound = [] →
        ∃ q q', draft.writtenAt here = some q ∧
          draft.writtenAt there = some q' ∧
          (q.generate c).Matches (q'.generate c) := by
  refine ⟨?_, ?_, ?_⟩
  · intro r job ctx
    have hwalk := relabels_job r c job ctx
    simp only [hwalk]
    refine ⟨rfl, ?_, rfl, questions_relabel _⟩
    -- Only errors are relabeled, so the term is there or not as before.
    show ((job.walk c ctx).result.mapError _).toOption.map _ = _
    cases (job.walk c ctx).result with
    | ok t => rfl
    | error e => rfl
  · intro r here there draft q hcarries hq
    refine ⟨q.relabel r, written_relabel hcarries hq, ?_⟩
    rw [generate_relabel]
    exact matches_relabel _
  · intro draft hcomplete here there hhere hthere
    obtain ⟨q, hq⟩ := Option.isSome_iff_exists.mp hcomplete
    -- Both chains are the one written where nothing is known, shifted.
    have hfirst := written_relabel (carries_shift here hhere) hq
    have hsecond := written_relabel (carries_shift there hthere) hq
    refine ⟨_, _, hfirst, hsecond, ?_⟩
    rw [generate_relabel, generate_relabel]
    exact (matches_relabel _).symm.trans (matches_relabel _)

/-- Each player with the games they played. -/
def ownGames : Draft.Query :=
  .mk (.root (.table ⟨none, "players", false⟩))
    [.mk "map" (.rowStep .map (.mk "player"
      (.subquery (.mk (.root (.table ⟨none, "games", false⟩))
        [.mk "filter" (.rowStep .filter (.mk "game"
          (.compare .eq (.field (.named "game") "player")
            (.field (.named "player") "id"))))]))))]

theorem generation_ignores_parameters_ownGames :
    ∃ q q', ownGames.writtenAt ⟨⟨[], .empty⟩, .fresh⟩ = some q ∧
      ownGames.writtenAt ⟨⟨[], .empty⟩, ⟨7, 3, [("game", ⟨5⟩)]⟩⟩
        = some q' ∧
      (q.generate (.standard .strict)).Matches
        (q'.generate (.standard .strict)) := by
  obtain ⟨-, -, htwice⟩ := generation_ignores_parameters (.standard .strict)
  exact htwice ownGames rfl _ _ rfl rfl

end ChainQuery
