import ChainQuery.Draft.Capture

/-! # Drafts — statements about everything that can be written

    Written expressions and written chains contain each other as the
    chains made of them do, with one level more: a chain is a list of
    written steps, and a step has its operands in its action.  `Hereditary`
    lists what has to be shown for each form; `Hereditary.expr`,
    `Hereditary.actions` and `Hereditary.query` are the conclusion.

    Capturing checks each step against the chain before it.  What a step
    can make of a chain is said once (`Action.Gives`, `gives_capture`). -/

namespace ChainQuery.Draft

/-- The body of a written function of one row. -/
def RowFunc.body : RowFunc → Expr
  | .mk _ body => body

/-- The body of a written function of two rows. -/
def PairFunc.body : PairFunc → Expr
  | .mk _ _ body => body

/-- The bodies of the functions in a written reduction. -/
def Reduction.bodies : Reduction → List Expr
  | .count => []
  | .sum member => [member.body]
  | .average member => [member.body]

namespace Action

/-- The bodies of the functions of a step. -/
def bodies : Action → List Expr
  | .onDatabase _ => []
  | .onTable _ => []
  | .modify _ => []
  | .plain _ => []
  | .indexCreateWith _ key => [key.body]
  | .rowStep _ f => [f.body]
  | .orderBy key _ => [key.body]
  | .thenBy key _ => [key.body]
  | .union _ => []
  | .reduce f => [f.body]
  | .groupBy reduction key => key.body :: reduction.bodies
  | .groupedMapReduce grouping mapping reduction =>
      [grouping.body, mapping.body, reduction.body]
  | .join _ _ predicate => [predicate.body]
  | .eqJoin member _ => [member.body]

/-- The other chain of a step. -/
def other? : Action → Option Query
  | .union other => some other
  | .join _ other _ => some other
  | .eqJoin _ other => some other
  | _ => none

end Action

/-- The word a step is written with. -/
def Written.word : Written → String
  | .mk word _ => word

/-- What a written step does. -/
def Written.action : Written → Action
  | .mk _ action => action

/-- `P`, `A` and `R` pass from the parts of everything written to the
    whole. -/
structure Hereditary (P : Expr → Prop) (A : Action → Prop)
    (R : Query → Prop) : Prop where
  named : ∀ name, P (.named name)
  fresh : P .fresh
  stored : ∀ name, P (.stored name)
  literal : ∀ v, P (.literal v)
  field : ∀ e name, P e → P (.field e name)
  compare : ∀ op a b, P a → P b → P (.compare op a b)
  arith : ∀ op a b, P a → P b → P (.arith op a b)
  all : ∀ es, (∀ e ∈ es, P e) → P (.all es)
  any : ∀ es, (∀ e ∈ es, P e) → P (.any es)
  not : ∀ e, P e → P (.not e)
  array : ∀ es, (∀ e ∈ es, P e) → P (.array es)
  object : ∀ ms, (∀ m ∈ ms, P m.2) → P (.object ms)
  call : ∀ name es, (∀ e ∈ es, P e) → P (.call name es)
  subquery : ∀ q, R q → P (.subquery q)
  action : ∀ a : Action, (∀ e ∈ a.bodies, P e) →
    (∀ q ∈ a.other?, R q) → A a
  chain : ∀ start (steps : List Written), (∀ w ∈ steps, A w.action) →
    R (.mk start steps)

namespace Hereditary

variable {P : Expr → Prop} {A : Action → Prop} {R : Query → Prop}

private theorem alone (h : Hereditary P A R) (a : Action)
    (hbodies : a.bodies = []) (hother : a.other? = none) : A a := by
  refine h.action a ?_ ?_
  · rw [hbodies]
    exact List.forall_mem_nil _
  · rw [hother]
    rintro q ⟨⟩

private theorem only {q : Query} (h : R q) : ∀ r ∈ some q, R r := by
  rintro r ⟨⟩
  exact h

private theorem no_other : ∀ q ∈ (none : Option Query), R q := by
  rintro q ⟨⟩

mutual

/-- A hereditary statement holds of every written expression. -/
theorem expr (h : Hereditary P A R) : ∀ e, P e
  | .named name => h.named name
  | .fresh => h.fresh
  | .stored name => h.stored name
  | .literal v => h.literal v
  | .field e name => h.field e name (h.expr e)
  | .compare op a b => h.compare op a b (h.expr a) (h.expr b)
  | .arith op a b => h.arith op a b (h.expr a) (h.expr b)
  | .all es => h.all es (h.items es)
  | .any es => h.any es (h.items es)
  | .not e => h.not e (h.expr e)
  | .array es => h.array es (h.items es)
  | .object ms => h.object ms (h.members ms)
  | .call name es => h.call name es (h.items es)
  | .subquery q => h.subquery q (h.query q)
termination_by structural e => e

private theorem items (h : Hereditary P A R) :
    ∀ es : List Expr, ∀ e ∈ es, P e
  | [] => List.forall_mem_nil _
  | e :: es => fun _ he =>
      match List.mem_cons.mp he with
      | .inl heq => heq ▸ h.expr e
      | .inr hmem => h.items es _ hmem
termination_by structural es => es

private theorem members (h : Hereditary P A R) :
    ∀ ms : List (String × Expr), ∀ m ∈ ms, P m.2
  | [] => List.forall_mem_nil _
  | (_, e) :: ms => fun _ hm =>
      match List.mem_cons.mp hm with
      | .inl heq => heq ▸ h.expr e
      | .inr hmem => h.members ms _ hmem
termination_by structural ms => ms

private theorem rowFunc (h : Hereditary P A R) :
    ∀ f : RowFunc, P f.body
  | .mk _ body => h.expr body
termination_by structural f => f

private theorem pairFunc (h : Hereditary P A R) :
    ∀ f : PairFunc, P f.body
  | .mk _ _ body => h.expr body
termination_by structural f => f

private theorem reduction (h : Hereditary P A R) :
    ∀ r : Reduction, ∀ e ∈ r.bodies, P e
  | .count => List.forall_mem_nil _
  | .sum f => List.forall_mem_singleton.mpr (h.rowFunc f)
  | .average f => List.forall_mem_singleton.mpr (h.rowFunc f)
termination_by structural r => r

/-- A hereditary statement holds of everything a step can do. -/
theorem actions (h : Hereditary P A R) : ∀ a, A a
  | .onDatabase s => h.alone (.onDatabase s) rfl rfl
  | .onTable s => h.alone (.onTable s) rfl rfl
  | .modify m => h.alone (.modify m) rfl rfl
  | .plain s => h.alone (.plain s) rfl rfl
  | .indexCreateWith _ key =>
      h.action _ (List.forall_mem_singleton.mpr (h.rowFunc key))
        no_other
  | .rowStep _ f =>
      h.action _ (List.forall_mem_singleton.mpr (h.rowFunc f))
        no_other
  | .orderBy key _ =>
      h.action _ (List.forall_mem_singleton.mpr (h.rowFunc key))
        no_other
  | .thenBy key _ =>
      h.action _ (List.forall_mem_singleton.mpr (h.rowFunc key))
        no_other
  | .union other =>
      h.action _ (List.forall_mem_nil _) (only (h.query other))
  | .reduce f =>
      h.action _ (List.forall_mem_singleton.mpr (h.pairFunc f))
        no_other
  | .groupBy reduction key =>
      h.action _
        (List.forall_mem_cons.mpr ⟨h.rowFunc key, h.reduction reduction⟩)
        no_other
  | .groupedMapReduce g m r =>
      h.action _
        (List.forall_mem_cons.mpr ⟨h.rowFunc g,
          List.forall_mem_cons.mpr ⟨h.rowFunc m,
            List.forall_mem_singleton.mpr (h.pairFunc r)⟩⟩)
        no_other
  | .join _ other f =>
      h.action _ (List.forall_mem_singleton.mpr (h.pairFunc f))
        (only (h.query other))
  | .eqJoin member other =>
      h.action _ (List.forall_mem_singleton.mpr (h.rowFunc member))
        (only (h.query other))
termination_by structural a => a

private theorem written (h : Hereditary P A R) :
    ∀ w : Written, A w.action
  | .mk _ action => h.actions action
termination_by structural w => w

private theorem steps (h : Hereditary P A R) :
    ∀ ws : List Written, ∀ w ∈ ws, A w.action
  | [] => List.forall_mem_nil _
  | w :: ws => fun _ hw =>
      match List.mem_cons.mp hw with
      | .inl heq => heq ▸ h.written w
      | .inr hmem => h.steps ws _ hmem
termination_by structural ws => ws

/-- A hereditary statement holds of every written chain. -/
theorem query (h : Hereditary P A R) : ∀ q, R q
  | .mk start steps => h.chain start steps (h.steps steps)
termination_by structural q => q

end

end Hereditary

/-! ## What capturing gives -/

namespace Capture

variable {α β : Type} {Q : α → Prop} {S : β → Prop} {shelf : Shelf}

/-- Whatever a step of capturing gives with these things stored satisfies
    `Q`, whatever names are bound around it. -/
def Yields (Q : α → Prop) (shelf : Shelf) (x : Capture α) : Prop :=
  ∀ bound supply a rest, x ⟨bound, shelf⟩ supply = (.ok a, rest) → Q a

theorem yields_done {a : α} (h : Q a) : Yields Q shelf (pure a) := by
  rintro bound supply b rest ⟨⟩
  exact h

/-- A sequence that gives something has given something at each step. -/
theorem andThen_ok {x : Capture α} {f : α → Capture β}
    {around : Surroundings} {supply rest : Supply} {b : β}
    (h : (x >>= f) around supply = (.ok b, rest)) :
    ∃ a middle, x around supply = (.ok a, middle) ∧
      f a around middle = (.ok b, rest) := by
  replace h : andThen x f around supply = (.ok b, rest) := h
  rw [andThen] at h
  cases hresult : x around supply with
  | mk r middle =>
      rw [hresult] at h
      cases r with
      | error e => cases h
      | ok a => exact ⟨a, middle, rfl, h⟩

theorem yields_mono {Q' : α → Prop} {x : Capture α}
    (hx : Yields Q shelf x) (h : ∀ a, Q a → Q' a) : Yields Q' shelf x :=
  fun bound supply a rest hresult => h a (hx bound supply a rest hresult)

theorem yields_bind {x : Capture α} {f : α → Capture β}
    (hx : Yields Q shelf x) (hf : ∀ a, Q a → Yields S shelf (f a)) :
    Yields S shelf (x >>= f) := by
  intro bound supply b rest h
  obtain ⟨a, middle, ha, hb⟩ := andThen_ok h
  exact hf a (hx bound supply a middle ha) bound middle b rest hb

theorem yields_any (x : Capture α) : Yields (fun _ => True) shelf x :=
  fun _ _ _ _ _ => trivial

theorem yields_offered {word : String} {o : Option α} :
    Yields (fun a => o = some a) shelf (offered word o) := by
  intro bound supply a rest h
  cases o with
  | none => cases h
  | some b =>
      cases h
      rfl

theorem yields_require {word : String} {ok : Bool} :
    Yields (fun _ => ok = true) shelf (require word ok) := by
  intro bound supply a rest h
  cases ok with
  | false => cases h
  | true => rfl

theorem yields_stored {things : Shelf → List (String × α)}
    (h : ∀ entry ∈ things shelf, Q entry.2) (name : String) :
    Yields Q shelf (storedIn things name) := by
  intro bound supply a rest hstored
  rw [storedIn] at hstored
  cases hlookup : (things shelf).lookup name with
  | none =>
      rw [hlookup] at hstored
      cases hstored
  | some b =>
      rw [hlookup] at hstored
      cases hstored
      obtain ⟨before, after, hthings, -⟩ :=
        List.lookup_eq_some_iff.mp hlookup
      refine h (name, a) ?_
      rw [hthings]
      exact List.mem_append_right _ (.head _)

/-- Making further parameters on failure changes no result. -/
theorem yields_makingOnFailure {x : Capture α} (names : List String)
    (h : Yields Q shelf x) : Yields Q shelf (makingOnFailure names x) := by
  intro bound supply a rest hmaking
  rw [makingOnFailure] at hmaking
  cases hresult : x ⟨bound, shelf⟩ supply with
  | mk r middle =>
      rw [hresult] at hmaking
      cases r with
      | error e => cases hmaking
      | ok b =>
          cases hmaking
          exact h bound supply a rest hresult

theorem yields_binding {x : Capture α} (names : List String)
    (params : List Param) (h : Yields Q shelf x) :
    Yields Q shelf (binding names params x) :=
  fun _ supply a rest hbinding => h _ supply a rest hbinding

end Capture

open Capture

section Steps

variable {P : ChainQuery.Expr → Prop} {R : ChainQuery.Query → Prop}
  {shelf : Shelf} {q : ChainQuery.Query}

theorem yields_rowFunc {f : RowFunc} (h : Yields P shelf f.body.capture) :
    Yields (fun f : ChainQuery.RowFunc => P f.toFunc.body) shelf
      f.capture := by
  obtain ⟨row, body⟩ := f
  exact yields_bind (yields_any _) fun _ _ =>
    yields_bind (yields_binding _ _ h) fun _ hbody => yields_done hbody

theorem yields_pairFunc {f : PairFunc} (h : Yields P shelf f.body.capture) :
    Yields (fun f : ChainQuery.PairFunc => P f.toFunc.body) shelf
      f.capture := by
  obtain ⟨left, right, body⟩ := f
  exact yields_bind (yields_any _) fun _ _ =>
    yields_bind (yields_any _) fun _ _ =>
      yields_bind (yields_binding _ _ h) fun _ hbody => yields_done hbody

/-- What a step makes of a chain: the checks it passes, and the functions
    and chains that are captured for it, whose bodies satisfy `P` and `R`.
    The members that reductions and equality joins select are read, not
    kept as parts. -/
inductive Action.Gives (P : ChainQuery.Expr → Prop)
    (R : ChainQuery.Query → Prop) (q : ChainQuery.Query) :
    Action → ChainQuery.Query → Prop where
  | onDatabase {s : DatabaseStep} {made : ChainQuery.Query} :
      q.inDatabase? s.root = some made → Gives P R q (.onDatabase s) made
  | onTable {s : TableStep} {made : ChainQuery.Query} :
      q.onTable? s.root = some made → Gives P R q (.onTable s) made
  | modify {m : Modifier} {made : ChainQuery.Query} :
      q.modify? m = some made → Gives P R q (.modify m) made
  | plain {s : Step} :
      s.accepts q.shape = true → Gives P R q (.plain s) (.step q s)
  | indexCreateWith {t : Table} {name : String} {key : RowFunc}
      (f : ChainQuery.RowFunc) :
      q.asTable? = some t → P f.toFunc.body →
      Gives P R q (.indexCreateWith name key) (.indexCreateWith t name f)
  | rowStep {s : RowStep} {f : RowFunc} (g : ChainQuery.RowFunc) :
      s.accepts q.shape = true → P g.toFunc.body →
      Gives P R q (.rowStep s f) (.rowStep q s g)
  | orderBy {key : RowFunc} {direction : Direction}
      (f : ChainQuery.RowFunc) :
      q.shape.isSequence = true → P f.toFunc.body →
      Gives P R q (.orderBy key direction)
        (.orderBy q (.mk f direction) [])
  | thenBy {key : RowFunc} {direction : Direction}
      {made : ChainQuery.Query} (f : ChainQuery.RowFunc) :
      P f.toFunc.body → q.thenBy? (.mk f direction) = some made →
      Gives P R q (.thenBy key direction) made
  | union {other : Query} (r : ChainQuery.Query) :
      q.shape.isSequence = true → R r → (r.shape == q.shape) = true →
      Gives P R q (.union other) (.union q r)
  | reduce {f : PairFunc} (g : ChainQuery.PairFunc) :
      q.shape.isSequence = true → P g.toFunc.body →
      Gives P R q (.reduce f) (.reduce q g none)
  | groupBy {reduction : Reduction} {key : RowFunc}
      (r : ChainQuery.Reduction) (f : ChainQuery.RowFunc) :
      q.shape.isSequence = true → P f.toFunc.body →
      Gives P R q (.groupBy reduction key) (.groupBy q r f)
  | groupedMapReduce {grouping mapping : RowFunc} {reduction : PairFunc}
      (g m : ChainQuery.RowFunc) (r : ChainQuery.PairFunc) :
      q.shape.isSequence = true → P g.toFunc.body → P m.toFunc.body →
      P r.toFunc.body →
      Gives P R q (.groupedMapReduce grouping mapping reduction)
        (.groupedMapReduce q g m r none)
  | join {kind : JoinKind} {other : Query} {predicate : PairFunc}
      (r : ChainQuery.Query) (f : ChainQuery.PairFunc) :
      q.shape.isSequence = true → R r → r.shape.isSequence = true →
      P f.toFunc.body →
      Gives P R q (.join kind other predicate) (.join kind q r f)
  | eqJoin {member : RowFunc} {other : Query} (r : ChainQuery.Query)
      (f : ChainQuery.RowFunc) :
      q.shape.isSequence = true → R r → r.shape.isSequence = true →
      Gives P R q (.eqJoin member other) (.eqJoin q f r none)

/-- Whatever a captured step gives, it gives by the rule of its form. -/
theorem gives_capture {a : Action} {word : String}
    (hbodies : ∀ e ∈ a.bodies, Yields P shelf e.capture)
    (hother : ∀ r ∈ a.other?, Yields R shelf r.capture) :
    Yields (a.Gives P R q) shelf (a.capture word q) := by
  cases a with
  | onDatabase s => exact yields_mono yields_offered fun _ h => .onDatabase h
  | onTable s => exact yields_mono yields_offered fun _ h => .onTable h
  | modify m => exact yields_mono yields_offered fun _ h => .modify h
  | plain s =>
      refine yields_mono yields_offered fun made h => ?_
      rw [ChainQuery.Query.andThen?] at h
      split at h
      · next haccepts =>
          cases h
          exact .plain haccepts
      · cases h
  | indexCreateWith name key =>
      have hkey := yields_rowFunc (hbodies _ (.head _))
      exact yields_bind yields_offered fun t ht =>
        yields_bind hkey fun f hf => yields_done (.indexCreateWith f ht hf)
  | rowStep s f =>
      have hf := yields_rowFunc (hbodies _ (.head _))
      exact yields_bind yields_require fun _ haccepts =>
        yields_bind hf fun g hg => yields_done (.rowStep g haccepts hg)
  | orderBy key direction =>
      have hkey := yields_rowFunc (hbodies _ (.head _))
      exact yields_bind yields_require fun _ hsequence =>
        yields_bind hkey fun f hf => yields_done (.orderBy f hsequence hf)
  | thenBy key direction =>
      have hkey := yields_rowFunc (hbodies _ (.head _))
      exact yields_bind yields_require fun _ _ =>
        yields_bind hkey fun f hf =>
          yields_mono yields_offered fun _ h => .thenBy f hf h
  | union other =>
      have hr := hother other rfl
      exact yields_bind yields_require fun _ hsequence =>
        yields_bind hr fun r hr =>
          yields_bind yields_require fun _ hsame =>
            yields_done (.union r hsequence hr hsame)
  | reduce f =>
      have hf := yields_pairFunc (hbodies _ (.head _))
      exact yields_bind yields_require fun _ hsequence =>
        yields_bind hf fun g hg => yields_done (.reduce g hsequence hg)
  | groupBy reduction key =>
      have hkey := yields_rowFunc (hbodies _ (.head _))
      exact yields_bind yields_require fun _ hsequence =>
        yields_bind (yields_any _) fun r _ =>
          yields_bind hkey fun f hf =>
            yields_done (.groupBy r f hsequence hf)
  | groupedMapReduce grouping mapping reduction =>
      have hg := yields_rowFunc (hbodies _ (.head _))
      have hm := yields_rowFunc (hbodies _ (.tail _ (.head _)))
      have hr := yields_pairFunc (hbodies _ (.tail _ (.tail _ (.head _))))
      exact yields_bind yields_require fun _ hsequence =>
        yields_bind (yields_makingOnFailure _ hg) fun g hg =>
          yields_bind (yields_makingOnFailure _ hm) fun m hm =>
            yields_bind hr fun r hr =>
              yields_done (.groupedMapReduce g m r hsequence hg hm hr)
  | join kind other predicate =>
      have hr := hother other rfl
      have hf := yields_pairFunc (hbodies _ (.head _))
      exact yields_bind yields_require fun _ hleft =>
        yields_bind hr fun r hr =>
          yields_bind yields_require fun _ hright =>
            yields_bind hf fun f hf =>
              yields_done (.join r f hleft hr hright hf)
  | eqJoin member other =>
      have hr := hother other rfl
      exact yields_bind yields_require fun _ hleft =>
        yields_bind hr fun r hr =>
          yields_bind yields_require fun _ hright =>
            yields_bind (yields_any _) fun f _ =>
              yields_done (.eqJoin r f hleft hr hright)

/-! ## Lists and whole chains -/

theorem yields_items {es : List Expr}
    (h : ∀ e ∈ es, Yields P shelf e.capture) :
    Yields (fun made => ∀ e ∈ made, P e) shelf (captureItems es) := by
  induction es with
  | nil => exact yields_done (List.forall_mem_nil _)
  | cons e es ih =>
      obtain ⟨he, hes⟩ := List.forall_mem_cons.mp h
      exact yields_bind he fun x hx => yields_bind (ih hes) fun xs hxs =>
        yields_done (List.forall_mem_cons.mpr ⟨hx, hxs⟩)

theorem yields_members {ms : List (String × Expr)}
    (h : ∀ m ∈ ms, Yields P shelf m.2.capture) :
    Yields (fun made => ∀ m ∈ made, P m.2) shelf (captureMembers ms) := by
  induction ms with
  | nil => exact yields_done (List.forall_mem_nil _)
  | cons m ms ih =>
      obtain ⟨hm, hms⟩ := List.forall_mem_cons.mp h
      exact yields_bind hm fun x hx => yields_bind (ih hms) fun xs hxs =>
        yields_done (List.forall_mem_cons.mpr ⟨hx, hxs⟩)

/-- What every step preserves, a run of steps preserves. -/
theorem yields_steps {steps : List Written}
    (h : ∀ w ∈ steps, ∀ q, R q →
      Yields R shelf (w.action.capture w.word q)) (hq : R q) :
    Yields R shelf (captureSteps steps q) := by
  induction steps generalizing q with
  | nil => exact yields_done hq
  | cons w steps ih =>
      obtain ⟨hw, hsteps⟩ := List.forall_mem_cons.mp h
      obtain ⟨word, action⟩ := w
      exact yields_bind (hw q hq) fun made hmade => ih hsteps hmade

end Steps

end ChainQuery.Draft
