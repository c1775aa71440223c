import ChainQuery.Proofs.Sessions

/-! # Identities — one embedding, one chain

    A chain that is embedded in an expression gets an identity when it is
    captured, and copies of the expression keep it.  Two embeddings under
    one identity are therefore copies of one embedding, and hold one chain
    (`SharedChains`).  The route:

    * capturing uses up identities and never gives one back, on failure
      neither (`advances_hereditary`);
    * what a captured expression embeds is either something stored or has
      an identity that was made on the way, each for one chain
      (`mints_hereditary`);
    * so that everything stored shares its chains is an invariant of
      sessions (`sharing_invariant`, `sharing_after`). -/

namespace ChainQuery

/-! ## Embedded chains -/

mutual

/-- The chains embedded in an expression, each with the identity of its
    embedding.  What is embedded in those chains is not listed. -/
def Expr.embeds : Expr → List (Nat × Query)
  | .param _ => []
  | .literal _ => []
  | .field e _ => Expr.embeds e
  | .compare _ a b => Expr.embeds a ++ Expr.embeds b
  | .arith _ a b => Expr.embeds a ++ Expr.embeds b
  | .all es => embedsOfItems es
  | .any es => embedsOfItems es
  | .not e => Expr.embeds e
  | .array es => embedsOfItems es
  | .object ms => embedsOfMembers ms
  | .call _ es => embedsOfItems es
  | .subquery i q => [(i, q)]
termination_by structural e => e

/-- The chains embedded in expressions, in order. -/
def embedsOfItems : List Expr → List (Nat × Query)
  | [] => []
  | e :: es => Expr.embeds e ++ embedsOfItems es
termination_by structural es => es

/-- The chains embedded in members, in order. -/
def embedsOfMembers : List (String × Expr) → List (Nat × Query)
  | [] => []
  | (_, e) :: ms => Expr.embeds e ++ embedsOfMembers ms
termination_by structural ms => ms

end

/-- What is embedded on both sides under one identity is one chain. -/
def SharedChains (xs ys : List (Nat × Query)) : Prop :=
  ∀ i q r, (i, q) ∈ xs → (i, r) ∈ ys → q = r

/-- Where sequences share their chains, their parts do. -/
theorem shared_append {xs xs' ys ys' : List (Nat × Query)}
    (h : SharedChains (xs ++ xs') (ys ++ ys')) :
    SharedChains xs ys ∧ SharedChains xs' ys' :=
  ⟨fun i q r hq hr => h i q r (List.mem_append_left _ hq)
      (List.mem_append_left _ hr),
    fun i q r hq hr => h i q r (List.mem_append_right _ hq)
      (List.mem_append_right _ hr)⟩

namespace Draft

/-- Some expression or function that is stored embeds this. -/
inductive Shelf.Embeds (shelf : Shelf) (x : Nat × ChainQuery.Query) :
    Prop where
  | expr {e} : e ∈ shelf.exprs → x ∈ e.2.embeds → Shelf.Embeds shelf x
  | func {f} : f ∈ shelf.funcs → x ∈ f.2.body.embeds →
      Shelf.Embeds shelf x

open Capture

/-! ## Identities are used up -/

namespace Capture

variable {α β : Type} {x : Capture α}

/-- Identities are used up in order, on failure too. -/
def Advances (x : Capture α) : Prop :=
  ∀ around supply,
    supply.nextIdentity ≤ (x around supply).2.nextIdentity

theorem advances_done (a : α) : Advances (pure a : Capture α) :=
  fun _ _ => Nat.le_refl _

theorem advances_bind {f : α → Capture β} (hx : Advances x)
    (hf : ∀ a, Advances (f a)) : Advances (x >>= f) := by
  intro around supply
  show _ ≤ (andThen x f around supply).2.nextIdentity
  have hfirst := hx around supply
  rw [andThen]
  rcases hresult : x around supply with ⟨r, middle⟩
  rw [hresult] at hfirst
  cases r with
  | error e => exact hfirst
  | ok a => exact Nat.le_trans hfirst (hf a around middle)

/-- A step that gives the supply back as it was, or with parameters more
    only. -/
theorem advances_offered (word : String) (o : Option α) :
    Advances (offered word o) := by
  cases o with
  | none => exact fun _ _ => Nat.le_refl _
  | some a => exact fun _ _ => Nat.le_refl _

theorem advances_require (word : String) (ok : Bool) :
    Advances (require word ok) := by
  cases ok with
  | false => exact fun _ _ => Nat.le_refl _
  | true => exact fun _ _ => Nat.le_refl _

theorem advances_make (name : String) : Advances (make name) :=
  fun _ _ => Nat.le_refl _

theorem advances_makeUnnamed : Advances makeUnnamed :=
  fun _ _ => Nat.le_refl _

theorem advances_makeIdentity : Advances makeIdentity :=
  fun _ _ => Nat.le_succ _

theorem advances_makeAll (names : List String) :
    Advances (makeAll names) := by
  induction names with
  | nil => exact advances_done []
  | cons name names ih =>
      exact advances_bind (advances_make name) fun _ =>
        advances_bind ih fun _ => advances_done _

theorem advances_makingOnFailure (names : List String)
    (h : Advances x) : Advances (makingOnFailure names x) := by
  intro around supply
  have hfirst := h around supply
  rw [makingOnFailure]
  rcases hresult : x around supply with ⟨r, middle⟩
  rw [hresult] at hfirst
  cases r with
  | error e =>
      exact Nat.le_trans hfirst (advances_makeAll names around middle)
  | ok a => exact hfirst

theorem advances_resolve (name : String) : Advances (resolve name) := by
  intro around supply
  rw [resolve]
  cases around.bound.lookup name with
  | some p => exact Nat.le_refl _
  | none =>
      cases supply.made.lookup name with
      | some p => exact Nat.le_refl _
      | none => exact Nat.le_refl _

theorem advances_resolveAll (names : List String) :
    Advances (resolveAll names) := by
  induction names with
  | nil => exact advances_done []
  | cons name names ih =>
      exact advances_bind (advances_resolve name) fun _ =>
        advances_bind ih fun _ => advances_done _

theorem advances_binding (names : List String) (params : List Param)
    (h : Advances x) : Advances (binding names params x) :=
  fun _ supply => h _ supply

theorem advances_storedIn (things : Shelf → List (String × α))
    (name : String) : Advances (storedIn things name) := by
  intro around supply
  rw [storedIn]
  cases (things around.shelf).lookup name with
  | some a => exact Nat.le_refl _
  | none => exact Nat.le_refl _

end Capture

theorem advances_items {es : List Expr}
    (h : ∀ e ∈ es, Advances e.capture) : Advances (captureItems es) := by
  induction es with
  | nil => exact advances_done []
  | cons e es ih =>
      obtain ⟨he, hes⟩ := List.forall_mem_cons.mp h
      exact advances_bind he fun _ => advances_bind (ih hes) fun _ =>
        advances_done _

theorem advances_members {ms : List (String × Expr)}
    (h : ∀ m ∈ ms, Advances m.2.capture) :
    Advances (captureMembers ms) := by
  induction ms with
  | nil => exact advances_done []
  | cons m ms ih =>
      obtain ⟨hm, hms⟩ := List.forall_mem_cons.mp h
      exact advances_bind hm fun _ => advances_bind (ih hms) fun _ =>
        advances_done _

theorem advances_rowFunc {f : RowFunc} (h : Advances f.body.capture) :
    Advances f.capture := by
  obtain ⟨row, body⟩ := f
  exact advances_bind (advances_make row) fun _ =>
    advances_bind (advances_binding _ _ h) fun _ => advances_done _

theorem advances_pairFunc {f : PairFunc} (h : Advances f.body.capture) :
    Advances f.capture := by
  obtain ⟨left, right, body⟩ := f
  exact advances_bind (advances_make left) fun _ =>
    advances_bind (advances_make right) fun _ =>
      advances_bind (advances_binding _ _ h) fun _ => advances_done _

theorem advances_reduction {r : Reduction}
    (h : ∀ e ∈ r.bodies, Advances e.capture) : Advances r.capture := by
  cases r with
  | count => exact advances_done _
  | sum f | average f =>
      exact advances_bind (advances_rowFunc (h _ (.head _))) fun _ =>
        advances_done _

theorem advances_action {a : Action} (word : String)
    (q : ChainQuery.Query) (hbodies : ∀ e ∈ a.bodies, Advances e.capture)
    (hother : ∀ r ∈ a.other?, Advances r.capture) :
    Advances (a.capture word q) := by
  cases a with
  | onDatabase s | onTable s | modify m | plain s =>
      exact advances_offered word _
  | indexCreateWith name key =>
      have hkey := advances_rowFunc (hbodies _ (.head _))
      exact advances_bind (advances_offered word _) fun _ =>
        advances_bind hkey fun _ => advances_done _
  | rowStep s f =>
      have hf := advances_rowFunc (hbodies _ (.head _))
      exact advances_bind (advances_require word _) fun _ =>
        advances_bind hf fun _ => advances_done _
  | orderBy key direction =>
      have hkey := advances_rowFunc (hbodies _ (.head _))
      exact advances_bind (advances_require word _) fun _ =>
        advances_bind hkey fun _ => advances_done _
  | thenBy key direction =>
      have hkey := advances_rowFunc (hbodies _ (.head _))
      exact advances_bind (advances_require word _) fun _ =>
        advances_bind hkey fun _ => advances_offered word _
  | union other =>
      exact advances_bind (advances_require word _) fun _ =>
        advances_bind (hother other rfl) fun _ =>
          advances_bind (advances_require word _) fun _ => advances_done _
  | reduce f =>
      have hf := advances_pairFunc (hbodies _ (.head _))
      exact advances_bind (advances_require word _) fun _ =>
        advances_bind hf fun _ => advances_done _
  | groupBy reduction key =>
      obtain ⟨hbody, hreduction⟩ := List.forall_mem_cons.mp hbodies
      have hkey := advances_rowFunc hbody
      exact advances_bind (advances_require word _) fun _ =>
        advances_bind (advances_reduction hreduction) fun _ =>
          advances_bind hkey fun _ => advances_done _
  | groupedMapReduce grouping mapping reduction =>
      have hg := advances_rowFunc (hbodies _ (.head _))
      have hm := advances_rowFunc (hbodies _ (.tail _ (.head _)))
      have hr := advances_pairFunc
        (hbodies _ (.tail _ (.tail _ (.head _))))
      exact advances_bind (advances_require word _) fun _ =>
        advances_bind (advances_makingOnFailure _ hg) fun _ =>
          advances_bind (advances_makingOnFailure _ hm) fun _ =>
            advances_bind hr fun _ => advances_done _
  | join kind other predicate =>
      have hf := advances_pairFunc (hbodies _ (.head _))
      exact advances_bind (advances_require word _) fun _ =>
        advances_bind (hother other rfl) fun _ =>
          advances_bind (advances_require word _) fun _ =>
            advances_bind hf fun _ => advances_done _
  | eqJoin member other =>
      have hmember := advances_rowFunc (hbodies _ (.head _))
      exact advances_bind (advances_require word _) fun _ =>
        advances_bind (hother other rfl) fun _ =>
          advances_bind (advances_require word _) fun _ =>
            advances_bind hmember fun _ => advances_done _

theorem advances_steps {steps : List Written}
    (h : ∀ w ∈ steps, ∀ word q, Advances (w.action.capture word q))
    (q : ChainQuery.Query) : Advances (captureSteps steps q) := by
  induction steps generalizing q with
  | nil => exact advances_done q
  | cons w steps ih =>
      obtain ⟨hw, hsteps⟩ := List.forall_mem_cons.mp h
      obtain ⟨word, action⟩ := w
      exact advances_bind (hw word q) fun made => ih hsteps made

theorem advances_start (start : Start) : Advances start.capture := by
  cases start with
  | root r => exact advances_done _
  | stored name => exact advances_storedIn _ name

/-- Capturing anything uses identities up in order. -/
theorem advances_hereditary :
    Hereditary (fun e => Advances e.capture)
      (fun a => ∀ word q, Advances (a.capture word q))
      (fun q => Advances q.capture) where
  named name := advances_bind (advances_resolve name) fun _ =>
    advances_done _
  fresh := advances_bind advances_makeUnnamed fun _ => advances_done _
  stored name := advances_storedIn _ name
  literal _ := advances_done _
  field _ _ he := advances_bind he fun _ => advances_done _
  compare _ _ _ ha hb := advances_bind ha fun _ =>
    advances_bind hb fun _ => advances_done _
  arith _ _ _ ha hb := advances_bind ha fun _ =>
    advances_bind hb fun _ => advances_done _
  all _ hes := advances_bind (advances_items hes) fun _ =>
    advances_done _
  any _ hes := advances_bind (advances_items hes) fun _ =>
    advances_done _
  not _ he := advances_bind he fun _ => advances_done _
  array _ hes := advances_bind (advances_items hes) fun _ =>
    advances_done _
  object _ hms := advances_bind (advances_members hms) fun _ =>
    advances_done _
  call _ _ hes := advances_bind (advances_items hes) fun _ =>
    advances_done _
  subquery _ hq := advances_bind hq fun _ =>
    advances_bind advances_makeIdentity fun _ => advances_done _
  action _ hbodies hother word q :=
    advances_action word q hbodies hother
  chain start steps hsteps := by
    refine advances_bind (advances_start start) fun q => ?_
    exact advances_steps hsteps q

/-! ## Identities that are made -/

/-- What is embedded comes from the shelf, or under identities from
    `first` to before `next`, each of them for one chain. -/
structure Minted (shelf : Shelf) (first next : Nat)
    (xs : List (Nat × ChainQuery.Query)) : Prop where
  origin : ∀ x ∈ xs, shelf.Embeds x ∨ (first ≤ x.1 ∧ x.1 < next)
  single : ∀ i q r, first ≤ i → (i, q) ∈ xs → (i, r) ∈ xs → q = r

/-- All that is stored was made before. -/
def Shelf.Before (shelf : Shelf) (next : Nat) : Prop :=
  ∀ x, shelf.Embeds x → x.1 < next

variable {shelf : Shelf} {first middle next : Nat}
  {xs ys : List (Nat × ChainQuery.Query)}

theorem minted_stored (h : ∀ x ∈ xs, shelf.Embeds x)
    (hbefore : shelf.Before first) : Minted shelf first next xs where
  origin x hx := .inl (h x hx)
  single i q _ hi hq _ :=
    absurd (hbefore (i, q) (h _ hq)) (Nat.not_lt.mpr hi)

/-- What was made first has smaller identities than what was made next. -/
theorem minted_append (hbefore : shelf.Before first)
    (hfirst : first ≤ middle) (hnext : middle ≤ next)
    (hxs : Minted shelf first middle xs)
    (hys : Minted shelf middle next ys) :
    Minted shelf first next (xs ++ ys) where
  origin x hx := by
    rcases List.mem_append.mp hx with hmem | hmem
    · refine (hxs.origin x hmem).imp_right fun h => ⟨h.1, ?_⟩
      exact Nat.lt_of_lt_of_le h.2 hnext
    · refine (hys.origin x hmem).imp_right fun h => ⟨?_, h.2⟩
      exact Nat.le_trans hfirst h.1
  single i q r hi hq hr := by
    have hleft : ∀ q, (i, q) ∈ xs → i < middle := by
      intro q hq
      rcases hxs.origin _ hq with hstored | hmade
      · exact absurd (hbefore _ hstored) (Nat.not_lt.mpr hi)
      · exact hmade.2
    have hright : ∀ q, (i, q) ∈ ys → middle ≤ i := by
      intro q hq
      rcases hys.origin _ hq with hstored | hmade
      · exact absurd (hbefore _ hstored) (Nat.not_lt.mpr hi)
      · exact hmade.1
    -- No identity that is new is on both sides.
    rcases List.mem_append.mp hq with hq | hq <;>
      rcases List.mem_append.mp hr with hr | hr
    · exact hxs.single i q r hi hq hr
    · exact absurd (hleft q hq) (Nat.not_lt.mpr (hright r hr))
    · exact absurd (hleft r hr) (Nat.not_lt.mpr (hright q hq))
    · exact hys.single i q r (hright q hq) hq hr

namespace Capture

variable {α β γ : Type} {embeds : α → List (Nat × ChainQuery.Query)}
  {embeds' : β → List (Nat × ChainQuery.Query)}
  {embeds'' : γ → List (Nat × ChainQuery.Query)} {x : Capture α}
  {y : α → Capture β}

/-- What a step of capturing gives embeds chains from the shelf and under
    identities that it has made. -/
def Mints (shelf : Shelf)
    (embeds : α → List (Nat × ChainQuery.Query)) (x : Capture α) : Prop :=
  ∀ bound supply a rest, shelf.Before supply.nextIdentity →
    x ⟨bound, shelf⟩ supply = (.ok a, rest) →
      Minted shelf supply.nextIdentity rest.nextIdentity (embeds a)

theorem mints_none (x : Capture α) : Mints shelf (fun _ => []) x :=
  fun _ _ _ _ hbefore _ =>
    minted_stored (List.forall_mem_nil _) hbefore

theorem mints_map {g : α → γ} (hx : Mints shelf embeds x)
    (hg : ∀ a, embeds'' (g a) = embeds a) :
    Mints shelf embeds'' (x >>= fun a => pure (g a)) := by
  intro bound supply c rest hbefore h
  obtain ⟨a, middle, ha, hc⟩ := andThen_ok h
  cases hc
  rw [hg]
  exact hx bound supply a _ hbefore ha

theorem mints_map₂ {g : α → β → γ} (hx : Mints shelf embeds x)
    (hadvances : Advances x) (hy : ∀ a, Mints shelf embeds' (y a))
    (hadvances' : ∀ a, Advances (y a))
    (hg : ∀ a b, embeds'' (g a b) = embeds a ++ embeds' b) :
    Mints shelf embeds''
      (x >>= fun a => y a >>= fun b => pure (g a b)) := by
  intro bound supply c rest hbefore h
  obtain ⟨a, middle, ha, h⟩ := andThen_ok h
  obtain ⟨b, last, hb, hc⟩ := andThen_ok h
  cases hc
  have hfirst := hadvances ⟨bound, shelf⟩ supply
  have hnext := hadvances' a ⟨bound, shelf⟩ middle
  rw [ha] at hfirst
  rw [hb] at hnext
  have hbefore' : shelf.Before middle.nextIdentity :=
    fun x hx => Nat.lt_of_lt_of_le (hbefore x hx) hfirst
  rw [hg]
  exact minted_append hbefore hfirst hnext
    (hx bound supply a middle hbefore ha)
    (hy a bound middle b _ hbefore' hb)

theorem mints_binding (names : List String) (params : List Param)
    (hx : Mints shelf embeds x) :
    Mints shelf embeds (binding names params x) :=
  fun _ supply a rest hbefore h => hx _ supply a rest hbefore h

theorem mints_storedIn {things : Shelf → List (String × α)} (name : String)
    (h : ∀ entry ∈ things shelf, ∀ x ∈ embeds entry.2, shelf.Embeds x) :
    Mints shelf embeds (storedIn things name) := by
  intro bound supply a rest hbefore hstored
  exact minted_stored (yields_stored (Q := fun a => ∀ x ∈ embeds a,
    shelf.Embeds x) h name bound supply a rest hstored) hbefore

end Capture

/-- The chains embedded in what is captured of an expression. -/
def Expr.Mints (shelf : Shelf) (e : Expr) : Prop :=
  Capture.Mints shelf ChainQuery.Expr.embeds e.capture

theorem mints_items {es : List Expr} (h : ∀ e ∈ es, e.Mints shelf) :
    Capture.Mints shelf embedsOfItems (captureItems es) := by
  induction es with
  | nil =>
      rintro _ _ _ _ hbefore ⟨⟩
      exact minted_stored (List.forall_mem_nil _) hbefore
  | cons e es ih =>
      obtain ⟨he, hes⟩ := List.forall_mem_cons.mp h
      exact mints_map₂ he (advances_hereditary.expr e) (fun _ => ih hes)
        (fun _ => advances_items fun e _ => advances_hereditary.expr e)
        fun _ _ => rfl

theorem mints_members {ms : List (String × Expr)}
    (h : ∀ m ∈ ms, m.2.Mints shelf) :
    Capture.Mints shelf embedsOfMembers (captureMembers ms) := by
  induction ms with
  | nil =>
      rintro _ _ _ _ hbefore ⟨⟩
      exact minted_stored (List.forall_mem_nil _) hbefore
  | cons m ms ih =>
      obtain ⟨hm, hms⟩ := List.forall_mem_cons.mp h
      exact mints_map₂ hm (advances_hereditary.expr m.2)
        (fun _ => ih hms)
        (fun _ => advances_members fun m _ => advances_hereditary.expr m.2)
        fun _ _ => rfl

/-- A captured chain is embedded under the identity that is made next. -/
theorem mints_subquery (q : Query) :
    (Expr.subquery q).Mints shelf := by
  intro bound supply e rest hbefore h
  obtain ⟨made, middle, hmade, h⟩ := andThen_ok h
  cases h
  -- Capturing the chain may have used up identities before its own.
  have hfirst := advances_hereditary.query q ⟨bound, shelf⟩ supply
  rw [hmade] at hfirst
  refine ⟨List.forall_mem_singleton.mpr (.inr ⟨hfirst, ?_⟩), ?_⟩
  · exact Nat.lt_succ_self _
  · intro i q r _ hq hr
    cases List.mem_singleton.mp hq
    cases List.mem_singleton.mp hr
    rfl

/-- Of an expression, whatever it embeds was stored or is new. -/
theorem mints_hereditary (shelf : Shelf) :
    Hereditary (Expr.Mints shelf) (fun _ => True) (fun _ => True) where
  named _ := mints_map (mints_none _) fun _ => rfl
  fresh := mints_map (mints_none _) fun _ => rfl
  stored name := mints_storedIn name fun _ he _ hx => .expr he hx
  literal v := mints_map (mints_none (pure v)) fun _ => rfl
  field _ _ he := mints_map he fun _ => rfl
  compare _ a b ha hb :=
    mints_map₂ ha (advances_hereditary.expr a) (fun _ => hb)
      (fun _ => advances_hereditary.expr b) fun _ _ => rfl
  arith _ a b ha hb :=
    mints_map₂ ha (advances_hereditary.expr a) (fun _ => hb)
      (fun _ => advances_hereditary.expr b) fun _ _ => rfl
  all _ hes := mints_map (mints_items hes) fun _ => rfl
  any _ hes := mints_map (mints_items hes) fun _ => rfl
  not _ he := mints_map he fun _ => rfl
  array _ hes := mints_map (mints_items hes) fun _ => rfl
  object _ hms := mints_map (mints_members hms) fun _ => rfl
  call _ _ hes := mints_map (mints_items hes) fun _ => rfl
  subquery q _ := mints_subquery q
  action _ _ _ := trivial
  chain _ _ _ := trivial

theorem advances_func (f : Func) : Advances f.capture := by
  cases f with
  | closure names body =>
      have hbody := advances_hereditary.expr body
      exact advances_bind (advances_makeAll names) fun _ =>
        advances_bind (advances_binding _ _ hbody) fun _ =>
          advances_done _
  | member name =>
      exact advances_bind advances_makeUnnamed fun _ => advances_done _
  | «over» names body =>
      exact advances_bind (advances_resolveAll names) fun _ =>
        advances_bind (advances_hereditary.expr body) fun _ =>
          advances_done _
  | stored name => exact advances_storedIn _ name

/-- What the body of a captured function embeds was stored or is new. -/
theorem mints_func (shelf : Shelf) (f : Func) :
    Capture.Mints shelf (fun f => f.body.embeds) f.capture := by
  cases f with
  | closure names body =>
      have hbody := (mints_hereditary shelf).expr body
      have hadvances := advances_hereditary.expr body
      exact mints_map₂ (mints_none _) (advances_makeAll names)
        (fun _ => mints_binding _ _ hbody)
        (fun _ => advances_binding _ _ hadvances) fun _ _ => rfl
  | member name => exact mints_map (mints_none _) fun _ => rfl
  | «over» names body =>
      have hbody := (mints_hereditary shelf).expr body
      exact mints_map₂ (mints_none _) (advances_resolveAll names)
        (fun _ => hbody) (fun _ => advances_hereditary.expr body)
        fun _ _ => rfl
  | stored name => exact mints_storedIn name fun _ hf _ hx => .func hf hx

end Draft

/-! ## Sessions -/

namespace Session

open Draft

/-- All that is stored was made before, and what it embeds under one
    identity is one chain. -/
structure Sharing (s : Session) : Prop where
  before : s.shelf.Before s.supply.nextIdentity
  single : ∀ i q r, s.shelf.Embeds (i, q) → s.shelf.Embeds (i, r) → q = r

variable {s : Session} {α : Type}

theorem sharing_start (c : Converter) : (start c).Sharing := by
  have hempty : ∀ x, ¬ (start c).shelf.Embeds x := by
    rintro x (⟨he, -⟩ | ⟨hf, -⟩)
    · cases he
    · cases hf
  exact ⟨fun x hx => absurd hx (hempty x),
    fun _ _ _ hq => absurd hq (hempty _)⟩

/-- What may be stored: it was made before, and shares its chains with
    what is stored and with itself. -/
structure Joins (s : Session) (xs : List (Nat × Query)) : Prop where
  before : ∀ x ∈ xs, x.1 < s.supply.nextIdentity
  within : SharedChains xs xs
  stored : ∀ i q r, (i, q) ∈ xs → s.shelf.Embeds (i, r) → q = r

/-- Whatever is on the shelf afterwards was there before or has joined. -/
theorem sharing_joined {s' : Session} {xs : List (Nat × Query)}
    (h : s.Sharing) (hxs : s.Joins xs) (hsupply : s'.supply = s.supply)
    (hshelf : ∀ x, s'.shelf.Embeds x → s.shelf.Embeds x ∨ x ∈ xs) :
    s'.Sharing where
  before x hx := by
    rw [hsupply]
    exact (hshelf x hx).elim (h.before x) (hxs.before x)
  single i q r hq hr := by
    rcases hshelf _ hq with hq | hq <;> rcases hshelf _ hr with hr | hr
    · exact h.single i q r hq hr
    · exact (hxs.stored i r q hr hq).symm
    · exact hxs.stored i q r hq hr
    · exact hxs.within i q r hq hr

theorem mem_keep {store : Option String} {a : α}
    {things : List (String × α)} {entry : String × α}
    (h : entry ∈ keep store a things) :
    entry ∈ things ∨ entry.2 = a := by
  cases store with
  | none => exact .inl h
  | some name =>
      rcases List.mem_cons.mp h with rfl | h
      · exact .inr rfl
      · exact .inl h

theorem sharing_keepExpr (store : Option String) {e : Expr}
    (h : s.Sharing) (he : s.Joins e.embeds) :
    (s.keepExpr store e).Sharing := by
  refine sharing_joined h he rfl ?_
  rintro x (⟨hmem, hx⟩ | ⟨hmem, hx⟩)
  · rcases mem_keep hmem with hmem | rfl
    · exact .inl (.expr hmem hx)
    · exact .inr hx
  · exact .inl (.func hmem hx)

theorem sharing_keepFunc (store : Option String) {f : Func}
    (h : s.Sharing) (hf : s.Joins f.body.embeds) :
    (s.keepFunc store f).Sharing := by
  refine sharing_joined h hf rfl ?_
  rintro x (⟨hmem, hx⟩ | ⟨hmem, hx⟩)
  · exact .inl (.expr hmem hx)
  · rcases mem_keep hmem with hmem | rfl
    · exact .inl (.func hmem hx)
    · exact .inr hx

/-- Chains are stored without an identity. -/
theorem sharing_keepQuery (store : Option String) (q : Query)
    (h : s.Sharing) : (s.keepQuery store q).Sharing := by
  have hnothing : s.Joins [] :=
    ⟨List.forall_mem_nil _, fun _ _ _ hq => absurd hq List.not_mem_nil,
      fun _ _ _ hq => absurd hq List.not_mem_nil⟩
  refine sharing_joined h hnothing rfl ?_
  rintro x (⟨hmem, hx⟩ | ⟨hmem, hx⟩)
  · exact .inl (.expr hmem hx)
  · exact .inl (.func hmem hx)

/-- What is captured with the supply of a session. -/
theorem joins_of_minted {xs : List (Nat × Query)} {rest : Supply}
    (h : s.Sharing)
    (hxs : Minted s.shelf s.supply.nextIdentity rest.nextIdentity xs)
    (hrest : s.supply.nextIdentity ≤ rest.nextIdentity) :
    Joins { s with supply := rest } xs := by
  have hstored : ∀ i q r, (i, q) ∈ xs → s.shelf.Embeds (i, r) →
      q = r := by
    intro i q r hq hr
    rcases hxs.origin _ hq with hold | hnew
    · exact h.single i q r hold hr
    · exact absurd (h.before _ hr) (Nat.not_lt.mpr hnew.1)
  refine ⟨fun x hx => ?_, fun i q r hq hr => ?_, hstored⟩
  · rcases hxs.origin x hx with hold | hnew
    · exact Nat.lt_of_lt_of_le (h.before x hold) hrest
    · exact hnew.2
  · rcases hxs.origin _ hq with hold | hnew
    · exact (hstored i r q hr hold).symm
    · exact hxs.single i q r hnew.1 hq hr

/-- Identities that are used up change nothing for what is stored. -/
theorem sharing_supplied {rest : Supply} (h : s.Sharing)
    (hrest : s.supply.nextIdentity ≤ rest.nextIdentity) :
    Sharing { s with supply := rest } :=
  ⟨fun x hx => Nat.lt_of_lt_of_le (h.before x hx) hrest, h.single⟩

/-- What is captured joins what is stored. -/
theorem keeping_of_mints {draft : Capture α}
    {embeds : α → List (Nat × Query)} (hadvances : Capture.Advances draft)
    (hmints : ∀ shelf, Capture.Mints shelf embeds draft) :
    Keeping Sharing (fun s a => s.Joins (embeds a)) draft := by
  intro s h
  have hrest := hadvances ⟨[], s.shelf⟩ s.supply
  refine ⟨sharing_supplied h hrest, fun a ha => ?_⟩
  have hminted := hmints s.shelf [] s.supply a _ h.before (Prod.ext ha rfl)
  exact joins_of_minted h hminted hrest

/-- Capturing what is not stored under identities. -/
theorem keeping_of_advances {draft : Capture α}
    (hadvances : Capture.Advances draft) :
    Keeping Sharing (fun _ _ => True) draft :=
  fun s h => ⟨sharing_supplied h (hadvances ⟨[], s.shelf⟩ s.supply),
    fun _ _ => trivial⟩

/-- What is stored goes on sharing its chains. -/
theorem sharing_invariant :
    Invariant Sharing (fun s e => s.Joins e.embeds) fun _ _ => True where
  unnamed := keeping_of_advances Capture.advances_makeUnnamed
  named name := keeping_of_advances (Capture.advances_make name)
  expr d := keeping_of_mints (advances_hereditary.expr d) fun shelf =>
    (mints_hereditary shelf).expr d
  func d := keeping_of_mints (advances_func d) fun shelf =>
    mints_func shelf d
  query d := keeping_of_advances (advances_hereditary.query d)
  keepExpr := sharing_keepExpr
  keepFunc := sharing_keepFunc
  keepQuery store q h _ := sharing_keepQuery store q h
  aside h hshelf hsupply := by
    refine ⟨?_, ?_⟩
    · rw [hshelf, hsupply]
      exact h.before
    · rw [hshelf]
      exact h.single

/-- Every run of requests keeps what is stored sharing its chains. -/
theorem sharing_after (h : s.Sharing) (requests : List Request) :
    (s.after requests).Sharing :=
  preserves_after sharing_invariant h requests

/-- What is captured one after the other shares its chains. -/
theorem shared_of_captured {β : Type} {x : Capture α} {y : Capture β}
    {embeds : α → List (Nat × Query)} {embeds' : β → List (Nat × Query)}
    (h : s.Sharing) (hadvances : Capture.Advances x)
    (hx : Capture.Mints s.shelf embeds x)
    (hadvances' : Capture.Advances y)
    (hy : Capture.Mints s.shelf embeds' y) {a : α} {b : β}
    {middle rest : Supply} (ha : x ⟨[], s.shelf⟩ s.supply = (.ok a, middle))
    (hb : y ⟨[], s.shelf⟩ middle = (.ok b, rest)) :
    SharedChains (embeds a) (embeds' b) := by
  have hfirst := hadvances ⟨[], s.shelf⟩ s.supply
  have hnext := hadvances' ⟨[], s.shelf⟩ middle
  rw [ha] at hfirst
  rw [hb] at hnext
  have hbefore : s.shelf.Before middle.nextIdentity :=
    fun x hx => Nat.lt_of_lt_of_le (h.before x hx) hfirst
  have hminted := minted_append h.before hfirst hnext
    (hx [] s.supply a middle h.before ha) (hy [] middle b rest hbefore hb)
  have hjoins := joins_of_minted h hminted (Nat.le_trans hfirst hnext)
  exact fun i q r hq hr => hjoins.within i q r
    (List.mem_append_left _ hq) (List.mem_append_right _ hr)

end Session

end ChainQuery
