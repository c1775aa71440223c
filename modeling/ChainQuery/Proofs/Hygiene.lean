import ChainQuery.Proofs.Governing
import ChainQuery.Proofs.Reading
import ChainQuery.Proofs.Sessions

/-! # Hygiene — arguments stay with their closures

    A session captures drafts one after another, stores what it makes and
    uses it again in later drafts, while parameters are numbered on and
    on.  All the same, what is captured is laid out as its draft is
    written, so the layout of the draft decides what becomes of the
    arguments of its closures.  The route:

    * what is stored uses only parameters made before
      (`known_of_reads`), so storing keeps a session tidy
      (`tidy_keepExpr`, `tidy_keepFunc`, `tidy_keepQuery`);
    * to be tidy is an invariant of sessions (`tidy_invariant`), so every
      run of requests keeps a session tidy (`tidy_after`);
    * in a tidy session a captured draft reads its layout
      (`captured_hereditary`), and a layout governs the chain
      (`governs_of_matches`). -/

namespace ChainQuery

/-! ## What is known of parameters -/

namespace Draft

open ChainQuery.Layout Capture

variable {shelf : Shelf} {bound : List (String × Param)} {next : Nat}

/-- Every free parameter of a layout was made before `next`. -/
def Known (next : Nat) (m : Layout Param) : Prop :=
  ∀ p ∈ m.free, p.number < next

theorem known_of_reads {l : Layout Argument} {m : Layout Param}
    (h : Reads bound next l m) : Known next m := by
  intro p hp
  obtain ⟨v, hv, hnone, rfl⟩ := mem_free.mp hp
  obtain ⟨u, -, hu⟩ := forall₂_mem_right h.uses hv
  exact (hu.means (hu.binder.trans hnone)).2

theorem captures_resolveAll (names : List String) :
    Captures shelf (fun _ _ _ => True) (resolveAll names) := by
  induction names with
  | nil => exact captures_pure fun _ _ => trivial
  | cons name names ih =>
      exact captures_bind (captures_resolve name) fun _ =>
        captures_bind ih fun _ => captures_pure fun _ _ _ _ => trivial

/-- A function that is captured uses parameters made before, its own
    among them. -/
theorem captures_func (f : Func) :
    Captures shelf (fun _ next made => Known next made.body.layout)
      f.capture := by
  cases f with
  | closure names body =>
      have hbody := (captured_hereditary shelf).expr body
      exact captures_mono (captures_closure hbody) fun _ _ _ hmade =>
        known_of_reads hmade.reads
  | member name =>
      refine captures_bind captures_makeUnnamed fun p =>
        captures_pure fun bound next hp => ?_
      have hp' : Reads bound next (use .fresh) (use p) :=
        reads_use (.inr ⟨rfl, hp.1⟩) hp.2
      exact known_of_reads (reads_args (.cons hp' .nil) 0)
  | «over» names body =>
      have hbody := (captured_hereditary shelf).expr body
      exact captures_bind (captures_resolveAll names) fun _ =>
        captures_bind hbody fun _ => captures_pure fun _ _ hmade _ =>
          known_of_reads hmade
  | stored name =>
      refine captures_storedIn ?_
      intro f hlookup bound supply htidy next hnext p hp
      have hstored := htidy.stored.funcs _ (mem_of_lookup hlookup) p hp
      exact Nat.lt_of_lt_of_le hstored.1 hnext

/-- A named parameter goes out of sight as soon as it is made. -/
theorem captures_make (name : String) :
    Captures shelf (fun _ _ _ => True) (make name) :=
  fun _ _ htidy => ⟨Nat.le_succ _,
    tidy_drop [_] (tidy_make name htidy), fun _ _ _ _ => trivial⟩

end Draft

/-! ## Sessions -/

namespace Session

open Draft

/-- Outside functions, capturing can rely on what a session has stored and
    made. -/
def Tidy (s : Session) : Prop :=
  Draft.Tidy s.shelf [] s.supply

variable {s : Session} {α : Type}

theorem tidy_start (c : Converter) : (start c).Tidy where
  made := List.forall_mem_nil _
  single := List.forall_mem_nil _
  within := List.forall_mem_nil _
  distinct := .nil
  stored := ⟨List.forall_mem_nil _, List.forall_mem_nil _,
    List.forall_mem_nil _⟩

/-- What may be stored where nothing is bound. -/
def Storable (next : Nat) (m : Layout Param) : Prop :=
  ∀ p ∈ m.free, p.number < next ∧
    ∀ b ∈ ([] : List (String × Param)), b.2 ≠ p

theorem storable_of_known {next : Nat} {m : Layout Param}
    (h : Known next m) : Storable next m :=
  fun p hp => ⟨h p hp, List.forall_mem_nil _⟩

theorem tidy_keepExpr (store : Option String) {e : ChainQuery.Expr}
    (h : s.Tidy) (he : Known s.supply.nextParam e.layout) :
    (s.keepExpr store e).Tidy :=
  { h with
    stored :=
      { h.stored with
        exprs := forall_keep
          (Q := fun e : ChainQuery.Expr => Storable _ e.layout) store
          h.stored.exprs (storable_of_known he) } }

theorem tidy_keepFunc (store : Option String) {f : ChainQuery.Func}
    (h : s.Tidy) (hf : Known s.supply.nextParam f.body.layout) :
    (s.keepFunc store f).Tidy :=
  { h with
    stored :=
      { h.stored with
        funcs := forall_keep
          (Q := fun f : ChainQuery.Func => Storable _ f.body.layout) store
          h.stored.funcs (storable_of_known hf) } }

theorem tidy_keepQuery (store : Option String) {q : ChainQuery.Query}
    (h : s.Tidy) (hq : ∀ m ∈ q.parts, Known s.supply.nextParam m) :
    (s.keepQuery store q).Tidy :=
  { h with
    stored :=
      { h.stored with
        queries := forall_keep
          (Q := fun q : ChainQuery.Query => ∀ m ∈ q.parts, Storable _ m)
          store h.stored.queries
          fun m hm => storable_of_known (hq m hm) } }

/-- What is known of what is captured with parameters made so far. -/
theorem keeping_of_captures {draft : Draft.Capture α} {K : Nat → α → Prop}
    (hdraft : ∀ shelf, Captures shelf (fun _ => K) draft) :
    Keeping Tidy (fun s => K s.supply.nextParam) draft := by
  intro s htidy
  obtain ⟨-, hrest, hok⟩ := hdraft s.shelf [] s.supply htidy
  exact ⟨hrest, fun a ha => hok a ha _ (Nat.le_refl _)⟩

/-- Sessions stay tidy. -/
theorem tidy_invariant :
    Invariant Tidy (fun s e => Known s.supply.nextParam e.layout)
      fun s q => ∀ m ∈ q.parts, Known s.supply.nextParam m where
  unnamed := keeping_of_captures (K := fun _ _ => True) fun _ =>
    captures_mono captures_makeUnnamed fun _ _ _ _ => trivial
  named name := keeping_of_captures (K := fun _ _ => True) fun _ =>
    captures_make name
  expr d := keeping_of_captures
    (K := fun next e => Known next e.layout) fun shelf =>
      captures_mono ((captured_hereditary shelf).expr d)
        fun _ _ _ => known_of_reads
  func d := keeping_of_captures
    (K := fun next (f : ChainQuery.Func) => Known next f.body.layout)
      fun _ => captures_func d
  query d := by
    refine keeping_of_captures
      (K := fun next q => ∀ m ∈ q.parts, Known next m) fun shelf =>
        captures_mono ((captured_hereditary shelf).query d) ?_
    intro bound next q h m hm
    obtain ⟨l, -, hl⟩ := forall₂_mem_right h hm
    exact known_of_reads hl
  keepExpr := tidy_keepExpr
  keepFunc := tidy_keepFunc
  keepQuery := tidy_keepQuery
  aside h hshelf hsupply := by
    rw [Tidy, hshelf, hsupply]
    exact h

/-- Every run of requests keeps a session tidy. -/
theorem tidy_after (h : s.Tidy) (requests : List Request) :
    (s.after requests).Tidy :=
  preserves_after tidy_invariant h requests

end Session

/-! ## Closures -/

/-- In a tidy session, an expression is captured as it is written. -/
theorem matches_expr {s : Session} (h : s.Tidy) {d : Draft.Expr}
    {made : Expr} {rest : Draft.Supply}
    (hmade : d.capture ⟨[], s.shelf⟩ s.supply = (.ok made, rest)) :
    (d.layout s.shelf).Matches made.layout := by
  obtain ⟨-, -, hok⟩ :=
    (Draft.captured_hereditary s.shelf).expr d [] s.supply h
  rw [hmade] at hok
  exact Draft.matches_of_reads (hok made rfl _ (Nat.le_refl _))

/-- In a tidy session, a chain is captured as it is written. -/
theorem matches_query {s : Session} (h : s.Tidy) {d : Draft.Query}
    {made : Query} {rest : Draft.Supply}
    (hmade : d.capture ⟨[], s.shelf⟩ s.supply = (.ok made, rest)) :
    (d.layout s.shelf).Matches made.layout := by
  obtain ⟨-, -, hok⟩ :=
    (Draft.captured_hereditary s.shelf).query d [] s.supply h
  rw [hmade] at hok
  exact Draft.matches_of_reads
    (Draft.reads_args (hok made rfl _ (Nat.le_refl _)) 0)

/-- **Closures are hygienic.**  After any requests, whatever expression or
    chain is captured has the functions and uses of its draft, each use
    declared by the function that is written around it.  So the layout of
    a written chain governs the chain captured from it: if every use is in
    a function that declares it, generation never ends with a free
    parameter; if some use is in none, there is no term; and in a term
    every use is a reference to the number that the function of its
    closure lists in the place of the argument, and no other function
    lists.  Stored things are used again with the layouts they have.  And
    any chain at all, with copies of its parts in whatever places, is
    governed by its own layout, in which a use of a parameter belongs to
    the innermost function around it that has that parameter. -/
theorem closures_hygienic (c₀ : Converter)
    (requests : List Session.Request) :
    let s := (Session.start c₀).after requests
    (∀ (d : Draft.Expr) made rest,
      d.capture ⟨[], s.shelf⟩ s.supply = (.ok made, rest) →
        (d.layout s.shelf).Matches made.layout) ∧
    (∀ (d : Draft.Query) made rest,
      d.capture ⟨[], s.shelf⟩ s.supply = (.ok made, rest) →
        (d.layout s.shelf).Matches made.layout ∧
          ∀ c, (d.layout s.shelf).Governs c made) ∧
    ∀ c (q : Query), q.layout.Governs c q := by
  intro s
  have htidy : s.Tidy :=
    Session.tidy_after (Session.tidy_start c₀) requests
  refine ⟨fun _ _ _ => matches_expr htidy, fun d made rest hmade => ?_,
    governs_layout⟩
  have hmatches := matches_query htidy hmade
  exact ⟨hmatches, fun c => governs_of_matches c hmatches⟩

/-- The rows of a table that are marked as active. -/
def actives : Draft.Query :=
  .mk (.root (.table ⟨none, "t", false⟩))
    [.mk "filter" (.rowStep .filter
      (.mk "row" (.field (.named "row") "active")))]

/-- How many active rows have an owner, where `right` hides what is around
    it. -/
def owned : Draft.Expr :=
  .call "count" [.subquery (.mk (.stored "actives")
    [.mk "filter" (.rowStep .filter (.mk "right" (.compare .eq
      (.field (.named "right") "owner") (.field (.named "left") "id"))))])]

/-- Active rows joined with others and summed up in groups. -/
def report : Draft.Query :=
  .mk (.stored "actives")
    [.mk "inner_join" (.join .inner actives (.mk "left" "right"
      (.compare .eq owned (.field (.named "right") "limit")))),
     .mk "group" (.groupBy (.sum (.mk "row" (.field (.named "row") "n")))
      (.mk "row" (.field (.named "row") "kind")))]

/-- A function that uses an argument of another one. -/
def stray : Draft.Query :=
  .mk (.stored "report") [.mk "map" (.rowStep .map
    (.mk "row" (.arith .add (.named "row") (.named "left"))))]

/-- A session in which the report is stored. -/
def reporting : Session :=
  (Session.start (.standard .strict)).after
    [.query actives (some "actives"), .query report (some "report")]

theorem closures_hygienic_report :
    (∃ q rest,
      report.capture ⟨[], reporting.shelf⟩ reporting.supply
        = (.ok q, rest) ∧
      (report.layout reporting.shelf).Closed ∧
        ∃ t, (q.generate (.standard .strict)).result = .ok t ∧
          (report.layout reporting.shelf).Scopes t) ∧
    ∃ q rest,
      stray.capture ⟨[], reporting.shelf⟩ reporting.supply
        = (.ok q, rest) ∧
      ¬ (stray.layout reporting.shelf).Closed ∧
        ∃ e, (q.generate (.standard .strict)).result = .error e := by
  obtain ⟨-, hquery, -⟩ := closures_hygienic (.standard .strict)
    [.query actives (some "actives"), .query report (some "report")]
  have hclosed : (report.layout reporting.shelf).Closed := by
    show ∀ u ∈ _, _
    decide
  have hopen : ¬ (stray.layout reporting.shelf).Closed := by
    show ¬ ∀ u ∈ _, _
    decide
  refine ⟨⟨_, _, rfl, hclosed, _, rfl, ?_⟩, _, _, rfl, hopen, ?_⟩
  · obtain ⟨-, hgoverns⟩ := hquery report _ _ rfl
    exact (hgoverns _).scopes _ rfl
  · obtain ⟨-, hgoverns⟩ := hquery stray _ _ rfl
    exact (hgoverns _).opened hopen

end ChainQuery
