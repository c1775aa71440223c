import ChainQuery.Proofs.Accepted
import ChainQuery.Session

/-! # Sessions — whatever a session makes is accepted

    What a session stores comes back in the chains written later, as the
    start of a chain or inside a function.  So what is to hold of all that
    is captured has to be an invariant of everything stored, and one
    request after another keeps it.  The route:

    * an invariant is kept by capturing and by storing what was captured,
      and nothing else matters to it (`Invariant`);
    * capturing, walking and reading hand on to the rest of a turn, and
      preserve it when the rest does (`preserves_capturing`,
      `preserves_walking`, `preserves_reading`);
    * so every request does (`preserves_step`), and every run of requests
      (`preserves_after`);
    * acceptance is an invariant (`accepting_invariant`), so a session
      generates terms of accepted chains only (`generated_accepted`). -/

namespace ChainQuery

open Draft (Capture)
open Draft.Capture

namespace Session

/-- The chain a reply tells the generation of, if it does. -/
def Reply.chain? : Reply → Option Query
  | .generated q _ => some q
  | _ => none

/-- The state after requests, one after another. -/
def after (s : Session) : List Request → Session
  | [] => s
  | r :: rest => after (s.step r).next rest

/-- What is stored after a turn is accepted, and a chain that it generated
    is too. -/
structure Turn.Keeps (turn : Turn) : Prop where
  shelf : Accepting turn.next.shelf
  chain : ∀ q ∈ turn.reply.chain?, q.Accepted

variable {s : Session} {α : Type}

/-! ## Invariants -/

/-- Where `I` holds, capturing keeps it, and what is captured satisfies
    `P` in the session afterwards. -/
def Keeping (I : Session → Prop) (P : Session → α → Prop)
    (draft : Capture α) : Prop :=
  ∀ s : Session, I s →
    I { s with supply := (draft ⟨[], s.shelf⟩ s.supply).2 } ∧
      ∀ a, (draft ⟨[], s.shelf⟩ s.supply).1 = .ok a →
        P { s with supply := (draft ⟨[], s.shelf⟩ s.supply).2 } a

/-- An invariant of sessions, with what it takes to store an expression,
    or the body of a function, and a chain.  What is captured meets that,
    and nothing matters but what is stored and supplied. -/
structure Invariant (I : Session → Prop) (E : Session → Expr → Prop)
    (Q : Session → Query → Prop) : Prop where
  unnamed : Keeping I (fun _ _ => True) makeUnnamed
  named : ∀ name, Keeping I (fun _ _ => True) (make name)
  expr : ∀ d : Draft.Expr, Keeping I E d.capture
  func : ∀ d : Draft.Func, Keeping I (fun s f => E s f.body) d.capture
  query : ∀ d : Draft.Query, Keeping I Q d.capture
  keepExpr : ∀ {s : Session} store {e}, I s → E s e →
    I (s.keepExpr store e)
  keepFunc : ∀ {s : Session} store {f}, I s → E s f.body →
    I (s.keepFunc store f)
  keepQuery : ∀ {s : Session} store {q}, I s → Q s q →
    I (s.keepQuery store q)
  aside : ∀ {s s' : Session}, I s → s'.shelf = s.shelf →
    s'.supply = s.supply → I s'

/-- After a turn the invariant holds, and a chain that was generated was
    captured where it held. -/
structure Turn.Preserves (I : Session → Prop) (Q : Session → Query → Prop)
    (turn : Turn) : Prop where
  next : I turn.next
  chain : ∀ q ∈ turn.reply.chain?, ∃ s, I s ∧ Q s q

section Invariants

variable {I : Session → Prop} {P : Session → α → Prop}
  {E : Session → Expr → Prop} {Q : Session → Query → Prop}

/-- A turn that generated nothing. -/
theorem preserves_of_next {turn : Turn} (h : I turn.next)
    (hreply : turn.reply.chain? = none) : turn.Preserves I Q := by
  refine ⟨h, ?_⟩
  rw [hreply]
  rintro q ⟨⟩

/-- What goes on from a capture starts from what it yields. -/
theorem preserves_capturing {draft : Capture α} {go : α → Session → Turn}
    (hdraft : Keeping I P draft) (h : I s)
    (hgo : ∀ a (s' : Session), I s' → P s' a →
      (go a s').Preserves I Q) :
    (s.capturing draft go).Preserves I Q := by
  obtain ⟨hrest, hok⟩ := hdraft s h
  rw [capturing]
  rcases hresult : draft ⟨[], s.shelf⟩ s.supply with ⟨result, supply⟩
  rw [hresult] at hrest hok
  cases result with
  | error e => exact preserves_of_next hrest rfl
  | ok a => exact hgo a _ hrest (hok a rfl)

theorem preserves_reading {t : Draft.Term} {go : Term → Turn} (h : I s)
    (hgo : ∀ t, (go t).Preserves I Q) :
    (s.reading t go).Preserves I Q := by
  rw [reading]
  cases t.read s.terms with
  | ok t => exact hgo t
  | error e => exact preserves_of_next h rfl

/-- Walking stores terms only. -/
theorem preserves_walking (hI : Invariant I E Q) (walk : Walk Term)
    (store : Option String) (h : I s) :
    (s.walking walk store).Preserves I Q := by
  rw [walking]
  cases (walk s.context).result with
  | ok t => exact preserves_of_next (hI.aside h rfl rfl) rfl
  | error e => exact preserves_of_next (hI.aside h rfl rfl) rfl

/-- Every request preserves an invariant. -/
theorem preserves_step (hI : Invariant I E Q) (h : I s) (r : Request) :
    (s.step r).Preserves I Q := by
  cases r with
  | param store =>
      cases store with
      | none =>
          rw [step]
          exact preserves_capturing hI.unnamed h fun _ _ h _ =>
            preserves_of_next h rfl
      | some name =>
          rw [step]
          exact preserves_capturing (hI.named name) h fun _ _ h _ =>
            preserves_of_next h rfl
  | expr e store =>
      rw [step]
      exact preserves_capturing (hI.expr e) h fun _ _ h he =>
        preserves_of_next (hI.keepExpr store h he) rfl
  | func f store =>
      rw [step]
      exact preserves_capturing (hI.func f) h fun _ _ h hf =>
        preserves_of_next (hI.keepFunc store h hf) rfl
  | body f store =>
      rw [step]
      exact preserves_capturing (hI.func f) h fun _ _ h hf =>
        preserves_of_next (hI.keepExpr store h hf) rfl
  | query q store =>
      rw [step]
      exact preserves_capturing (hI.query q) h fun _ _ h hq =>
        preserves_of_next (hI.keepQuery store h hq) rfl
  | generate q c store =>
      rw [step]
      refine preserves_capturing (hI.query q) h ?_
      intro made s h hmade
      refine ⟨?_, ?_⟩
      · dsimp only
        cases (made.generate c).result with
        | ok t => exact hI.aside h rfl rfl
        | error e => exact h
      · rintro q ⟨⟩
        exact ⟨s, h, hmade⟩
  | inspect q =>
      rw [step]
      exact preserves_capturing (hI.query q) h fun _ _ h _ =>
        preserves_of_next h rfl
  | build q store =>
      rw [step]
      exact preserves_capturing (hI.query q) h fun _ _ h _ =>
        preserves_walking hI _ store h
  | funcTerm f store =>
      rw [step]
      exact preserves_capturing (hI.func f) h fun _ _ h _ =>
        preserves_walking hI _ store h
  | exprTerm e store =>
      rw [step]
      exact preserves_capturing (hI.expr e) h fun _ _ h _ =>
        preserves_walking hI _ store h
  | literal v store =>
      rw [step]
      exact preserves_walking hI _ store h
  | supports v => exact preserves_of_next h rfl
  | spec f direction base store =>
      rw [step]
      refine preserves_capturing (hI.func f) h ?_
      intro f s h _
      cases base with
      | none => exact preserves_of_next (hI.aside h rfl rfl) rfl
      | some name =>
          dsimp only
          cases s.specs.lookup name with
          | none => exact preserves_of_next h rfl
          | some spec => exact preserves_of_next (hI.aside h rfl rfl) rfl
  | showSpec name =>
      rw [step]
      cases s.specs.lookup name with
      | none => exact preserves_of_next h rfl
      | some spec => exact preserves_of_next h rfl
  | term t store =>
      rw [step]
      exact preserves_reading h fun _ =>
        preserves_of_next (hI.aside h rfl rfl) rfl
  | sameExprs a b =>
      rw [step]
      exact preserves_capturing (hI.expr a) h fun _ _ h _ =>
        preserves_capturing (hI.expr b) h fun _ _ h _ =>
          preserves_of_next h rfl
  | sameFuncs a b =>
      rw [step]
      exact preserves_capturing (hI.func a) h fun _ _ h _ =>
        preserves_capturing (hI.func b) h fun _ _ h _ =>
          preserves_of_next h rfl
  | sameValues a b => exact preserves_of_next h rfl
  | sameTerms a b =>
      rw [step]
      exact preserves_reading h fun _ => preserves_reading h fun _ =>
        preserves_of_next h rfl
  | sameSpecs a b =>
      rw [step]
      cases s.specs.lookup a with
      | none => exact preserves_of_next h rfl
      | some first =>
          cases s.specs.lookup b with
          | none => exact preserves_of_next h rfl
          | some second => exact preserves_of_next h rfl

/-- Every run of requests preserves an invariant. -/
theorem preserves_after (hI : Invariant I E Q) (h : I s)
    (requests : List Request) : I (s.after requests) := by
  induction requests generalizing s with
  | nil => exact h
  | cons r requests ih => exact ih (preserves_step hI h r).next

end Invariants

/-! ## Acceptance -/

theorem forall_keep {Q : α → Prop} {things : List (String × α)} {a : α}
    (store : Option String) (h : ∀ entry ∈ things, Q entry.2) (ha : Q a) :
    ∀ entry ∈ keep store a things, Q entry.2 := by
  cases store with
  | none => exact h
  | some name => exact List.forall_mem_cons.mpr ⟨ha, h⟩

theorem accepting_keepExpr (store : Option String) {e : Expr}
    (h : Accepting s.shelf) (he : e.Accepted) :
    Accepting (s.keepExpr store e).shelf :=
  ⟨forall_keep store h.exprs he, h.funcs, h.queries⟩

theorem accepting_keepFunc (store : Option String) {f : Func}
    (h : Accepting s.shelf) (hf : f.body.Accepted) :
    Accepting (s.keepFunc store f).shelf :=
  ⟨h.exprs, forall_keep (Q := fun f : Func => f.body.Accepted) store h.funcs
    hf, h.queries⟩

theorem accepting_keepQuery (store : Option String) {q : Query}
    (h : Accepting s.shelf) (hq : q.Accepted) :
    Accepting (s.keepQuery store q).shelf :=
  ⟨h.exprs, h.funcs, forall_keep store h.queries hq⟩

/-- What is stored stays accepted. -/
theorem accepting_invariant :
    Invariant (fun s => Accepting s.shelf) (fun _ e => e.Accepted)
      fun _ q => q.Accepted := by
  -- Capturing stores nothing, so only what it yields is of interest.
  have hkeeping : ∀ {α : Type} {Q : α → Prop} {draft : Capture α},
      (∀ {shelf}, Accepting shelf → Yields Q shelf draft) →
        Keeping (fun s => Accepting s.shelf) (fun _ => Q) draft :=
    fun hdraft s h => ⟨h, fun a ha =>
      hdraft h [] s.supply a _ (Prod.ext ha rfl)⟩
  exact
    { unnamed := hkeeping fun _ => yields_any _
      named := fun _ => hkeeping fun _ => yields_any _
      expr := fun d => hkeeping fun h => (accepted_hereditary h).expr d
      func := fun d => hkeeping fun h => accepted_func h d
      query := fun d => hkeeping fun h => accepted_capture h d
      keepExpr := accepting_keepExpr
      keepFunc := accepting_keepFunc
      keepQuery := accepting_keepQuery
      aside := fun h hshelf _ => hshelf ▸ h }

/-- Every request keeps what is stored accepted. -/
theorem keeps_step (h : Accepting s.shelf) (r : Request) :
    (s.step r).Keeps := by
  have hturn := preserves_step accepting_invariant h r
  refine ⟨hturn.next, fun q hq => ?_⟩
  obtain ⟨-, -, haccepted⟩ := hturn.chain q hq
  exact haccepted

/-- Every turn of a run keeps what is stored accepted. -/
theorem keeps_run (h : Accepting s.shelf) (requests : List Request) :
    ∀ turn ∈ s.run requests, turn.Keeps := by
  induction requests generalizing s with
  | nil => exact List.forall_mem_nil _
  | cons r requests ih =>
      have hturn := keeps_step h r
      exact List.forall_mem_cons.mpr ⟨hturn, ih hturn.shelf⟩

/-- Whatever a session is asked, the chains it generates terms of are
    accepted. -/
theorem generated_accepted (c : Converter) (requests : List Request)
    {turn : Turn} (hturn : turn ∈ (start c).run requests) {q : Query}
    {o : Outcome Term} (h : turn.reply = .generated q o) : q.Accepted := by
  have hempty : Accepting (start c).shelf :=
    ⟨List.forall_mem_nil _, List.forall_mem_nil _, List.forall_mem_nil _⟩
  refine (keeps_run hempty requests turn hturn).chain q ?_
  rw [h]
  rfl

end Session

end ChainQuery
