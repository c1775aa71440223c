import Mathlib.Order.Bounds.Basic
import ChainQuery.Proofs.Plans

/-! # Scope stacks — what is in scope at every point of a walk

    The scope of a context is a stack, and a walk pushes and pops it by
    number only.  That this comes out right is an invariant of single
    steps: the stack consists of layers, one for each function that is
    open, and of numbers that increase from the bottom to the top.  The
    route:

    * opening a function, binding a parameter and leaving a function keep
      the layers (`layered_open`, `layered_bind`, `layered_leave`);
    * one step does one of these or leaves the stack alone (`sound_step`),
      so all points that steps lead to are sound (`sound_steps`), and a job
      ends with the stack it began with, for the next one
      (`layered_after`);
    * of increasing numbers the innermost is the largest, which is why
      looking a parameter up from the top is right
      (`lookup_iff_greatest`). -/

namespace ChainQuery

open Point

/-! ## Layers -/

/-- What a function has in scope: the parameters that have entered it, each
    with the number it was given. -/
def Opened.bindings (f : Opened) : List (Param × Nat) :=
  f.entered.zip (List.range' f.first f.entered.length)

/-- From the bottom to the top the scope is what the open functions have in
    it, the outermost first, and its numbers increase. -/
structure Context.Layered (ctx : Context) (fs : List Opened) : Prop where
  positive : 1 ≤ ctx.next
  increasing : (ctx.scope.reverse.map Prod.snd).Pairwise (· < ·)
  issued : ∀ b ∈ ctx.scope, 1 ≤ b.2 ∧ b.2 < ctx.next
  layers : ctx.scope.reverse = fs.reverse.flatMap Opened.bindings

variable {ctx : Context} {f : Opened} {fs : List Opened}

theorem layered_fresh : Context.fresh.Layered [] :=
  ⟨Nat.le_refl 1, .nil, List.forall_mem_nil _, rfl⟩

/-- A function that has just been opened has nothing in scope. -/
theorem layered_open (h : ctx.Layered fs) (params : List Param)
    (first : Nat) (next : Term → Plan) :
    ctx.Layered (⟨params, [], first, next⟩ :: fs) := by
  refine ⟨h.positive, h.increasing, h.issued, ?_⟩
  rw [h.layers, List.reverse_cons, List.flatMap_append]
  exact (List.append_nil _).symm

/-- One parameter more has the next number. -/
theorem bindings_snoc (f : Opened) (p : Param) :
    { f with entered := f.entered ++ [p] }.bindings
      = f.bindings ++ [(p, f.first + f.entered.length)] := by
  show (f.entered ++ [p]).zip
    (List.range' f.first (f.entered ++ [p]).length) = _
  rw [List.length_append, List.length_singleton, List.range'_1_concat,
    List.zip_append (by simp)]
  rfl

/-- Binding a parameter puts it on top, with a number above all others. -/
theorem layered_bind (h : ctx.Layered (f :: fs))
    (hnext : f.first + f.entered.length = ctx.next) (p : Param) :
    (ctx.bindParam p).Layered
      ({ f with entered := f.entered ++ [p] } :: fs) := by
  have hscope : (ctx.bindParam p).scope.reverse
      = ctx.scope.reverse ++ [(p, ctx.next)] := List.reverse_cons
  refine ⟨Nat.le_succ_of_le h.positive, ?_, ?_, ?_⟩
  · rw [hscope, List.map_append, List.pairwise_append]
    refine ⟨h.increasing, List.pairwise_singleton _ _, ?_⟩
    intro id hid top htop
    obtain ⟨b, hb, rfl⟩ := List.mem_map.mp hid
    rw [List.mem_singleton.mp htop]
    exact (h.issued b (List.mem_reverse.mp hb)).2
  · refine List.forall_mem_cons.mpr
      ⟨⟨h.positive, Nat.lt_succ_self _⟩, fun b hb => ?_⟩
    obtain ⟨hlow, hhigh⟩ := h.issued b hb
    exact ⟨hlow, Nat.lt_succ_of_lt hhigh⟩
  · rw [hscope, h.layers, List.reverse_cons, List.reverse_cons,
      List.flatMap_append, List.flatMap_append, List.append_assoc,
      List.flatMap_singleton, List.flatMap_singleton, bindings_snoc, hnext]

/-- Leaving a function by the number of its parameters takes its layer off
    the stack, and no other. -/
theorem layered_leave (h : ctx.Layered (f :: fs)) :
    (ctx.leave f.entered.length).Layered fs := by
  have hlayers := h.layers
  rw [List.reverse_cons, List.flatMap_append, List.flatMap_singleton]
    at hlayers
  have hscope : ctx.scope = f.bindings.reverse
      ++ (fs.reverse.flatMap Opened.bindings).reverse := by
    rw [← List.reverse_append, ← hlayers, List.reverse_reverse]
  have hlength : f.bindings.reverse.length = f.entered.length := by
    simp [Opened.bindings]
  refine ⟨h.positive, ?_, ?_, ?_⟩
  · refine h.increasing.sublist ?_
    exact (List.reverse_sublist.mpr (List.drop_sublist _ _)).map _
  · intro b hb
    exact h.issued b (List.mem_of_mem_drop hb)
  · show (ctx.scope.drop f.entered.length).reverse = _
    rw [hscope, List.drop_left' hlength, List.reverse_reverse]

/-! ## Points -/

/-- All parameters of the open functions are in scope, but for those that
    are about to enter it: those are the last ones of the innermost
    function, and their numbers come next. -/
def Point.Settled : Point → Prop
  | ⟨.carryOut _, _, fs⟩ => ∀ f ∈ fs, f.entered = f.params
  | ⟨.enter left _, ctx, f :: fs⟩ =>
      f.entered ++ left = f.params ∧
        f.first + f.entered.length = ctx.next ∧
        ∀ g ∈ fs, g.entered = g.params
  | ⟨.enter _ _, _, []⟩ => False

/-- The stack of a point is as its open functions and its task say. -/
structure Point.Sound (x : Point) : Prop where
  layered : x.context.Layered x.opened
  settled : x.Settled

variable {c : Converter} {x y : Point}

/-- Whose parameters are in scope: those of all open functions while a plan
    is carried out, and otherwise of all but the innermost. -/
theorem entered_of_settled (h : x.Settled) :
    (∀ f ∈ x.opened, f.entered <+: f.params) ∧
      (∀ f ∈ x.opened.tail, f.entered = f.params) ∧
      ∀ plan, x.task = .carryOut plan →
        ∀ f ∈ x.opened, f.entered = f.params := by
  obtain ⟨task, ctx, fs⟩ := x
  cases task with
  | carryOut plan =>
      replace h : ∀ f ∈ fs, f.entered = f.params := h
      refine ⟨?_, fun f hf => h f (List.mem_of_mem_tail hf), fun _ _ => h⟩
      intro f hf
      exact ⟨[], (List.append_nil _).trans (h f hf)⟩
  | enter left body =>
      cases fs with
      | nil => exact h.elim
      | cons f fs =>
          obtain ⟨hparams, -, hfull⟩ := h
          refine ⟨List.forall_mem_cons.mpr ⟨⟨left, hparams⟩, ?_⟩, hfull,
            fun plan hplan => by cases hplan⟩
          intro g hg
          exact ⟨[], (List.append_nil _).trans (hfull g hg)⟩

/-- A job begins with no function open. -/
theorem sound_start (job : Job) (h : ctx.Layered []) :
    (start c job ctx).Sound :=
  ⟨h, List.forall_mem_nil _⟩

/-- What one step preserves. -/
theorem sound_step (h : x.Sound) (hstep : x.step = some y) : y.Sound := by
  obtain ⟨task, ctx, fs⟩ := x
  obtain ⟨hlayered, hsettled⟩ := h
  cases task with
  | enter left body =>
      cases fs with
      | nil => exact hsettled.elim
      | cons f fs =>
          obtain ⟨hparams, hnext, hfull⟩ := hsettled
          cases left with
          | nil =>
              cases hstep
              rw [List.append_nil] at hparams
              exact ⟨hlayered, List.forall_mem_cons.mpr ⟨hparams, hfull⟩⟩
          | cons p left =>
              cases hstep
              refine ⟨layered_bind hlayered hnext p, ?_, ?_, hfull⟩
              · rw [List.append_assoc]
                exact hparams
              · rw [List.length_append, ← Nat.add_assoc, hnext]
                rfl
  | carryOut plan =>
      cases plan with
      | look p next =>
          cases hstep
          exact ⟨hlayered, hsettled⟩
      | function params body next =>
          cases hstep
          exact ⟨layered_open hlayered params ctx.next next,
            ⟨rfl, rfl, hsettled⟩⟩
      | finish r =>
          cases fs with
          | nil => cases r <;> cases hstep
          | cons f fs =>
              obtain ⟨hf, hfs⟩ := List.forall_mem_cons.mp hsettled
              have hleave := layered_leave hlayered
              rw [hf] at hleave
              -- The layer goes with a term and with an error alike.
              cases r with
              | ok t =>
                  cases hstep
                  exact ⟨hleave, hfs⟩
              | error e =>
                  cases hstep
                  exact ⟨hleave, hfs⟩

/-- What any number of steps preserves. -/
theorem sound_steps (h : x.Sound) (hsteps : Steps x y) : y.Sound := by
  induction hsteps with
  | refl => exact h
  | tail _ hstep ih => exact sound_step ih hstep

/-- Jobs leave the context for the next one, whether they succeed or
    not. -/
theorem layered_after (jobs : List Job) (h : ctx.Layered []) :
    (contextAfter c ctx jobs).Layered [] := by
  induction jobs generalizing ctx with
  | nil => exact h
  | cons job jobs ih =>
      have hend := sound_steps (sound_start job h) (steps_job c job ctx)
      exact ih hend.layered

/-! ## Looking up -/

/-- Where numbers fall from the top of a scope on, the first binding of a
    parameter is the one with the largest number. -/
theorem greatest_of_lookup {scope : List (Param × Nat)} {p : Param}
    {id : Nat} (h : (scope.map Prod.snd).Pairwise (· > ·))
    (hid : scope.lookup p = some id) :
    IsGreatest {i | (p, i) ∈ scope} id := by
  obtain ⟨before, after, rfl, hbefore⟩ := List.lookup_eq_some_iff.mp hid
  rw [List.map_append, List.map_cons, List.pairwise_append,
    List.pairwise_cons] at h
  refine ⟨by simp, ?_⟩
  intro i hi
  -- The parameter is not bound above, and below the numbers are smaller.
  rcases List.mem_append.mp hi with hmem | hmem
  · exact absurd (hbefore _ hmem) (by simp)
  · rcases List.mem_cons.mp hmem with heq | hmem
    · cases heq
      exact Nat.le_refl _
    · exact Nat.le_of_lt (h.2.1.1 i (List.mem_map_of_mem hmem))

/-- What is not bound is not found. -/
theorem lookup_none_iff {scope : List (Param × Nat)} {p : Param} :
    scope.lookup p = none ↔ ∀ i, (p, i) ∉ scope := by
  rw [List.lookup_eq_none_iff]
  constructor
  · intro h i hmem
    exact absurd (h _ hmem) (by simp)
  · rintro h ⟨q, i⟩ hmem
    by_cases hp : p = q
    · subst hp
      exact absurd hmem (h i)
    · simpa using hp

/-- Looking up finds the largest number, when there is one. -/
theorem lookup_iff_greatest {scope : List (Param × Nat)} {p : Param}
    {id : Nat} (h : (scope.map Prod.snd).Pairwise (· > ·)) :
    scope.lookup p = some id ↔ IsGreatest {i | (p, i) ∈ scope} id := by
  constructor
  · exact greatest_of_lookup h
  · intro hid
    cases hfound : scope.lookup p with
    | none => exact absurd hid.1 (lookup_none_iff.mp hfound id)
    | some j => rw [(greatest_of_lookup h hfound).unique hid]

/-! ## Walks on a context that was fresh -/

/-- A point on the way of a job, on a context that was fresh before other
    jobs were done on it, whether those succeeded or not. -/
def Point.Visited (c : Converter) (x : Point) : Prop :=
  ∃ jobs job, Steps (start c job (contextAfter c .fresh jobs)) x

theorem sound_of_visited (h : x.Visited c) : x.Sound := by
  obtain ⟨jobs, job, hsteps⟩ := h
  have hbefore : (contextAfter c .fresh jobs).Layered [] :=
    layered_after jobs layered_fresh
  exact sound_steps (sound_start job hbefore) hsteps

/-- **The scope is a stack of open functions at every point of a walk.**
    Inside whatever functions, an expression or a chain is carried out to
    the result of its walk and the context that the walk leaves behind, and
    the points of a job all lie on the way to where its walk ends.  At each
    of them, on a context that was fresh before any number of jobs,
    succeeding or failing: the numbers in scope increase strictly from the
    bottom to the top, and lie between `1` and the last number handed out;
    the scope is the parameters of the functions that are open, the
    outermost first, each with the number it was given, and all of them as
    soon as the innermost has been entered; and a parameter resolves to
    the largest number that it is bound to, and to nothing exactly when it
    is not bound. -/
theorem scope_stack_invariant (c : Converter) :
    (∀ e : Expr, (e.walk c).Plays (e.plan c)) ∧
    (∀ q : Query, (q.walk c).Plays (q.plan c)) ∧
    (∀ job ctx x, Steps (start c job ctx) x →
      Steps x (ending (job.walk c ctx))) ∧
    ∀ x : Point, x.Visited c →
      (x.context.scope.reverse.map Prod.snd).Pairwise (· < ·) ∧
      (∀ b ∈ x.context.scope, 1 ≤ b.2 ∧ b.2 ≤ x.context.next - 1) ∧
      x.context.scope.reverse
        = x.opened.reverse.flatMap Opened.bindings ∧
      (∀ f ∈ x.opened, f.entered <+: f.params) ∧
      (∀ f ∈ x.opened.tail, f.entered = f.params) ∧
      (∀ plan, x.task = .carryOut plan →
        ∀ f ∈ x.opened, f.entered = f.params) ∧
      ∀ p, (∀ id, x.context.resolve? p = some id ↔
          IsGreatest {i | (p, i) ∈ x.context.scope} id) ∧
        (x.context.resolve? p = none ↔
          ∀ i, (p, i) ∉ x.context.scope) := by
  refine ⟨(played_hereditary c).expr, (played_hereditary c).query,
    fun job ctx x => steps_ending, ?_⟩
  intro x hx
  obtain ⟨hlayered, hsettled⟩ := sound_of_visited hx
  obtain ⟨hentered, htail, hfull⟩ := entered_of_settled hsettled
  refine ⟨hlayered.increasing, ?_, hlayered.layers, hentered, htail, hfull, ?_⟩
  · intro b hb
    have hissued := hlayered.issued b hb
    omega
  · intro p
    have hfalling : (x.context.scope.map Prod.snd).Pairwise (· > ·) := by
      rw [← List.pairwise_reverse, ← List.map_reverse]
      exact hlayered.increasing
    exact ⟨fun id => lookup_iff_greatest hfalling, lookup_none_iff⟩

/-- A function that has no term, on whose context the next job begins. -/
def failingJob : Job :=
  .func ⟨[⟨1⟩], .param ⟨9⟩⟩

/-- A function of two rows, with a function in a chain in it that has the
    first of its parameters again. -/
def nestedJob : Job :=
  .func ⟨[⟨1⟩, ⟨2⟩], .subquery 0
    (.rowStep (.root (.table ⟨none, "users", false⟩)) .map
      (.mk ⟨1⟩ (.array [.param ⟨1⟩, .param ⟨2⟩])))⟩

theorem scope_stack_invariant_nestedJob :
    ∃ x : Point, x.Visited (.standard .strict) ∧
      x.context = ⟨5, [(⟨1⟩, 4), (⟨2⟩, 3), (⟨1⟩, 2)]⟩ ∧
      x.opened.length = 2 ∧
      IsGreatest {i | (⟨1⟩, i) ∈ x.context.scope} 4 ∧
      ∀ i, (⟨9⟩, i) ∉ x.context.scope := by
  have hsteps : ∃ x, Steps (start (.standard .strict) nestedJob
        (contextAfter (.standard .strict) .fresh [failingJob])) x ∧
      x.context = ⟨5, [(⟨1⟩, 4), (⟨2⟩, 3), (⟨1⟩, 2)]⟩ ∧
      x.opened.length = 2 :=
    -- Both functions are entered, and a parameter is to be looked up.
    ⟨_, steps_cons rfl <| steps_cons rfl <| steps_cons rfl <|
      steps_cons rfl <| steps_cons rfl <| steps_cons rfl <|
      steps_cons rfl .refl, rfl, rfl⟩
  obtain ⟨x, hsteps, hcontext, hopened⟩ := hsteps
  have hvisited : x.Visited (.standard .strict) :=
    ⟨[failingJob], nestedJob, hsteps⟩
  obtain ⟨-, -, -, hpoints⟩ := scope_stack_invariant (.standard .strict)
  obtain ⟨-, -, -, -, -, -, hresolve⟩ := hpoints x hvisited
  refine ⟨x, hvisited, hcontext, hopened, ?_, ?_⟩
  · refine ((hresolve ⟨1⟩).1 4).mp ?_
    rw [hcontext]
    rfl
  · refine (hresolve ⟨9⟩).2.mp ?_
    rw [hcontext]
    rfl

end ChainQuery
