import ChainQuery.Proofs.Closures

/-! # Reading — every draft is captured as it is laid out

    The functions of a captured chain stand where the closures of its
    draft are written, and every use is a use of what the name means
    there.  Steps are captured one after another, so the layout of a chain
    is followed along its steps: each takes the layouts of the arguments
    before it to those after it.  The route:

    * settings and sort keys are added to the last node of a chain, whose
      arguments stay or grow by one (`parts_modify`, `parts_thenBy`);
    * every form of draft reads its layout when its parts do
      (`captured_hereditary`). -/

namespace ChainQuery.Draft

open ChainQuery.Layout Capture

variable {shelf : Shelf} {made : ChainQuery.Query}

/-! ## Lists -/

theorem reads_items {es : List Expr} (h : ∀ e ∈ es, e.Captured shelf) :
    Captures shelf
      (fun bound next made => List.Forall₂ (Reads bound next)
        (itemLayouts shelf es) (ChainQuery.itemLayouts made))
      (captureItems es) := by
  induction es with
  | nil => exact captures_pure fun _ _ => .nil
  | cons e es ih =>
      obtain ⟨he, hes⟩ := List.forall_mem_cons.mp h
      exact captures_bind he fun _ => captures_bind (ih hes) fun _ =>
        captures_pure fun _ _ hxs hx => .cons hx hxs

theorem reads_memberList {ms : List (String × Expr)}
    (h : ∀ m ∈ ms, m.2.Captured shelf) :
    Captures shelf
      (fun bound next made =>
        List.Forall₂ (fun l m => l.1 = m.1 ∧ Reads bound next l.2 m.2)
          (memberLayouts shelf ms) (ChainQuery.memberLayouts made))
      (captureMembers ms) := by
  induction ms with
  | nil => exact captures_pure fun _ _ => .nil
  | cons m ms ih =>
      obtain ⟨name, e⟩ := m
      obtain ⟨he, hms⟩ := List.forall_mem_cons.mp h
      exact captures_bind he fun _ => captures_bind (ih hms) fun _ =>
        captures_pure fun _ _ hxs hx => .cons ⟨rfl, hx⟩ hxs

/-! ## The last node of a chain -/

/-- A setting changes no argument. -/
theorem parts_modify {q : ChainQuery.Query} {m : Modifier}
    (h : q.modify? m = some made) : made.parts = q.parts := by
  unfold ChainQuery.Query.modify? at h
  split at h <;> cases h <;> rfl

theorem keyLayouts_append (ks : List ChainQuery.SortKey)
    (k : ChainQuery.SortKey) :
    ChainQuery.keyLayouts (ks ++ [k])
      = ChainQuery.keyLayouts ks ++ [ChainQuery.SortKey.layout k] := by
  induction ks with
  | nil => rfl
  | cons key ks ih =>
      rw [List.cons_append, ChainQuery.keyLayouts, ih]
      rfl

/-- A further sort key is one more argument. -/
theorem parts_thenBy {q : ChainQuery.Query} {k : ChainQuery.SortKey}
    (h : q.thenBy? k = some made) :
    made.parts = q.parts ++ [ChainQuery.SortKey.layout k] := by
  unfold ChainQuery.Query.thenBy? at h
  split at h
  · cases h
    simp only [ChainQuery.Query.parts, keyLayouts_append,
      List.cons_append]
  · cases h

/-! ## Steps -/

/-- A chain that is captured reads the layouts of its arguments. -/
def Query.Captured (shelf : Shelf) (q : Query) : Prop :=
  Captures shelf
    (fun bound next made =>
      List.Forall₂ (Reads bound next) (q.parts shelf)
        (ChainQuery.Query.parts made))
    q.capture

/-- A step that is captured takes a chain that reads some layouts to one
    that reads those after the step. -/
def Action.Captured (shelf : Shelf) (a : Action) : Prop :=
  ∀ word before (q : ChainQuery.Query), Captures shelf
    (fun bound next made =>
      List.Forall₂ (Reads bound next) before q.parts →
        List.Forall₂ (Reads bound next) (a.parts shelf before)
          (ChainQuery.Query.parts made))
    (a.capture word q)

/-- A chain as an argument of the next step. -/
theorem reads_source {bound : List (String × Param)} {next : Nat}
    {before : List (Layout Argument)} {q : ChainQuery.Query}
    (h : List.Forall₂ (Reads bound next) before q.parts) :
    Reads bound next (args 0 before) (ofChain q (args 0 q.parts)) :=
  reads_ofChain q (reads_args h 0)

/-- A reduction is captured, whatever becomes of its function. -/
theorem captures_reduction {r : Reduction}
    (h : ∀ e ∈ r.bodies, e.Captured shelf) :
    Captures shelf (fun _ _ _ => True) r.capture := by
  cases r with
  | count => exact captures_pure fun _ _ => trivial
  | sum f | average f =>
      exact captures_bind (reads_rowFunc (h _ (.head _))) fun _ =>
        captures_pure fun _ _ _ => trivial

theorem captured_action {a : Action}
    (hbodies : ∀ e ∈ a.bodies, e.Captured shelf)
    (hother : ∀ q ∈ a.other?, q.Captured shelf) : a.Captured shelf := by
  intro word before q
  cases a with
  | onDatabase s =>
      refine captures_offered fun made hmade bound next _ => ?_
      unfold ChainQuery.Query.inDatabase? at hmade
      split at hmade
      · cases hmade
        exact .nil
      · cases hmade
  | onTable s =>
      refine captures_offered fun made hmade bound next _ => ?_
      obtain ⟨t, -, rfl⟩ := Option.map_eq_some_iff.mp hmade
      exact .nil
  | modify m =>
      refine captures_offered fun made hmade bound next h => ?_
      rw [parts_modify hmade]
      exact h
  | plain s =>
      refine captures_offered fun made hmade bound next h => ?_
      unfold ChainQuery.Query.andThen? at hmade
      split at hmade
      · cases hmade
        exact .cons (reads_source h) .nil
      · cases hmade
  | indexCreateWith name key =>
      have hkey := reads_rowFunc (hbodies _ (.head _))
      exact captures_bind (P := fun _ _ _ => True)
        (captures_offered fun _ _ _ _ => trivial) fun _ =>
          captures_bind hkey fun _ => captures_pure fun _ _ hf _ _ =>
            .cons reads_empty (.cons reads_empty (.cons hf .nil))
  | rowStep s f =>
      have hf := reads_rowFunc (hbodies _ (.head _))
      exact captures_bind captures_require fun _ =>
        captures_bind hf fun _ => captures_pure fun _ _ hf _ h =>
          .cons (reads_source h) (.cons hf .nil)
  | orderBy key direction =>
      have hkey := reads_key (hbodies _ (.head _)) direction
      exact captures_bind captures_require fun _ =>
        captures_bind hkey fun _ => captures_pure fun _ _ hk _ h =>
          .cons (reads_source h) (.cons hk .nil)
  | thenBy key direction =>
      have hkey := reads_key (hbodies _ (.head _)) direction
      refine captures_bind captures_require fun _ =>
        captures_bind hkey fun _ =>
          captures_offered fun made hmade bound next hk _ h => ?_
      rw [parts_thenBy hmade]
      exact List.rel_append h (.cons hk .nil)
  | union other =>
      have hr := hother other rfl
      exact captures_bind captures_require fun _ =>
        captures_bind hr fun _ => captures_bind captures_require fun _ =>
          captures_pure fun _ _ _ hr _ h =>
            .cons (reads_source h) (.cons (reads_source hr) .nil)
  | reduce f =>
      have hf := reads_pairFunc (hbodies _ (.head _))
      exact captures_bind captures_require fun _ =>
        captures_bind hf fun _ => captures_pure fun _ _ hf _ h =>
          .cons (reads_source h) (.cons hf .nil)
  | groupBy reduction key =>
      have hkey := reads_rowFunc (hbodies _ (.head _))
      have hreduction := captures_reduction fun e he =>
        hbodies e (.tail _ he)
      exact captures_bind captures_require fun _ =>
        captures_bind hreduction fun _ => captures_bind hkey fun _ =>
          captures_pure fun _ _ hf _ _ h =>
            .cons (reads_source h) (.cons hf .nil)
  | groupedMapReduce grouping mapping reduction =>
      have hg := reads_rowFunc (hbodies _ (.head _))
      have hm := reads_rowFunc (hbodies _ (.tail _ (.head _)))
      have hr := reads_pairFunc (hbodies _ (.tail _ (.tail _ (.head _))))
      exact captures_bind captures_require fun _ =>
        captures_bind (captures_makingOnFailure _ hg) fun _ =>
          captures_bind (captures_makingOnFailure _ hm) fun _ =>
            captures_bind hr fun _ =>
              captures_pure fun _ _ hr hm hg _ h =>
                .cons (reads_source h)
                  (.cons hg (.cons hm (.cons hr .nil)))
  | join kind other predicate =>
      have hr := hother other rfl
      have hf := reads_pairFunc (hbodies _ (.head _))
      exact captures_bind captures_require fun _ =>
        captures_bind hr fun _ => captures_bind captures_require fun _ =>
          captures_bind hf fun _ => captures_pure fun _ _ hf _ hr _ h =>
            .cons (reads_source h)
              (.cons (reads_source hr) (.cons hf .nil))
  | eqJoin member other =>
      have hr := hother other rfl
      have hf := reads_rowFunc (hbodies _ (.head _))
      exact captures_bind captures_require fun _ =>
        captures_bind hr fun _ => captures_bind captures_require fun _ =>
          captures_bind hf fun _ => captures_pure fun _ _ _ _ hr _ h =>
            .cons (reads_source h)
              (.cons reads_empty (.cons (reads_source hr) .nil))

/-- Every step in a row takes the layouts on. -/
theorem captured_steps {steps : List Written}
    (h : ∀ w ∈ steps, w.action.Captured shelf)
    (before : List (Layout Argument)) (q : ChainQuery.Query) :
    Captures shelf
      (fun bound next made =>
        List.Forall₂ (Reads bound next) before q.parts →
          List.Forall₂ (Reads bound next) (stepParts shelf before steps)
            (ChainQuery.Query.parts made))
      (captureSteps steps q) := by
  induction steps generalizing before q with
  | nil => exact captures_pure fun _ _ h => h
  | cons w steps ih =>
      obtain ⟨hw, hsteps⟩ := List.forall_mem_cons.mp h
      obtain ⟨word, action⟩ := w
      refine captures_bind (hw word before q) fun made => ?_
      exact captures_mono (ih hsteps _ made) fun _ _ _ h hmade hq =>
        h (hmade hq)

/-! ## Starts and whole drafts -/

/-- A stored chain is read as it is laid out. -/
theorem captured_start (start : Start) :
    Captures shelf
      (fun bound next made =>
        List.Forall₂ (Reads bound next) (start.parts shelf)
          (ChainQuery.Query.parts made))
      start.capture := by
  cases start with
  | root r => exact captures_pure fun _ _ => .nil
  | stored name =>
      refine captures_storedIn ?_
      intro q hlookup bound supply htidy next hnext
      rw [Start.parts, hlookup]
      refine List.forall₂_map_left_iff.mpr (List.forall₂_same.mpr ?_)
      intro m hm
      have hfree := htidy.stored.queries _ (mem_of_lookup hlookup) m hm
      exact reads_shelved (fun p hp => (hfree p hp).2) fun p hp =>
        Nat.lt_of_lt_of_le (hfree p hp).1 hnext

/-- A stored expression is read as it is laid out. -/
theorem captured_stored (name : String) :
    (Expr.stored name).Captured shelf := by
  refine captures_storedIn ?_
  intro e hlookup bound supply htidy next hnext
  rw [Expr.layout, hlookup]
  have hfree := htidy.stored.exprs _ (mem_of_lookup hlookup)
  exact reads_shelved (fun p hp => (hfree p hp).2) fun p hp =>
    Nat.lt_of_lt_of_le (hfree p hp).1 hnext

/-- Every form of draft reads its layout when its parts do. -/
theorem captured_hereditary (shelf : Shelf) :
    Hereditary (Expr.Captured shelf) (Action.Captured shelf)
      (Query.Captured shelf) where
  named name := captures_bind (captures_resolve name) fun _ =>
    captures_pure fun _ _ hp => reads_use hp.1 hp.2
  fresh := captures_bind captures_makeUnnamed fun _ =>
    captures_pure fun _ _ hp => reads_use (.inr ⟨rfl, hp.1⟩) hp.2
  stored name := captured_stored name
  literal _ := captures_pure fun _ _ => reads_empty
  field _ _ he := captures_bind he fun _ =>
    captures_pure fun _ _ h => reads_args (.cons h .nil) 0
  compare _ _ _ ha hb := captures_bind ha fun _ =>
    captures_bind hb fun _ => captures_pure fun _ _ hb ha =>
      reads_args (.cons ha (.cons hb .nil)) 0
  arith _ _ _ ha hb := captures_bind ha fun _ =>
    captures_bind hb fun _ => captures_pure fun _ _ hb ha =>
      reads_args (.cons ha (.cons hb .nil)) 0
  all _ hes := captures_bind (reads_items hes) fun _ =>
    captures_pure fun _ _ h => reads_args h 0
  any _ hes := captures_bind (reads_items hes) fun _ =>
    captures_pure fun _ _ h => reads_args h 0
  not _ he := captures_bind he fun _ =>
    captures_pure fun _ _ h => reads_args (.cons h .nil) 0
  array _ hes := captures_bind (reads_items hes) fun _ =>
    captures_pure fun _ _ h => reads_args h 0
  object _ hms := captures_bind (reads_memberList hms) fun _ =>
    captures_pure fun _ _ h => reads_members h
  call _ _ hes := captures_bind (reads_items hes) fun _ =>
    captures_pure fun _ _ h => reads_args h 0
  subquery _ hq := captures_bind hq fun _ =>
    captures_bind captures_makeIdentity fun _ =>
      captures_pure fun _ _ _ h => reads_source h
  action _ hbodies hother := captured_action hbodies hother
  chain start _ hsteps := captures_bind (captured_start start) fun made =>
    captures_mono (captured_steps hsteps _ made) fun _ _ _ h hstart =>
      h hstart

end ChainQuery.Draft
