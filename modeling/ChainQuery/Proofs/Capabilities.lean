import ChainQuery.Proofs.Accepted

/-! # Capabilities — what a chain can be used as

    The capabilities of a chain are those its last step gives, whatever
    the steps before it were.  The route:

    * one step gives the capabilities listed for it, and a setting or a
      further sort key leaves those there are (`capabilities_of_gives`), so
      a run of steps has those its last step gave (`capabilities_of_steps`);
    * without rows and without an object to write to, no step on data is
      offered (`refuses_data`), and after a write only settings are
      (`modify_of_write`). -/

namespace ChainQuery

open Draft Draft.Capture

variable {q made : Query}

/-! ## What steps give -/

/-- The capabilities of what a step makes. -/
def Step.capabilities : Step → List Capability
  | .get _ _ => [.single, .mutable]
  | .nth _ | .count => [.single]
  | .replace _ _ | .replaceAndReturn _ _ | .delete | .deleteAndReturn =>
      [.write]
  | .getAll _ _ | .between _ _ _ _ _ | .skip _ | .limit _ | .slice _ _
  | .distinct | .zip => [.sequence]

/-- The capabilities of what a row step makes. -/
def RowStep.capabilities : RowStep → List Capability
  | .filter | .map | .concatMap => [.sequence]
  | .update _ | .updateAndReturn _ => [.write]

/-- The capabilities of what a step on a database makes. -/
def Draft.DatabaseStep.capabilities : DatabaseStep → List Capability
  | .table _ => [.sequence]
  | .tableCreate _ | .tableDrop _ => [.write]
  | .tableList => [.single]

/-- The capabilities of what a step on a table itself makes. -/
def Draft.TableStep.capabilities : TableStep → List Capability
  | .insert _ | .indexCreate _ | .indexDrop _ => [.write]
  | .indexList => [.single]

namespace Draft.Action

/-- The capabilities a written step gives.  Settings and further sort keys
    give none of their own. -/
def gives? : Action → Option (List Capability)
  | .onDatabase s => some s.capabilities
  | .onTable s => some s.capabilities
  | .modify _ => none
  | .plain s => some s.capabilities
  | .indexCreateWith _ _ => some [.write]
  | .rowStep s _ => some s.capabilities
  | .orderBy _ _ => some [.sequence]
  | .thenBy _ _ => none
  | .union _ => some [.sequence]
  | .reduce _ => some [.single]
  | .groupBy _ _ => some [.sequence]
  | .groupedMapReduce _ _ _ => some [.sequence]
  | .join _ _ _ => some [.sequence]
  | .eqJoin _ _ => some [.sequence]

/-- Steps on data: those on the rows of a sequence, and writes in place.
    The others go on from a database or table reference, or change the
    last step. -/
def onData : Action → Bool
  | .onDatabase _ | .onTable _ | .modify _ | .indexCreateWith _ _
  | .thenBy _ _ => false
  | .plain _ | .rowStep _ _ | .orderBy _ _ | .union _ | .reduce _
  | .groupBy _ _ | .groupedMapReduce _ _ _ | .join _ _ _
  | .eqJoin _ _ => true

/-- The writes that replace an object or return what they wrote. -/
def ofObject : Action → Bool
  | .plain (.replace _ _) | .plain (.replaceAndReturn _ _)
  | .plain .deleteAndReturn | .rowStep (.updateAndReturn _) _ => true
  | _ => false

end Draft.Action

/-- The capabilities the last of some steps gives that gives any. -/
def lastGiven? (steps : List Written) : Option (List Capability) :=
  steps.reverse.findSome? fun w => w.action.gives?

/-! ## One step -/

/-- A step as captured, whatever its functions are. -/
abbrev Draft.Action.Makes (a : Action) (q made : ChainQuery.Query) :
    Prop :=
  a.Gives (fun _ => True) (fun _ => True) q made

theorem makes_of_capture {a : Action} {word : String}
    {around : Surroundings} {supply rest : Supply}
    (h : a.capture word q around supply = (.ok made, rest)) :
    a.Makes q made :=
  gives_capture (fun _ _ => yields_any _) (fun _ _ => yields_any _)
    around.bound supply made rest h

/-- A step gives what is listed for it, or leaves what there is. -/
theorem capabilities_of_makes {a : Action} (h : a.Makes q made) :
    made.shape.capabilities = a.gives?.getD q.shape.capabilities := by
  cases h with
  | @onDatabase s _ h =>
      obtain ⟨name, -, rfl⟩ := inDatabase_ok h
      cases s <;> rfl
  | @onTable s _ h =>
      obtain ⟨t, -, rfl⟩ := onTable_ok h
      cases s <;> rfl
  | modify h =>
      obtain ⟨-, hshape, -⟩ := modify_keeps h
      rw [hshape]
      rfl
  | @plain s _ => cases s <;> rfl
  | @rowStep s _ _ _ _ => cases s <;> rfl
  | thenBy f _ h =>
      obtain ⟨source, first, others, rfl, rfl⟩ := thenBy_ok h
      rfl
  | indexCreateWith | orderBy | union | reduce | groupBy | groupedMapReduce
  | join | eqJoin => rfl

/-- The writes to an object are offered by lookups only. -/
theorem isGet_of_makes {a : Action} (h : a.Makes q made)
    (ha : a.ofObject = true) : q.IsGet := by
  rw [isGet_iff]
  cases h with
  | @plain s haccepts => cases s <;> first | exact haccepts | cases ha
  | @rowStep s _ _ haccepts _ =>
      cases s <;> first | exact haccepts | cases ha
  | onDatabase | onTable | modify | indexCreateWith | orderBy | thenBy
  | union | reduce | groupBy | groupedMapReduce | join | eqJoin => cases ha

/-- After a write only settings are offered, and it stays a write. -/
theorem modify_of_write {a : Action} (h : a.Makes q made)
    (hq : q.shape = .write) :
    (∃ m, a = .modify m) ∧ made.shape = .write := by
  have hsequence : q.shape.isSequence ≠ true := by
    rw [hq]
    rintro ⟨⟩
  cases h with
  | modify h =>
      obtain ⟨-, hshape, -⟩ := modify_keeps h
      exact ⟨⟨_, rfl⟩, hshape.trans hq⟩
  | onDatabase h =>
      obtain ⟨name, rfl, -⟩ := inDatabase_ok h
      cases hq
  | onTable h =>
      obtain ⟨t, rfl, -⟩ := onTable_ok h
      cases hq
  | indexCreateWith f h _ =>
      rw [asTable_ok h] at hq
      cases hq
  | thenBy f _ h =>
      obtain ⟨source, first, others, rfl, -⟩ := thenBy_ok h
      cases hq
  | @plain s haccepts =>
      rw [hq] at haccepts
      cases s <;> cases haccepts
  | @rowStep s _ _ haccepts _ =>
      rw [hq] at haccepts
      cases s <;> cases haccepts
  | orderBy _ h | reduce _ h | groupBy _ _ h | groupedMapReduce _ _ _ h
  | join _ _ h | eqJoin _ _ h | union _ h => exact (hsequence h).elim

/-- A check that fails ends the step at once. -/
theorem require_refuses {α : Type} {word : String} {ok : Bool}
    (h : ok ≠ true) (f : Unit → Capture α) (around : Surroundings)
    (supply : Supply) :
    (require word ok >>= f) around supply
      = (.error (.shape word), supply) := by
  cases ok with
  | true => exact (h rfl).elim
  | false => rfl

/-- Without rows and without an object to write to, a step on data is
    refused at once. -/
theorem refuses_data {a : Action} (ha : a.onData = true) (word : String)
    (hsequence : q.shape.isSequence ≠ true)
    (hmutable : q.shape.isMutable ≠ true) (around : Surroundings)
    (supply : Supply) :
    a.capture word q around supply = (.error (.shape word), supply) := by
  have hsource : ¬ Stands .source q := not_or.mpr ⟨hsequence, hmutable⟩
  cases a with
  | plain s =>
      rw [Action.capture, Query.andThen?, if_neg (mt step_source hsource)]
      rfl
  | rowStep s f => exact require_refuses (mt rowStep_source hsource) _ _ _
  | orderBy | union | reduce | groupBy | groupedMapReduce | join | eqJoin =>
      exact require_refuses hsequence _ _ _
  | onDatabase | onTable | modify | indexCreateWith | thenBy => cases ha

/-! ## Runs -/

variable {steps : List Written} {around : Surroundings}
  {supply rest : Supply}

theorem captureSteps_cons {w : Written}
    (h : captureSteps (w :: steps) q around supply = (.ok made, rest)) :
    ∃ next middle, w.action.Makes q next ∧
      w.capture q around supply = (.ok next, middle) ∧
      captureSteps steps next around middle = (.ok made, rest) := by
  obtain ⟨word, action⟩ := w
  obtain ⟨next, middle, hnext, hrest⟩ := andThen_ok h
  exact ⟨next, middle, makes_of_capture hnext, hnext, hrest⟩

/-- The capabilities of a chain are those its last step gave. -/
theorem capabilities_of_steps
    (h : captureSteps steps q around supply = (.ok made, rest)) :
    made.shape.capabilities =
      (lastGiven? steps).getD q.shape.capabilities := by
  induction steps generalizing q supply with
  | nil =>
      cases h
      rfl
  | cons w steps ih =>
      obtain ⟨next, middle, hmakes, -, hrest⟩ := captureSteps_cons h
      rw [ih hrest, capabilities_of_makes hmakes, lastGiven?, lastGiven?,
        List.reverse_cons, List.findSome?_append]
      -- What this step gives counts only when no later one gives any.
      cases (steps.reverse.findSome? fun w => w.action.gives?) with
      | some given => rfl
      | none =>
          rw [Option.none_or, List.findSome?_singleton]
          rfl

/-- After a write only settings are written, and it stays a write. -/
theorem modify_of_write_steps
    (h : captureSteps steps q around supply = (.ok made, rest))
    (hq : q.shape = .write) :
    (∀ w ∈ steps, ∃ m, w.action = .modify m) ∧ made.shape = .write := by
  induction steps generalizing q supply with
  | nil =>
      cases h
      exact ⟨List.forall_mem_nil _, hq⟩
  | cons w steps ih =>
      obtain ⟨next, middle, hmakes, -, hrest⟩ := captureSteps_cons h
      obtain ⟨hmodify, hnext⟩ := modify_of_write hmakes hq
      obtain ⟨hsteps, hmade⟩ := ih hrest hnext
      exact ⟨List.forall_mem_cons.mpr ⟨hmodify, hsteps⟩, hmade⟩

/-- A write to an object comes right after a lookup. -/
theorem isGet_of_steps {before after : List Written} {w : Written}
    (hw : w.action.ofObject = true)
    (h : captureSteps (before ++ w :: after) q around supply
      = (.ok made, rest)) :
    ∃ row middle, captureSteps before q around supply = (.ok row, middle) ∧
      row.IsGet := by
  induction before generalizing q supply with
  | nil =>
      obtain ⟨next, middle, hmakes, -, -⟩ := captureSteps_cons h
      exact ⟨q, supply, rfl, isGet_of_makes hmakes hw⟩
  | cons v before ih =>
      obtain ⟨next, middle, -, hnext, hrest⟩ := captureSteps_cons h
      obtain ⟨row, last, hrow, hget⟩ := ih hrest
      refine ⟨row, last, ?_, hget⟩
      -- The first step goes in front again.
      have hbind : captureSteps (v :: before) q around supply
        = andThen (v.capture q) (captureSteps before) around supply := rfl
      rw [hbind, andThen, hnext]
      exact hrow

/-! ## Whole chains -/

/-- Sequence, single and write exclude each other. -/
theorem capabilities_exclusive (sh : Shape) :
    ∀ a ∈ sh.capabilities, ∀ b ∈ sh.capabilities,
      a ≠ .mutable → b ≠ .mutable → a = b := by
  cases sh with
  | single mutable => cases mutable <;> decide
  | reference | sequence | write => simp [Shape.capabilities]

theorem single_of_mutable {sh : Shape} (h : .mutable ∈ sh.capabilities) :
    .single ∈ sh.capabilities := by
  cases sh with
  | single mutable => cases mutable <;> decide
  | reference | sequence | write => simp [Shape.capabilities] at h

theorem item_iff {sh : Shape} :
    sh.item?.isSome = true ↔ .sequence ∈ sh.capabilities := by
  rw [← isSequence_iff]
  cases sh <;> rfl

theorem write_iff {sh : Shape} :
    .write ∈ sh.capabilities ↔ sh = .write := by
  cases sh with
  | single mutable => cases mutable <;> decide
  | reference | sequence | write => simp [Shape.capabilities]

/-- **Capabilities of chains.**  However many steps a chain has, it can be
    used as what its last step gives, settings and further sort keys apart,
    and as nothing else.  Sequence, single and write exclude each other;
    only a lookup by primary key is open to writes in place; exactly
    sequences have a marker.  A write, a reference and any other object
    are offered no step on data, so a write ends its chain but for its
    settings; and what replaces an object or returns it comes right after
    a lookup. -/
theorem capabilities_of_chain
    (h : captureSteps steps q around supply = (.ok made, rest)) :
    let given := made.shape.capabilities
    given = (lastGiven? steps).getD q.shape.capabilities ∧
    (∀ a ∈ given, ∀ b ∈ given, a ≠ .mutable → b ≠ .mutable → a = b) ∧
    (.mutable ∈ given → .single ∈ given) ∧
    (.mutable ∈ given ↔ made.IsGet) ∧
    (made.shape.item?.isSome = true ↔ .sequence ∈ given) ∧
    (.sequence ∉ given → .mutable ∉ given →
      ∀ w : Written, w.action.onData = true → ∀ around supply,
        w.capture made around supply
          = (.error (.shape w.word), supply)) ∧
    (.write ∈ given → ∀ more around supply last rest,
      captureSteps more made around supply = (.ok last, rest) →
        (∀ w ∈ more, ∃ m, w.action = .modify m) ∧
          last.shape.capabilities = [.write]) ∧
    ∀ before w after, steps = before ++ w :: after →
      w.action.ofObject = true → ∃ row middle,
        captureSteps before q around supply = (.ok row, middle) ∧
          row.IsGet := by
  refine ⟨capabilities_of_steps h, capabilities_exclusive _,
    single_of_mutable, ?_, item_iff, ?_, ?_, ?_⟩
  · rw [isGet_iff, isMutable_iff]
  · intro hsequence hmutable w hw around supply
    obtain ⟨word, action⟩ := w
    exact refuses_data hw word (mt isSequence_iff.mp hsequence)
      (mt isMutable_iff.mp hmutable) around supply
  · intro hwrite more around supply last rest hmore
    obtain ⟨hsteps, hlast⟩ :=
      modify_of_write_steps hmore (write_iff.mp hwrite)
    rw [hlast]
    exact ⟨hsteps, rfl⟩
  · rintro before w after rfl hw
    exact isGet_of_steps hw h

/-- A player is looked up by name, renamed, and returned. -/
def renamedPlayer : List Written :=
  [.mk "get" (.plain (.get (.text "a") none)),
   .mk "attribute" (.modify (.keyMember "name")),
   .mk "update_and_return" (.rowStep (.updateAndReturn false)
     (.mk "player" (.object [("name", .literal (.text "b"))]))),
   .mk "non_atomic" (.modify .nonAtomic)]

theorem capabilities_of_chain_renamedPlayer :
    ∃ made rest,
      captureSteps renamedPlayer (.root (.table ⟨none, "players", false⟩))
        ⟨[], .empty⟩ .fresh = (.ok made, rest) ∧
      made.shape.capabilities = [.write] ∧
      ∃ row middle, captureSteps (renamedPlayer.take 2)
        (.root (.table ⟨none, "players", false⟩)) ⟨[], .empty⟩ .fresh
          = (.ok row, middle) ∧ row.IsGet := by
  obtain ⟨hgiven, -, -, -, -, -, -, hobject⟩ :=
    @capabilities_of_chain (.root (.table ⟨none, "players", false⟩)) _
      renamedPlayer ⟨[], .empty⟩ .fresh _ rfl
  exact ⟨_, _, rfl, hgiven, hobject _ _ _ rfl rfl⟩

end ChainQuery
