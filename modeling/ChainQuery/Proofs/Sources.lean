import ChainQuery.Proofs.Accepted
import ChainQuery.Proofs.Charts

/-! # Sources — what the operations of a term take their rows from

    An accepted chain is checked step by step, and the term is made of it
    later.  Here the two meet.  The route:

    * the shape of a chain tells the kind of its term (`kind_of_sequence`,
      `kind_of_mutable`, `kind_of_write`);
    * so the operation a fitting step makes has the sources it needs
      (`takes_of_fits`, `writes_of_fits`);
    * whatever only chains make stands at a place (`Charts.every`), where
      the chain fits, and a write there is no source
      (`stands_of_accepted`). -/

namespace ChainQuery

open Term Translation

variable {c : Converter} {env : Environment} {q : Query} {t s : Term}

/-! ## Kinds of shapes -/

/-- The kinds of sequences. -/
def sequenceKinds : List Kind :=
  [.table, .makeArray, .getAll, .between, .filter, .map, .concatMap,
   .orderBy, .skip, .limit, .slice, .distinct, .union, .groupBy,
   .groupedMapReduce, .innerJoin, .outerJoin, .eqJoin, .zip]

/-- What a chain that makes terms of a kind can be used as. -/
def Term.Kind.capabilities (kind : Kind) : List Capability :=
  if kind ∈ sequenceKinds then [.sequence]
  else if kind ∈ writeKinds then [.write]
  else if kind = .get then [.single, .mutable]
  else if kind = .db then []
  else [.single]

/-- The kind of its term tells what a chain can be used as. -/
theorem capabilities_of_kind (q : Query) :
    q.shape.capabilities = q.kind.capabilities := by
  cases q with
  | root r => cases r <;> rfl
  | step q s => cases s <;> rfl
  | rowStep q s f => cases s <;> rfl
  | join kind a b f => cases kind <;> rfl
  | indexCreateWith | orderBy | union | reduce | groupBy | groupedMapReduce
  | eqJoin => rfl

theorem kind_of_sequence (h : q.shape.isSequence = true) :
    q.kind ∈ sequenceKinds := by
  rw [isSequence_iff, capabilities_of_kind, Kind.capabilities] at h
  by_contra hkind
  rw [if_neg hkind] at h
  split_ifs at h <;> simp at h

theorem kind_of_mutable (h : q.shape.isMutable = true) : q.kind = .get := by
  obtain ⟨source, key, keyMember, rfl⟩ := isGet_iff.mpr h
  rfl

/-- Nothing takes its rows from a write. -/
theorem not_source_of_write (h : q.kind ∈ writeKinds) :
    ¬ Stands .source q := by
  have hcapabilities : q.shape.capabilities = [.write] := by
    rw [capabilities_of_kind]
    revert h
    cases q.kind <;> decide
  rw [Stands, isSequence_iff, isMutable_iff, hcapabilities]
  decide

/-! ## Nodes -/

/-- The arguments an operation takes rows from are sequences. -/
def Term.TakesSequences (s : Term) : Prop :=
  ∀ i ∈ s.kind.sources, ∃ rows, s.args[i]? = some rows ∧
    rows.kind ∈ sequenceKinds

/-- Writes in place are made to a lookup by primary key, or, where all
    rows may be written and none is returned, to a sequence. -/
def Term.WritesInPlace (s : Term) : Prop :=
  s.kind ∈ [Kind.update, .replace, .delete] → ∃ rows,
    s.args[0]? = some rows ∧ (rows.kind = .get ∨
      rows.kind ∈ sequenceKinds ∧ s.kind ≠ .replace ∧
        s.optarg? "return_vals" = none)

/-- Operations of these kinds take rows from no argument. -/
theorem takes_nothing (h : s.kind.sources = []) : s.TakesSequences := by
  rw [TakesSequences, h]
  exact List.forall_mem_nil _

variable {kind : Kind} {parts : List Part} {named : List (String × Part)}
  {x : Part}

/-- An operation takes sequences when its sources are such chains. -/
theorem takes_chains (h : Assembled kind parts named x)
    (hs : Gives (x env) s)
    (hsources : ∀ i ∈ kind.sources, ∃ r : Query,
      parts[i]? = some (r.part c) ∧ r.shape.isSequence = true) :
    s.TakesSequences := by
  rw [TakesSequences, kind_of_assembled h hs]
  intro i hi
  obtain ⟨r, hr, hsequence⟩ := hsources i hi
  obtain ⟨rows, hrows, hgives⟩ := chain_arg h hs hr
  exact ⟨rows, hrows, kind_of_query hgives ▸ kind_of_sequence hsequence⟩

/-- An operation that takes rows from its first argument, if at all. -/
theorem takes_first
    (h : Assembled kind (q.part c :: parts) named x)
    (hs : Gives (x env) s) (hfirst : ∀ i ∈ kind.sources, i = 0)
    (hsequence : kind.sources ≠ [] → q.shape.isSequence = true) :
    s.TakesSequences := by
  refine takes_chains (c := c) h hs ?_
  intro i hi
  refine ⟨q, ?_, hsequence (List.ne_nil_of_mem hi)⟩
  rw [hfirst i hi]
  rfl

/-- A step that is not a write is offered by sequences only. -/
theorem sequence_of_step {sh : Shape} {s : Step}
    (h : s.accepts sh = true) (hkind : s.kind.sources ≠ []) :
    sh.isSequence = true := by
  cases s with
  | zip => exact (Bool.and_eq_true_iff.mp h).1
  | delete | replace | replaceAndReturn | deleteAndReturn =>
      exact (hkind rfl).elim
  | get | getAll | between | skip | limit | slice | nth | distinct
  | count => exact h

theorem sequence_of_rowStep {sh : Shape} {s : RowStep}
    (h : s.accepts sh = true) (hkind : s.kind.sources ≠ []) :
    sh.isSequence = true := by
  cases s with
  | update | updateAndReturn => exact (hkind rfl).elim
  | filter | map | concatMap => exact h

theorem sources_step (s : Step) : ∀ i ∈ s.kind.sources, i = 0 := by
  cases s with
  | replace | replaceAndReturn | delete | deleteAndReturn =>
      exact List.forall_mem_nil _
  | get | getAll | between | skip | limit | slice | nth | distinct | count
  | zip => exact List.forall_mem_singleton.mpr rfl

theorem sources_rowStep (s : RowStep) : ∀ i ∈ s.kind.sources, i = 0 := by
  cases s with
  | update | updateAndReturn => exact List.forall_mem_nil _
  | filter | map | concatMap => exact List.forall_mem_singleton.mpr rfl

/-- The operation a fitting step makes takes its rows from sequences. -/
theorem takes_of_fits (hq : q.fits = true) (hs : Gives (q.part c env) s) :
    s.TakesSequences := by
  cases q with
  | root r =>
      refine takes_nothing ?_
      rw [kind_of_query hs]
      cases r <;> rfl
  | indexCreateWith table name key =>
      refine takes_nothing ?_
      rw [kind_of_query hs]
      rfl
  | step q step =>
      exact takes_first (assembled_step c q step) hs (sources_step step)
        (sequence_of_step hq)
  | rowStep q step f =>
      exact takes_first (assembled_rowStep c q step f) hs
        (sources_rowStep step) (sequence_of_rowStep hq)
  | orderBy q first others =>
      exact takes_first (assembled_orderBy c q first others) hs (by decide)
        fun _ => hq
  | reduce q f base =>
      exact takes_first (assembled_reduce c q f base) hs (by decide)
        fun _ => hq
  | groupBy q reduction key =>
      exact takes_first (assembled_groupBy c q reduction key) hs (by decide)
        fun _ => hq
  | groupedMapReduce q g m r base =>
      exact takes_first (assembled_groupedMapReduce c q g m r base) hs
        (by decide) fun _ => hq
  | union a b =>
      -- The second is a sequence because it has the shape of the first.
      obtain ⟨ha, hsame⟩ := Bool.and_eq_true_iff.mp hq
      have hb : b.shape.isSequence = true := by
        rw [eq_of_beq hsame]
        exact ha
      exact takes_chains (assembled_union c a b) hs
        (List.forall_mem_cons.mpr ⟨⟨a, rfl, ha⟩,
          List.forall_mem_singleton.mpr ⟨b, rfl, hb⟩⟩)
  | join kind a b f =>
      obtain ⟨ha, hb⟩ := Bool.and_eq_true_iff.mp hq
      have hsources : kind.kind.sources = [0, 1] := by
        cases kind <;> rfl
      refine takes_chains (c := c) (assembled_join c kind a b f) hs ?_
      rw [hsources]
      exact List.forall_mem_cons.mpr ⟨⟨a, rfl, ha⟩,
        List.forall_mem_singleton.mpr ⟨b, rfl, hb⟩⟩
  | eqJoin a member b index =>
      obtain ⟨ha, hb⟩ := Bool.and_eq_true_iff.mp hq
      exact takes_chains (assembled_eqJoin c a member b index) hs
        (List.forall_mem_cons.mpr ⟨⟨a, rfl, ha⟩,
          List.forall_mem_singleton.mpr ⟨b, rfl, hb⟩⟩)

/-- A write to an object in place is a write to a lookup. -/
theorem writes_object (h : Assembled kind (q.part c :: parts) named x)
    (hs : Gives (x env) s) (hq : q.shape.isMutable = true) :
    s.WritesInPlace := by
  intro _
  obtain ⟨rows, hrows, hgives⟩ := chain_arg (i := 0) h hs rfl
  have hkind := kind_of_query hgives
  exact ⟨rows, hrows, .inl (hkind.trans (kind_of_mutable hq))⟩

/-- A write that returns nothing may be to all rows of a sequence. -/
theorem writes_rows {names : List (String × Term)}
    (h : Assembled kind (q.part c :: parts) (constParts names) x)
    (hs : Gives (x env) s) (hkind : kind ≠ .replace)
    (hnames : Entries.find? "return_vals" names = none)
    (hq : (q.shape.isSequence || q.shape.isMutable) = true) :
    s.WritesInPlace := by
  cases Bool.or_eq_true_iff.mp hq with
  | inr hmutable => exact writes_object h hs hmutable
  | inl hsequence =>
      intro _
      obtain ⟨rows, hrows, hgives⟩ := chain_arg (i := 0) h hs rfl
      obtain ⟨args, optargs, rfl, -, hoptargs⟩ := h env s hs
      cases eq_of_constParts hoptargs
      refine ⟨rows, hrows, .inr ⟨?_, hkind, hnames⟩⟩
      rw [kind_of_query hgives]
      exact kind_of_sequence hsequence

/-- The write a fitting step makes is to what may be written. -/
theorem writes_of_fits (hq : q.fits = true) (hs : Gives (q.part c env) s) :
    s.WritesInPlace := by
  intro hwrites
  have hkind : q.kind ∈ [Kind.update, .replace, .delete] :=
    kind_of_query hs ▸ hwrites
  cases q with
  | step q step =>
      have h := assembled_step c q step
      cases step with
      | replace | replaceAndReturn | deleteAndReturn =>
          exact writes_object h hs hq hwrites
      | delete => exact writes_rows h hs (by decide) rfl hq hwrites
      | get | getAll | between | skip | limit | slice | nth | distinct
      | count | zip => simp [Query.kind, Step.kind] at hkind
  | rowStep q step f =>
      have h := assembled_rowStep c q step f
      cases step with
      | updateAndReturn => exact writes_object h hs hq hwrites
      | update nonAtomic =>
          refine writes_rows h hs ?_ ?_ hq hwrites
          · rintro ⟨⟩
          · cases nonAtomic <;> rfl
      | filter | map | concatMap => simp [Query.kind, RowStep.kind] at hkind
  | root r => cases r <;> simp [Query.kind, Root.kind] at hkind
  | join kind a b f =>
      cases kind <;> simp [Query.kind, JoinKind.kind] at hkind
  | indexCreateWith | orderBy | union | reduce | groupBy | groupedMapReduce
  | eqJoin => simp [Query.kind] at hkind

/-! ## Whole terms -/

/-- Whatever only chains make takes sequences and writes what may be
    written. -/
theorem holds_of_every {places : List Place} (h : Charts c places t)
    (hfits : Throughout Fits places) {path : Path} (hat : t.At path s) :
    (s.kind ≠ .count → s.TakesSequences) ∧ s.WritesInPlace := by
  constructor
  · intro hcount i hi
    have honly : s.kind.ChainOnly := .inl ⟨List.ne_nil_of_mem hi, hcount⟩
    obtain ⟨p, hp, -, env, hmakes⟩ := h.every path s hat honly
    exact takes_of_fits (hfits p hp) hmakes i hi
  · intro hwrites
    have hsubset : [Kind.update, .replace, .delete] ⊆ writeKinds := by
      decide
    have honly : s.kind.ChainOnly := .inr (hsubset hwrites)
    obtain ⟨p, hp, -, env, hmakes⟩ := h.every path s hat honly
    exact writes_of_fits (hfits p hp) hmakes hwrites

/-- **Sources of accepted chains.**  In the term of an accepted chain, at
    any depth, every operation on rows takes them from sequences, and
    writes in place are made to a lookup, or to all rows of a sequence when
    nothing is returned.  A write stands at the top, or where a chain is
    embedded in a function; as the source of another operation there is
    none.  Only counting is also done by calls, to values of any kind; so
    the count of rows is the one that stands in the place of a chain. -/
theorem sources_of_accepted (hq : q.Accepted)
    (h : (q.generate c).result = .ok t) :
    (∀ path s, t.At path s →
      (s.kind ≠ .count → s.TakesSequences) ∧ s.WritesInPlace ∧
        (s.kind ∈ writeKinds → path = [] ∨ t.Enclosed path ∧
          ∃ p ∈ q.places, p.path = path ∧ p.role = .embedded)) ∧
    ∀ p ∈ q.places, ∃ s, t.At p.path s ∧ s.kind = p.chain.kind ∧
      s.TakesSequences ∧ (p.role = .source → s.kind ∉ writeKinds) := by
  have hgive : Gives (q.part c (.ofScope [])) t :=
    ⟨1, (follows_job _ (.query q) [] 1).1.symm.trans h⟩
  obtain ⟨hcharts, hinside⟩ := (charted_hereditary c).query q _ t hgive
  have hstands : Throughout Stands q.inner := stands_of_accepted hq
  constructor
  · intro path s hat
    obtain ⟨htakes, hwrites⟩ := holds_of_every (hcharts .whole) hq hat
    refine ⟨htakes, hwrites, ?_⟩
    intro hkind
    -- A write is made by a chain, so it stands in the place of one.
    obtain ⟨p, hp, hpath, env, hmakes⟩ :=
      (hcharts .whole).every path s hat (.inr hkind)
    rcases List.mem_cons.mp hp with rfl | hinner
    · exact .inl hpath.symm
    · -- That chain is no source, since it offers no rows.
      have hrole : p.role = .embedded := by
        have hplace := hstands p hinner
        cases hr : p.role with
        | whole =>
            rw [hr] at hplace
            exact hplace.elim
        | source =>
            rw [hr] at hplace
            rw [kind_of_query hmakes] at hkind
            exact (not_source_of_write hkind hplace).elim
        | embedded => rfl
      refine .inr ⟨?_, p, hp, hpath, hrole⟩
      exact hpath ▸ hinside p hinner hrole
  · intro p hp
    obtain ⟨s, hat, env, hmakes⟩ := (hcharts .whole).there p hp
    have hkind := kind_of_query hmakes
    refine ⟨s, hat, hkind, takes_of_fits (hq p hp) hmakes, ?_⟩
    intro hrole
    rcases List.mem_cons.mp hp with rfl | hinner
    · cases hrole
    · have hplace := hstands p hinner
      rw [hrole] at hplace
      rw [hkind]
      exact fun hwrite => not_source_of_write hwrite hplace

/-- The games each player lost, deleted player by player. -/
def droppedLosses : Query :=
  let player : Param := ⟨0⟩
  let game : Param := ⟨1⟩
  let lost : Query :=
    .rowStep (.root (.table ⟨none, "games", false⟩)) .filter
      (.mk game (.compare .eq (.field (.param game) "loser")
        (.field (.param player) "id")))
  .rowStep (.root (.table ⟨none, "players", false⟩)) .map
    (.mk player (.subquery 0 (.step lost .delete)))

theorem sources_of_accepted_droppedLosses :
    droppedLosses.Accepted ∧
    ∃ t, (droppedLosses.generate (.standard .strict)).result = .ok t ∧
      t.Enclosed [.arg 1, .arg 1] ∧
      ∀ path s, t.At path s → s.WritesInPlace := by
  have haccepted : droppedLosses.Accepted := by decide
  obtain ⟨hnodes, -⟩ :=
    sources_of_accepted (c := .standard .strict) haccepted rfl
  refine ⟨haccepted, _, rfl, ?_, fun path s hat => (hnodes path s hat).2.1⟩
  have hat := hnodes [.arg 1, .arg 1] _ ⟨_, rfl, _, rfl, rfl⟩
  obtain htop | ⟨henclosed, -⟩ := hat.2.2 (by decide)
  · cases htop
  · exact henclosed

end ChainQuery
