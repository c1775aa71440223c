import ChainQuery.Proofs.Traces

/-! # Events — what is reported of a walk

    A generation reports its nodes as they are finished, then how it
    ended.  The route:

    * at each place of a visit stands a term of the kind and with as many
      arguments as its event says (`present_of_visit`, `event_of_makes`);
    * the events of a walk are those of the occasions it reaches
      (`events_record`), so without an obstacle they are the traces of its
      visits;
    * else the first obstacle splits the visits in two.  The occasions of
      a node that is traced before it are all behind it, so nothing is in
      the way of that node and it has a term (`makes_of_passed`). -/

namespace ChainQuery

open Term Translation

variable {c : Converter} {env : Environment} {kind : Kind} {t s : Term}
  {os : List Occasion}

/-! ## Visits in terms -/

/-- An assembled term has an argument for each part. -/
theorem length_of_assembled {parts : List Part}
    {named : List (String × Part)} {x : Part}
    (h : Assembled kind parts named x) (ht : Gives (x env) t) :
    t.args.length = parts.length := by
  obtain ⟨args, optargs, rfl, hargs, -⟩ := h env t ht
  exact hargs.length_eq.symm

/-- The number of arguments of the term of a root. -/
theorem arity_of_root {r : Root} (h : r.judge c = .ok t) :
    t.args.length = r.arity := by
  cases r with
  | literal v =>
      obtain ⟨d, -, rfl⟩ := judge_leaf h
      rfl
  | literalSeq vs =>
      obtain ⟨items, hitems, hok⟩ := bind_eq_ok.mp h
      cases hok
      exact (judgeAll_ok hitems).length_eq.symm
  | insert table v upsert =>
      obtain ⟨value, -, hok⟩ := bind_eq_ok.mp h
      cases hok
      rw [insert_term]
      rfl
  | table table =>
      cases h
      rw [table_term]
      cases hdb : table.db <;> rw [Root.arity, hdb] <;> rfl
  | _ =>
      cases h
      rfl

/-- The number of arguments of the term of a chain. -/
theorem arity_of_query {q : Query} (h : Gives (q.part c env) t) :
    t.args.length = q.arity := by
  cases q with
  | root r => exact arity_of_root (gives_ofExcept h)
  | indexCreateWith table name key =>
      exact length_of_assembled (assembled_indexCreateWith c table name key)
        h
  | step q s =>
      rw [length_of_assembled (assembled_step c q s) h, List.length_cons,
        List.length_map, literals_eq_carried]
      rfl
  | rowStep q s f => exact length_of_assembled (assembled_rowStep c q s f) h
  | orderBy q first others =>
      rw [length_of_assembled (assembled_orderBy c q first others) h,
        List.length_cons, List.length_map]
      rfl
  | union a b => exact length_of_assembled (assembled_union c a b) h
  | reduce q f base =>
      exact length_of_assembled (assembled_reduce c q f base) h
  | groupBy q reduction key =>
      exact length_of_assembled (assembled_groupBy c q reduction key) h
  | groupedMapReduce q f g r base =>
      exact length_of_assembled
        (assembled_groupedMapReduce c q f g r base) h
  | join kind a b f =>
      exact length_of_assembled (assembled_join c kind a b f) h
  | eqJoin a member b index =>
      exact length_of_assembled (assembled_eqJoin c a member b index) h

/-- The event of a node says the kind of its term and how many arguments
    it has. -/
theorem event_of_makes {p : Place} (h : p.chain.Makes c s) :
    p.event = .built s.kind s.args.length := by
  obtain ⟨env, h⟩ := h
  rw [Place.event, kind_of_query h, arity_of_query h]

/-- Paths go on where others end. -/
theorem at_append {u : Term} {path path' : Path} (h : t.At path s)
    (h' : s.At path' u) : t.At (path ++ path') u := by
  induction path generalizing t with
  | nil =>
      cases h
      exact h'
  | cons e path ih =>
      obtain ⟨a, hchild, hat⟩ := h
      exact ⟨a, hchild, ih hat⟩

/-- At the place stands the term of its chain. -/
def Place.Present (c : Converter) (t : Term) (p : Place) : Prop :=
  ∃ s, t.At p.path s ∧ p.chain.Makes c s

/-- What stands in an argument stands below it. -/
theorem present_under {ps : List Place} {e : Edge} {u : Term}
    (hchild : t.Child e u) (h : ∀ p ∈ ps, p.Present c u) :
    ∀ p ∈ ps.map (Place.under e), p.Present c t := by
  intro p hp
  obtain ⟨r, hr, rfl⟩ := List.mem_map.mp hp
  obtain ⟨s, hat, hmakes⟩ := h r hr
  exact ⟨s, ⟨u, hchild, hat⟩, hmakes⟩

/-- A root stands at the top of its own term. -/
theorem present_root {r : Root} (h : r.judge c = .ok t) :
    ∀ p ∈ [Place.mk [] .source (.root r)], p.Present c t :=
  List.forall_mem_singleton.mpr ⟨t, rfl, .ofScope [], 0, h⟩

/-- A database that is the first argument. -/
theorem present_database {name : String}
    (h : t.Child (.arg 0) (databaseTerm name)) :
    ∀ p ∈ [Place.mk [.arg 0] .source (.root (.db name))],
      p.Present c t :=
  present_under h (present_root (r := .db name) rfl)

/-- The database of a table is its first argument. -/
theorem present_references (table : Table) :
    ∀ p ∈ table.references, p.Present c table.term := by
  rw [table_term, Table.references]
  cases table.db with
  | none => exact List.forall_mem_nil _
  | some db => exact present_database rfl

/-- A table that is the first argument. -/
theorem present_table {table : Table} (h : t.Child (.arg 0) table.term) :
    ∀ p ∈ table.visits.map (Place.under (.arg 0)), p.Present c t :=
  present_under h (List.forall_mem_append.mpr
    ⟨present_references table, present_root (r := .table table) rfl⟩)

/-- What a chain refers to stands in its term. -/
theorem present_of_reference {q : Query} (h : Gives (q.part c env) t) :
    ∀ p ∈ q.references, p.Present c t := by
  cases q with
  | root r =>
      have hjudge : r.judge c = .ok t := gives_ofExcept h
      cases r with
      | table table =>
          cases hjudge
          exact present_references table
      | tableCreate db name | tableDrop db name | tableList db =>
          cases hjudge
          exact present_database rfl
      | indexCreate table name | indexDrop table name | indexList table =>
          cases hjudge
          exact present_table rfl
      | insert table v upsert =>
          obtain ⟨value, -, hok⟩ := bind_eq_ok.mp hjudge
          cases hok
          rw [insert_term]
          exact present_table rfl
      | _ => exact List.forall_mem_nil _
  | indexCreateWith table name key =>
      obtain ⟨args, optargs, rfl, hargs, -⟩ :=
        assembled_indexCreateWith c table name key env t h
      obtain ⟨first, hfirst, hgive⟩ := forall₂_left hargs (i := 0) rfl
      rw [gives_pure hgive] at hfirst
      exact present_table hfirst
  | _ => exact List.forall_mem_nil _

/-- Every node that is visited stands in the term. -/
theorem present_of_visit {q : Query} (h : Gives (q.part c env) t) :
    ∀ v ∈ q.visits, v.Present c t := by
  intro v hv
  have hperm := visits_as (enumerated_hereditary.query q) .whole
  obtain ⟨p, hp, hvp⟩ := List.mem_flatMap.mp (hperm.mem_iff.mp hv)
  obtain ⟨r, hr, rfl⟩ := List.mem_map.mp hvp
  have hcharts := ((charted_hereditary c).query q env t h).1 .whole
  obtain ⟨s, hat, hmakes⟩ := hcharts.there p hp
  -- It is a reference of the chain at a place, or that chain itself.
  rcases List.mem_append.mp hr with hr | hr
  · obtain ⟨env', hs⟩ := hmakes
    obtain ⟨u, hat', hu⟩ := present_of_reference hs r hr
    exact ⟨u, at_append hat hat', hu⟩
  · cases mem_itself hr
    exact ⟨s, at_append hat rfl, hmakes⟩

/-! ## Nodes that were finished -/

/-- A chain without obstacles has a term. -/
theorem makes_of_none {q : Query} {declared : List Param}
    (h : obstacles c (q.occasions declared) = []) :
    ∃ s, q.Makes c s := by
  -- Which number a parameter has makes no difference to obstacles.
  have hparams : (declared.map fun p => (p, 0)).map Prod.fst = declared := by
    rw [List.map_map]
    exact List.map_id _
  have hscope := knows_scope (declared.map fun p => (p, 0))
  rw [hparams] at hscope
  obtain ⟨-, -, hverdict⟩ := (performs_hereditary c).query q _ _ hscope 0
  rw [h, ((lexical_hereditary c).query q _ 0).1] at hverdict
  obtain ⟨s, hs⟩ := hverdict
  exact ⟨s, _, 0, hs⟩

/-- A node that is traced before the first obstacle has a term. -/
theorem makes_of_passed {before after : List Occasion} {o : Occasion}
    {i : Nat} {q : Query} (h : BuiltAt (before ++ o :: after) i q)
    (hi : i < (traces before).length) (hnone : obstacles c before = []) :
    ∃ s, q.Makes c s := by
  obtain ⟨declared, inner, outer, later, hown, hsplit, rfl⟩ := h
  rcases List.append_eq_append_iff.mp hsplit with
    ⟨passed, hpassed, -⟩ | ⟨passed, hpassed, hrest⟩
  · -- The obstacle would be among the occasions of the node.
    rw [hpassed, traces_append, List.length_append] at hi
    omega
  · cases passed with
    | nil =>
        rw [hpassed, List.append_nil] at hi
        omega
    | cons b passed =>
        -- All of its occasions were passed.
        obtain ⟨rfl, -⟩ := List.cons.inj hrest
        rw [hpassed, obstacles_append, obstacles_append] at hnone
        obtain ⟨hinner, -⟩ := List.append_eq_nil_iff.mp hnone
        obtain ⟨-, hinner⟩ := List.append_eq_nil_iff.mp hinner
        have hnode : obstacles c (q.occasions declared) = [] := by
          rw [hown, obstacles_append, hinner]
          rfl
        exact makes_of_none hnode

/-! ## The log of a walk -/

/-- The events reported on an occasion. -/
def Occasion.events : Occasion → List Event
  | .literal _ => []
  | .built kind args => [.built kind args]
  | .stop e => [e.event]

/-- What is reported of an error where it occurs.  An expression without a
    term is, a literal that is refused is not. -/
def TermError.reports : TermError → List Event
  | .unsupported u => [(TermError.unsupported u).event]
  | .convert _ => []

theorem events_append (ms ns : List Note) :
    Note.events (ms ++ ns) = Note.events ms ++ Note.events ns :=
  List.filterMap_append

theorem events_asked (qs : List Question) :
    Note.events (qs.map .asked) = [] := by
  induction qs with
  | nil => rfl
  | cons q qs ih => exact ih

/-- Nodes and stops leave events. -/
theorem events_record (c : Converter) (os : List Occasion) :
    Note.events (record c os) = (reached c os).flatMap Occasion.events := by
  rw [record]
  induction reached c os with
  | nil => rfl
  | cons o rest ih =>
      rw [List.flatMap_cons, List.flatMap_cons, events_append, ih]
      congr 1
      cases o with
      | literal v => exact events_asked _
      | built kind args => rfl
      | stop e => rfl

/-- Where nothing is in the way, the events are the traces. -/
theorem events_of_none (h : obstacles c os = []) :
    os.flatMap Occasion.events = traces os := by
  induction os with
  | nil => rfl
  | cons o os ih =>
      obtain ⟨ho, hos⟩ := List.append_eq_nil_iff.mp h
      rw [List.flatMap_cons, ih hos]
      cases o with
      | literal v => rfl
      | built kind args => rfl
      | stop e => cases ho

/-- What is wrong with a literal is wrong with its conversion. -/
theorem convert_of_violation {v : Value} :
    ∀ e ∈ c.violations v, ∃ failure, e = .convert failure := by
  intro e he
  rcases List.mem_append.mp he with he | he
  · obtain ⟨kind, -, rfl⟩ := List.mem_map.mp he
    exact ⟨_, rfl⟩
  · cases hv : c.convert v with
    | ok d =>
        rw [hv] at he
        cases he
    | error failure =>
        rw [hv] at he
        exact ⟨failure, List.mem_singleton.mp he⟩

/-- On the occasion of an error its own report is the only event. -/
theorem events_of_violation {o : Occasion} {e : TermError}
    (hstop : ∀ e', o = .stop e' → ∃ u, e' = .unsupported u)
    (h : (o.violations c).head? = some e) : o.events = e.reports := by
  cases o with
  | literal v =>
      obtain ⟨failure, rfl⟩ :=
        convert_of_violation e (List.mem_of_mem_head? h)
      rfl
  | built kind args => cases h
  | stop e =>
      cases h
      obtain ⟨u, rfl⟩ := hstop e rfl
      rfl

/-! ## Whole chains -/

/-- A chain generated on its own reports the events of the occasions it
    reaches, and how it ended. -/
theorem events_of_walk (c : Converter) (q : Query) :
    Note.events (q.generate c).notes
      = (reached c (q.occasions [])).flatMap Occasion.events
        ++ [match (q.generate c).result with
          | .ok t => .generated t.kind t.nodeCount
          | .error e => .failed e] := by
  obtain ⟨-, hnotes, -⟩ :=
    (performs_hereditary c).query q [] [] knows_outside 1
  show Note.events ((q.walk c .fresh).notes ++ [.reported _]) = _
  rw [events_append, ← events_record, ← hnotes]
  rfl

/-- Every visit of a chain is traced, before the first obstacle or after
    it. -/
theorem visits_split {q : Query} {before after : List Occasion}
    {o : Occasion} (h : q.occasions [] = before ++ o :: after)
    (ho : o.trace? = none) :
    ∃ done rest, q.visits = done ++ rest ∧
      traces before = done.map Place.event ∧
      traces after = rest.map Place.event := by
  have htraced := (tells_hereditary.query q [] .whole).traced
  have hcons : traces (o :: after) = traces after :=
    List.filterMap_cons_none ho
  rw [h, traces_append, hcons] at htraced
  obtain ⟨done, rest, hvisits, hdone, hrest⟩ :=
    List.map_eq_append_iff.mp htraced.symm
  exact ⟨done, rest, hvisits, hdone.symm, hrest.symm⟩

/-- The visits that are traced before the first obstacle are to nodes that
    have terms. -/
theorem event_of_done {q : Query} {before after : List Occasion}
    {o : Occasion} {done rest : List Place}
    (h : q.occasions [] = before ++ o :: after)
    (hvisits : q.visits = done ++ rest)
    (hdone : traces before = done.map Place.event)
    (hnone : obstacles c before = []) :
    ∀ v ∈ done, ∃ s, v.chain.Makes c s ∧
      v.event = .built s.kind s.args.length := by
  intro v hv
  obtain ⟨i, hi⟩ := List.mem_iff_getElem?.mp hv
  have hlt : i < done.length := (List.getElem?_eq_some_iff.mp hi).1
  have hvisit : (q.visitsAs .whole)[i]? = some v := by
    rw [show q.visitsAs .whole = done ++ rest from hvisits,
      List.getElem?_append_left hlt, hi]
  have hbuilt := (tells_hereditary.query q [] .whole).builtAt i v hvisit
  rw [h] at hbuilt
  have hcount : i < (traces before).length := by
    rwa [hdone, List.length_map]
  obtain ⟨s, hmakes⟩ := makes_of_passed hbuilt hcount hnone
  exact ⟨s, hmakes, event_of_makes hmakes⟩

/-- **The events of a generation tell its walk.**  The nodes of a chain,
    those of its references and of every occurrence of an embedded chain
    among them, are visited right after what is inside them: sources and
    functions first, in the order written.  If a term is given, the events
    are one for each visit, in this order, with the kind and the number of
    arguments of the term that stands in its place, and then one for the
    whole term.  If generation fails, the first obstacle splits the visits
    in two: the events are those of the nodes finished before it, the
    report of the error if an expression or selector has no term, and one
    for the failure, which is the last. -/
theorem events_of_generate (c : Converter) (q : Query) :
    Nested q.visits ∧ q.visits.Perm (q.places.flatMap Place.nodes) ∧
    (∀ t, (q.generate c).result = .ok t →
      Note.events (q.generate c).notes
          = q.visits.map Place.event ++ [.generated t.kind t.nodeCount] ∧
        (q.visits.map Place.path).Nodup ∧
        ∀ v ∈ q.visits, ∃ s, t.At v.path s ∧ v.chain.Makes c s ∧
          v.event = .built s.kind s.args.length) ∧
    ∀ e, (q.generate c).result = .error e →
      ∃ before o after done rest,
        q.occasions [] = before ++ o :: after ∧
        obstacles c before = [] ∧ (o.violations c).head? = some e ∧
        q.visits = done ++ rest ∧
        traces before = done.map Place.event ∧
        traces after = rest.map Place.event ∧
        (∀ v ∈ done, ∃ s, v.chain.Makes c s ∧
          v.event = .built s.kind s.args.length) ∧
        Note.events (q.generate c).notes
          = done.map Place.event ++ e.reports ++ [.failed e] := by
  have htells := tells_hereditary.query q [] .whole
  obtain ⟨-, hverdict⟩ := questions_of_walk c q
  refine ⟨htells.nested,
    visits_as (enumerated_hereditary.query q) .whole, ?_, ?_⟩
  · intro t ht
    have hnone := obstacles_of_ok ht
    refine ⟨?_, htells.distinct c hnone, ?_⟩
    · rw [events_of_walk, reached_of_none hnone, events_of_none hnone,
        htells.traced, ht]
      rfl
    · intro v hv
      have hgives := ((lexical_hereditary c).query q [] 1).1
      obtain ⟨s, hat, hmakes⟩ :=
        present_of_visit ⟨1, hgives.symm.trans ht⟩ v hv
      exact ⟨s, hat, hmakes, event_of_makes hmakes⟩
  · intro e he
    obtain ⟨before, o, after, hsplit, hbefore, ho, hreached⟩ :=
      reached_of_some ((verdict_error hverdict).mp he)
    have hsilent : o.trace? = none := by
      cases o with
      | built kind args => cases ho
      | literal v => rfl
      | stop e => rfl
    obtain ⟨done, rest, hvisits, hdone, hrest⟩ :=
      visits_split hsplit hsilent
    refine ⟨before, o, after, done, rest, hsplit, hbefore, ho, hvisits,
      hdone, hrest, event_of_done hsplit hvisits hdone hbefore, ?_⟩
    have hstop : ∀ e', o = .stop e' → ∃ u, e' = .unsupported u := by
      intro e' he'
      refine htells.stops e' ?_
      rw [hsplit, ← he']
      exact List.mem_append_right _ List.mem_cons_self
    rw [events_of_walk, hreached, List.flatMap_append,
      events_of_none hbefore, List.flatMap_singleton, hdone,
      events_of_violation hstop ho, he]

/-- For each player the number of wins and the first five losses. -/
def winsAndLosses : Query :=
  .rowStep (.root (.table ⟨some "arena", "players", false⟩)) .map
    (.mk ⟨0⟩ (.object
      [("wins", .subquery 0
          (.step (.root (.table ⟨none, "wins", false⟩)) .count)),
        ("losses", .subquery 1
          (.step (.root (.table ⟨none, "losses", false⟩)) (.limit 5)))]))

/-- The members are visited in the order written.  A refused number ends
    the generation without a report of its own, a selector that is no
    member with one. -/
theorem events_of_generate_winsAndLosses :
    let c := Converter.standard .strict
    let refusing := c.adjusted [] [.int]
    let grouped : Query := .groupBy winsAndLosses
      (.sum (.mk ⟨1⟩ (.literal .null))) (.mk ⟨2⟩ (.param ⟨2⟩))
    Note.events (winsAndLosses.generate c).notes
        = [.built .db 1, .built .table 2, .built .table 1, .built .count 1,
          .built .table 1, .built .limit 2, .built .map 2,
          .generated .map 16] ∧
      (∃ done rest, winsAndLosses.visits = done ++ rest ∧
        Note.events (winsAndLosses.generate refusing).notes
          = done.map Place.event ++ []
            ++ [.failed (.convert (.unsupported .int))]) ∧
      ∃ done rest, grouped.visits = done ++ rest ∧
        Note.events (grouped.generate c).notes
          = done.map Place.event
            ++ [.selectorFailed (.unsupported (.notMember .sum .literal))]
            ++ [.failed (.unsupported (.notMember .sum .literal))] := by
  intro c refusing grouped
  obtain ⟨-, -, hok, -⟩ := events_of_generate c winsAndLosses
  obtain ⟨-, -, -, hrefused⟩ := events_of_generate refusing winsAndLosses
  obtain ⟨-, -, -, hselector⟩ := events_of_generate c grouped
  refine ⟨(hok _ rfl).1, ?_, ?_⟩
  · obtain ⟨-, -, -, done, rest, -, -, -, hvisits, -, -, -, hevents⟩ :=
      hrefused _ rfl
    exact ⟨done, rest, hvisits, hevents⟩
  · obtain ⟨-, -, -, done, rest, -, -, -, hvisits, -, -, -, hevents⟩ :=
      hselector _ rfl
    exact ⟨done, rest, hvisits, hevents⟩

end ChainQuery
