import ChainQuery.Proofs.Accepted
import ChainQuery.Proofs.Charts

/-! # Markers — what the elements of a generated sequence are

    The marker of a chain is decided while it is written.  It can also be
    computed from the finished term alone (`Term.marker`): joins pair the
    markers of their sources, operations that pass rows through keep the
    marker of theirs, and all others have documents.  The two agree
    (`marker_of_query`), for chains that nobody checked as well.

    What the checks add is that only pairs are merged and only sequences
    of one marker united.  A marker of pairs leads down to a join
    (`endsInJoin_of_pair`). -/

namespace ChainQuery

open Term Translation

variable {c : Converter} {env : Environment} {q : Query} {t s : Term}

/-! ## Markers of terms -/

/-- Where an operation has its marker from. -/
inductive MarkerRule where
  /-- From its first argument. -/
  | kept
  /-- From its first argument and a later one, as a pair. -/
  | paired (second : Nat)
  /-- From nowhere: its elements are documents. -/
  | plain
  deriving DecidableEq

/-- The marker of an operation, given those of its arguments. -/
def MarkerRule.marker : MarkerRule → List Marker → Marker
  | .kept, markers => markers.getD 0 .doc
  | .paired second, markers =>
      .pair (markers.getD 0 .doc) (markers.getD second .doc)
  | .plain, _ => .doc

/-- The rule for operations of a kind.  The second source of an equality
    join comes after its selector. -/
def Term.Kind.markerRule : Kind → MarkerRule
  | .getAll | .between | .filter | .orderBy | .skip | .limit | .slice
  | .distinct | .union => .kept
  | .innerJoin | .outerJoin => .paired 1
  | .eqJoin => .paired 2
  | _ => .plain

namespace Term

mutual

/-- The marker of a term. -/
def marker : Term → Marker
  | .datum _ => .doc
  | .apply kind args _ => kind.markerRule.marker (markersOf args)
termination_by structural t => t

/-- The markers of terms, in order. -/
def markersOf : List Term → List Marker
  | [] => []
  | t :: ts => marker t :: markersOf ts
termination_by structural ts => ts

end

/-- Going down first arguments, through operations that keep the marker
    of theirs, leads from a term to a join. -/
inductive EndsInJoin : Term → Prop where
  | join {t : Term} : t.kind ∈ [Kind.innerJoin, .outerJoin, .eqJoin] →
      EndsInJoin t
  | through {t rows : Term} : t.kind.markerRule = .kept →
      t.args[0]? = some rows → EndsInJoin rows → EndsInJoin t

end Term

theorem markersOf_eq (ts : List Term) : markersOf ts = ts.map marker := by
  induction ts with
  | nil => rfl
  | cons t ts ih => rw [markersOf, ih, List.map_cons]

/-- Markers go by the kind and the arguments of a term. -/
theorem marker_eq (t : Term) :
    t.marker = t.kind.markerRule.marker (t.args.map marker) := by
  cases t with
  | datum d => rfl
  | apply kind args optargs =>
      rw [marker, markersOf_eq]
      rfl

theorem marker_arg {i : Nat} {rows : Term} (h : s.args[i]? = some rows) :
    (s.args.map marker).getD i .doc = rows.marker := by
  rw [List.getD_eq_getElem?_getD, List.getElem?_map, h]
  rfl

theorem marker_kept {rows : Term} (hkind : s.kind.markerRule = .kept)
    (hrows : s.args[0]? = some rows) : s.marker = rows.marker := by
  rw [marker_eq, hkind, MarkerRule.marker, marker_arg hrows]

theorem marker_paired {left right : Term} {i : Nat}
    (hkind : s.kind.markerRule = .paired i)
    (hleft : s.args[0]? = some left) (hright : s.args[i]? = some right) :
    s.marker = .pair left.marker right.marker := by
  rw [marker_eq, hkind, MarkerRule.marker, marker_arg hleft,
    marker_arg hright]

theorem marker_plain (hkind : s.kind.markerRule = .plain) :
    s.marker = .doc := by
  rw [marker_eq, hkind, MarkerRule.marker]

theorem join_of_paired {kind : Kind} {i : Nat}
    (h : kind.markerRule = .paired i) :
    kind ∈ [Kind.innerJoin, .outerJoin, .eqJoin] := by
  cases kind <;> first | decide | cases h

/-- What has pairs is a join, or has them from its first argument. -/
theorem pair_cases (h : s.marker.isPair = true) :
    s.kind ∈ [Kind.innerJoin, .outerJoin, .eqJoin] ∨
      s.kind.markerRule = .kept ∧
        ∃ rows, s.args[0]? = some rows ∧ rows.marker.isPair = true := by
  cases hkind : s.kind.markerRule with
  | paired i => exact .inl (join_of_paired hkind)
  | plain =>
      rw [marker_plain hkind] at h
      cases h
  | kept =>
      refine .inr ⟨rfl, ?_⟩
      cases hrows : s.args[0]? with
      | some rows => exact ⟨rows, rfl, marker_kept hkind hrows ▸ h⟩
      | none =>
          rw [marker_eq, hkind, MarkerRule.marker,
            List.getD_eq_getElem?_getD, List.getElem?_map, hrows] at h
          cases h

/-- Whatever has pairs ends in a join. -/
theorem endsInJoin_of_pair :
    ∀ t : Term, t.marker.isPair = true → t.EndsInJoin
  | .datum _ => fun h => by cases h
  | .apply kind [] optargs => fun h => by
      obtain hjoin | ⟨-, rows, ⟨⟩, -⟩ := pair_cases h
      exact .join hjoin
  | .apply kind (rows :: rest) optargs => fun h => by
      obtain hjoin | ⟨hkept, _, ⟨⟩, hpair⟩ := pair_cases h
      · exact .join hjoin
      · exact .through hkept rfl (endsInJoin_of_pair rows hpair)

/-! ## Markers of chains -/

/-- The term of a chain has the marker of the chain. -/
def Query.Marked (c : Converter) (q : Query) : Prop :=
  ∀ env t, Gives (q.part c env) t → t.marker = q.shape.item

variable {kind : Kind} {parts : List Part} {named : List (String × Part)}
  {x : Part}

theorem marked_kept (h : Assembled kind (q.part c :: parts) named x)
    (hkind : kind.markerRule = .kept) (hq : q.Marked c)
    (hs : Gives (x env) s) : s.marker = q.shape.item := by
  obtain ⟨rows, hrows, hgives⟩ := chain_arg (i := 0) h hs rfl
  rw [← kind_of_assembled h hs] at hkind
  rw [marker_kept hkind hrows, hq env rows hgives]

theorem marked_paired {a b : Query} {i : Nat}
    (h : Assembled kind (a.part c :: parts) named x)
    (hkind : kind.markerRule = .paired i)
    (hsecond : (a.part c :: parts)[i]? = some (b.part c))
    (ha : a.Marked c) (hb : b.Marked c) (hs : Gives (x env) s) :
    s.marker = .pair a.shape.item b.shape.item := by
  obtain ⟨left, hleft, hgivesleft⟩ := chain_arg (i := 0) h hs rfl
  obtain ⟨right, hright, hgivesright⟩ := chain_arg h hs hsecond
  rw [← kind_of_assembled h hs] at hkind
  rw [marker_paired hkind hleft hright, ha env left hgivesleft,
    hb env right hgivesright]

theorem marked_plain (hkind : q.kind.markerRule = .plain)
    (hs : Gives (q.part c env) s) : s.marker = .doc := by
  rw [← kind_of_query hs] at hkind
  exact marker_plain hkind

theorem marked_root (c : Converter) (r : Root) :
    (Query.root r).Marked c := by
  intro env t ht
  cases r <;> exact marked_plain rfl ht

theorem marked_step (s : Step) (hq : q.Marked c) :
    (Query.step q s).Marked c := by
  intro env t ht
  have h := assembled_step c q s
  cases s with
  | getAll | between | skip | limit | slice | distinct =>
      exact marked_kept (q := q) h rfl hq ht
  | get | nth | count | zip | replace | replaceAndReturn | delete
  | deleteAndReturn => exact marked_plain rfl ht

theorem marked_rowStep (s : RowStep) (f : RowFunc) (hq : q.Marked c) :
    (Query.rowStep q s f).Marked c := by
  intro env t ht
  have h := assembled_rowStep c q s f
  cases s with
  | filter => exact marked_kept (q := q) h rfl hq ht
  | map | concatMap | update | updateAndReturn =>
      exact marked_plain rfl ht

theorem marked_join {a b : Query} (kind : JoinKind) (f : PairFunc)
    (ha : a.Marked c) (hb : b.Marked c) :
    (Query.join kind a b f).Marked c := by
  have hkind : kind.kind.markerRule = .paired 1 := by
    cases kind <;> rfl
  intro env t ht
  exact marked_paired (assembled_join c kind a b f) hkind rfl ha hb ht

/-- The marker of a chain is that of its term. -/
theorem marker_of_query (c : Converter) (q : Query) : q.Marked c := by
  cases q with
  | root r => exact marked_root c r
  | step q s => exact marked_step s (marker_of_query c q)
  | rowStep q s f => exact marked_rowStep s f (marker_of_query c q)
  | orderBy q first others =>
      intro env t ht
      exact marked_kept (q := q) (assembled_orderBy c q first others) rfl
        (marker_of_query c q) ht
  | union a b =>
      intro env t ht
      exact marked_kept (q := a) (assembled_union c a b) rfl
        (marker_of_query c a) ht
  | join kind a b f =>
      exact marked_join kind f (marker_of_query c a) (marker_of_query c b)
  | eqJoin a member b index =>
      intro env t ht
      exact marked_paired (assembled_eqJoin c a member b index) rfl rfl
        (marker_of_query c a) (marker_of_query c b) ht
  | indexCreateWith | reduce | groupBy | groupedMapReduce =>
      intro env t ht
      exact marked_plain rfl ht
termination_by structural q

/-! ## Accepted chains -/

theorem zip_of_kind (h : q.kind = .zip) : ∃ r, q = .step r .zip := by
  have hform := form_of_kind q
  rw [h] at hform
  cases q with
  | step q s => cases s <;> first | exact ⟨q, rfl⟩ | cases h
  | _ => cases hform

theorem union_of_kind (h : q.kind = .union) : ∃ a b, q = .union a b := by
  have hform := form_of_kind q
  rw [h] at hform
  cases q with
  | union a b => exact ⟨a, b, rfl⟩
  | _ => cases hform

/-- What merges pairs has a source of pairs. -/
theorem zip_of_fits (hq : q.fits = true) (hs : Gives (q.part c env) s)
    (hkind : s.kind = .zip) :
    ∃ rows, s.args = [rows] ∧ rows.marker.isPair = true := by
  rw [kind_of_query hs] at hkind
  obtain ⟨r, rfl⟩ := zip_of_kind hkind
  obtain ⟨args, optargs, rfl, hargs, -⟩ := assembled_step c r .zip env s hs
  obtain ⟨rows, rest, hrows, hrest, rfl⟩ :=
    List.forall₂_cons_left_iff.mp hargs
  cases hrest
  refine ⟨rows, rfl, ?_⟩
  rw [marker_of_query c r env rows hrows]
  exact (Bool.and_eq_true_iff.mp hq).2

/-- What is united is of one marker. -/
theorem union_of_fits (hq : q.fits = true) (hs : Gives (q.part c env) s)
    (hkind : s.kind = .union) :
    ∃ a b, s.args = [a, b] ∧ a.marker = b.marker := by
  rw [kind_of_query hs] at hkind
  obtain ⟨first, second, rfl⟩ := union_of_kind hkind
  obtain ⟨args, optargs, rfl, hargs, -⟩ :=
    assembled_union c first second env s hs
  obtain ⟨a, rest, ha, hrest, rfl⟩ := List.forall₂_cons_left_iff.mp hargs
  obtain ⟨b, none, hb, hnone, rfl⟩ := List.forall₂_cons_left_iff.mp hrest
  cases hnone
  refine ⟨a, b, rfl, ?_⟩
  have hsame : second.shape = first.shape :=
    eq_of_beq (Bool.and_eq_true_iff.mp hq).2
  rw [marker_of_query c first env a ha, marker_of_query c second env b hb,
    hsame]

/-- **Markers of accepted chains.**  In the term of an accepted chain, at
    any depth, every chain that is a sequence has the marker its term has;
    what is merged are pairs, found in a join by going down first
    arguments; and what is united is of one marker. -/
theorem markers_of_accepted (hq : q.Accepted)
    (h : (q.generate c).result = .ok t) :
    (∀ p ∈ q.places, ∀ m, p.chain.shape.item? = some m →
      ∃ s, t.At p.path s ∧ s.kind = p.chain.kind ∧ s.marker = m) ∧
    (∀ s ∈ t.nodes, s.kind = .zip → ∃ rows, s.args = [rows] ∧
      rows.marker.isPair = true ∧ rows.EndsInJoin) ∧
    ∀ s ∈ t.nodes, s.kind = .union → ∃ a b, s.args = [a, b] ∧
      a.marker = b.marker := by
  have hgive : Gives (q.part c (.ofScope [])) t :=
    ⟨1, (follows_job _ (.query q) [] 1).1.symm.trans h⟩
  obtain ⟨hcharts, -⟩ := (charted_hereditary c).query q _ t hgive
  -- Nobody but a chain merges or unites, and every chain here fits.
  have hmade : ∀ s ∈ t.nodes, s.kind.ChainOnly →
      ∃ r : Query, r.fits = true ∧ r.Makes c s := by
    intro s hs honly
    obtain ⟨path, hat⟩ := at_of_mem_nodes t s hs
    obtain ⟨p, hp, -, hmakes⟩ := (hcharts .whole).every path s hat honly
    exact ⟨p.chain, hq p hp, hmakes⟩
  refine ⟨?_, ?_, ?_⟩
  · intro p hp m hm
    obtain ⟨s, hat, env, hmakes⟩ := (hcharts .whole).there p hp
    refine ⟨s, hat, kind_of_query hmakes, ?_⟩
    rw [marker_of_query c p.chain env s hmakes, Shape.item, hm]
    rfl
  · intro s hs hkind
    obtain ⟨r, hfits, env, hmakes⟩ := hmade s hs (hkind ▸ by decide)
    obtain ⟨rows, hargs, hpair⟩ := zip_of_fits hfits hmakes hkind
    exact ⟨rows, hargs, hpair, endsInJoin_of_pair rows hpair⟩
  · intro s hs hkind
    obtain ⟨r, hfits, env, hmakes⟩ := hmade s hs (hkind ▸ by decide)
    exact union_of_fits hfits hmakes hkind

/-- Games with their players, those of two ranges together, as one
    document a game. -/
def playedGames : Query :=
  let game : Param := ⟨0⟩
  let player : Param := ⟨1⟩
  let games : Query := .root (.table ⟨none, "games", false⟩)
  let players : Query := .root (.table ⟨none, "players", false⟩)
  let pairs : Query :=
    .join .inner games players (.mk game player
      (.compare .eq (.field (.param game) "player")
        (.field (.param player) "id")))
  .step (.union (.step pairs (.skip 10)) (.step pairs .distinct)) .zip

theorem markers_of_accepted_playedGames :
    playedGames.Accepted ∧
    ∃ t, (playedGames.generate (.standard .strict)).result = .ok t ∧
      t.kind = .zip ∧ t.marker = .doc ∧
      ∃ rows, t.args = [rows] ∧ rows.kind = .union ∧
        rows.marker = .pair .doc .doc ∧ rows.EndsInJoin := by
  have haccepted : playedGames.Accepted := by decide
  obtain ⟨hmarkers, hzip, -⟩ :=
    markers_of_accepted (c := .standard .strict) haccepted rfl
  obtain ⟨s, hat, -, hdoc⟩ := hmarkers _ (.head _) .doc rfl
  replace hat : s = _ := hat
  subst hat
  obtain ⟨rows, hrows, -, hends⟩ := hzip _ (.head _) rfl
  cases hrows
  exact ⟨haccepted, _, rfl, rfl, hdoc, _, rfl, rfl, rfl, hends⟩

end ChainQuery
