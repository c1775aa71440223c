import ChainQuery.Proofs.Drafts
import ChainQuery.Proofs.Places

/-! # Accepted chains — every step offered by what it is written after

    A chain is accepted when each step in it, and in the chains embedded
    in its functions, may be written after its source (`Query.Accepted`).
    Capturing a draft makes accepted chains only (`accepted_capture`): the
    checks made step by step leave no step out, at any depth.

    In an accepted chain whatever another operation takes its rows from is
    a sequence, or an object open to writes in place
    (`stands_of_accepted`). -/

namespace ChainQuery

/-! ## Acceptance -/

theorem isSequence_iff {sh : Shape} :
    sh.isSequence = true ↔ .sequence ∈ sh.capabilities := by
  cases sh with
  | single mutable => cases mutable <;> decide
  | reference | sequence | write =>
      simp [Shape.isSequence, Shape.capabilities]

theorem isMutable_iff {sh : Shape} :
    sh.isMutable = true ↔ .mutable ∈ sh.capabilities := by
  cases sh with
  | single mutable => cases mutable <;> decide
  | reference | sequence | write =>
      simp [Shape.isMutable, Shape.capabilities]

/-- A lookup by primary key. -/
def Query.IsGet (q : Query) : Prop :=
  ∃ source key keyMember, q = .step source (.get key keyMember)

/-- Only lookups by primary key are open to writes in place. -/
theorem isGet_iff {q : Query} : q.IsGet ↔ q.shape.isMutable = true := by
  constructor
  · rintro ⟨source, key, keyMember, rfl⟩
    rfl
  · intro h
    cases q with
    | root r => cases r <;> cases h
    | step q s => cases s <;> first | exact ⟨_, _, _, rfl⟩ | cases h
    | rowStep q s f => cases s <;> cases h
    | indexCreateWith | orderBy | union | reduce | groupBy
    | groupedMapReduce | join | eqJoin => cases h

/-- The last step of a chain may be written after its source. -/
def Query.fits : Query → Bool
  | .root _ => true
  | .indexCreateWith _ _ _ => true
  | .step source s => s.accepts source.shape
  | .rowStep source s _ => s.accepts source.shape
  | .orderBy source _ _ => source.shape.isSequence
  | .union first second =>
      first.shape.isSequence && second.shape == first.shape
  | .reduce source _ _ => source.shape.isSequence
  | .groupBy source _ _ => source.shape.isSequence
  | .groupedMapReduce source _ _ _ _ => source.shape.isSequence
  | .join _ left right _ =>
      left.shape.isSequence && right.shape.isSequence
  | .eqJoin left _ right _ =>
      left.shape.isSequence && right.shape.isSequence

/-- `Φ` holds of every chain at some places and of how it stands there. -/
def Throughout (Φ : Role → Query → Prop) (places : List Place) : Prop :=
  ∀ p ∈ places, Φ p.role p.chain

/-- A chain fits, however it stands. -/
def Fits (_ : Role) (q : Query) : Prop :=
  q.fits = true

/-- All chains in an expression are accepted. -/
abbrev Expr.Accepted (e : Expr) : Prop :=
  Throughout Fits e.places

/-- A chain and all chains in it have only steps that their sources
    offer. -/
def Query.Accepted (q : Query) : Prop :=
  Throughout Fits q.places

instance (q : Query) : Decidable q.Accepted :=
  inferInstanceAs (Decidable (∀ p ∈ q.places, p.chain.fits = true))

section Throughout

variable {Φ : Role → Query → Prop} {pss : List (List Place)}

theorem throughout_nil : Throughout Φ [] :=
  List.forall_mem_nil _

theorem throughout_cons {p : Place} {ps : List Place} :
    Throughout Φ (p :: ps) ↔ Φ p.role p.chain ∧ Throughout Φ ps :=
  List.forall_mem_cons

theorem throughout_under {ps : List Place} (e : Term.Edge) :
    Throughout Φ (ps.map (.under e)) ↔ Throughout Φ ps :=
  List.forall_mem_map

theorem throughout_placesAt {k : Nat} :
    Throughout Φ (placesAt k pss) ↔ ∀ ps ∈ pss, Throughout Φ ps := by
  induction pss generalizing k with
  | nil => exact ⟨fun _ => List.forall_mem_nil _, fun _ => throughout_nil⟩
  | cons ps rest ih =>
      rw [placesAt, Throughout, List.forall_mem_append, List.forall_mem_cons]
      exact and_congr (throughout_under _) ih

theorem throughout_one {ps : List Place} :
    Throughout Φ (placesAt 0 [ps]) ↔ Throughout Φ ps := by
  rw [throughout_placesAt, List.forall_mem_singleton]

theorem throughout_two {ps rs : List Place} :
    Throughout Φ (placesAt 0 [ps, rs]) ↔
      Throughout Φ ps ∧ Throughout Φ rs := by
  rw [throughout_placesAt, List.forall_mem_cons, List.forall_mem_singleton]

theorem throughout_three {ps rs us : List Place} :
    Throughout Φ (placesAt 0 [ps, rs, us]) ↔
      Throughout Φ ps ∧ Throughout Φ rs ∧ Throughout Φ us := by
  rw [throughout_placesAt, List.forall_mem_cons, List.forall_mem_cons,
    List.forall_mem_singleton]

theorem throughout_members {ms : List (String × Expr)} :
    Throughout Φ (memberPlaces ms) ↔ ∀ m ∈ ms, Throughout Φ m.2.places := by
  induction ms with
  | nil => exact ⟨fun _ => List.forall_mem_nil _, fun _ => throughout_nil⟩
  | cons m ms ih =>
      rw [memberPlaces, Throughout, List.forall_mem_append,
        List.forall_mem_cons]
      exact and_congr (throughout_under _) ih

theorem throughout_items {es : List Expr} :
    Throughout Φ (placesAt 0 (itemPlaces es)) ↔
      ∀ e ∈ es, Throughout Φ e.places := by
  rw [throughout_placesAt, itemPlaces_eq, List.forall_mem_map]

theorem throughout_rowFunc {f : RowFunc} :
    Throughout Φ f.places ↔ Throughout Φ f.toFunc.body.places := by
  rw [rowFunc_places, throughout_two]
  exact and_iff_right throughout_nil

theorem throughout_pairFunc {f : PairFunc} :
    Throughout Φ f.places ↔ Throughout Φ f.toFunc.body.places := by
  rw [pairFunc_places, throughout_two]
  exact and_iff_right throughout_nil

theorem throughout_key {k : SortKey} :
    Throughout Φ k.places ↔ Throughout Φ k.body.places := by
  obtain ⟨f, direction⟩ := k
  rw [SortKey.places, throughout_one]
  exact throughout_rowFunc

theorem throughout_sorted {ps : List Place} {first : SortKey}
    {others : List SortKey} :
    Throughout Φ (placesAt 0 (ps :: first.places :: keyPlaces others)) ↔
      Throughout Φ ps ∧ Throughout Φ first.body.places ∧
        ∀ k ∈ others, Throughout Φ k.body.places := by
  rw [throughout_placesAt, keyPlaces_eq, List.forall_mem_cons,
    List.forall_mem_cons, List.forall_mem_map, throughout_key]
  simp only [throughout_key]

theorem throughout_grouped {ps : List Place} {g m : RowFunc} {r : PairFunc} :
    Throughout Φ (placesAt 0 [ps, g.places, m.places, r.places]) ↔
      Throughout Φ ps ∧ Throughout Φ g.toFunc.body.places ∧
        Throughout Φ m.toFunc.body.places ∧
        Throughout Φ r.toFunc.body.places := by
  rw [throughout_placesAt, List.forall_mem_cons, List.forall_mem_cons,
    List.forall_mem_cons, List.forall_mem_singleton, throughout_rowFunc,
    throughout_rowFunc, throughout_pairFunc]

end Throughout

variable {q : Query}

/-- A chain is accepted when its last step fits and the chains in it are
    accepted. -/
theorem accepted_iff :
    q.Accepted ↔ q.fits = true ∧ Throughout Fits q.inner :=
  @throughout_cons Fits _ _

/-- How a chain stands does not matter for what is in it. -/
theorem accepted_placesAs {role : Role} :
    Throughout Fits (q.placesAs role) ↔ q.Accepted := by
  rw [Query.placesAs, throughout_cons, accepted_iff]
  exact Iff.rfl

theorem accepted_root (r : Root) : (Query.root r).Accepted :=
  accepted_iff.mpr ⟨rfl, throughout_nil⟩

/-! ## Capturing accepts -/

section Capturing

open Draft Draft.Capture

variable {made : Query}

/-- A setting changes neither the chains in a chain, nor its shape, nor
    whether its last step fits. -/
theorem modify_keeps {m : Modifier} (h : q.modify? m = some made) :
    made.inner = q.inner ∧ made.shape = q.shape ∧ made.fits = q.fits := by
  rw [Query.modify?.eq_def] at h
  split at h <;> cases h <;> exact ⟨rfl, rfl, rfl⟩

/-- A further sort key is added right after the others. -/
theorem thenBy_ok {key : SortKey} (h : q.thenBy? key = some made) :
    ∃ source first others, q = .orderBy source first others ∧
      made = .orderBy source first (others ++ [key]) := by
  rw [Query.thenBy?.eq_def] at h
  split at h
  · cases h
    exact ⟨_, _, _, rfl, rfl⟩
  · cases h

theorem inDatabase_ok {root : String → Root}
    (h : q.inDatabase? root = some made) :
    ∃ name, q = .root (.db name) ∧ made = .root (root name) := by
  rw [Query.inDatabase?.eq_def] at h
  split at h
  · cases h
    exact ⟨_, rfl, rfl⟩
  · cases h

theorem asTable_ok {t : Table} (h : q.asTable? = some t) :
    q = .root (.table t) := by
  rw [Query.asTable?.eq_def] at h
  split at h <;> cases h
  rfl

theorem onTable_ok {root : Table → Root}
    (h : q.onTable? root = some made) :
    ∃ t, q = .root (.table t) ∧ made = .root (root t) := by
  obtain ⟨t, ht, rfl⟩ := Option.map_eq_some_iff.mp h
  exact ⟨t, asTable_ok ht, rfl⟩

/-- A step that a chain offers accepts the chain it makes. -/
theorem accepted_gives {a : Action}
    (h : a.Gives Expr.Accepted Query.Accepted q made) (hq : q.Accepted) :
    made.Accepted := by
  have hsource : Throughout Fits (q.placesAs .source) :=
    accepted_placesAs.mpr hq
  cases h with
  | onDatabase h =>
      obtain ⟨name, -, rfl⟩ := inDatabase_ok h
      exact accepted_root _
  | onTable h =>
      obtain ⟨t, -, rfl⟩ := onTable_ok h
      exact accepted_root _
  | modify h =>
      obtain ⟨hinner, -, hfits⟩ := modify_keeps h
      obtain ⟨hlast, hparts⟩ := accepted_iff.mp hq
      refine accepted_iff.mpr ⟨hfits.trans hlast, ?_⟩
      rw [hinner]
      exact hparts
  | plain haccepts =>
      exact accepted_iff.mpr ⟨haccepts, throughout_one.mpr hsource⟩
  | indexCreateWith f _ hf =>
      exact accepted_iff.mpr ⟨rfl, throughout_three.mpr
        ⟨throughout_nil, throughout_nil, throughout_rowFunc.mpr hf⟩⟩
  | rowStep g haccepts hg =>
      exact accepted_iff.mpr ⟨haccepts, throughout_two.mpr
        ⟨hsource, throughout_rowFunc.mpr hg⟩⟩
  | @orderBy _ direction f hsequence hf =>
      exact accepted_iff.mpr ⟨hsequence, throughout_sorted.mpr
        ⟨hsource, hf, List.forall_mem_nil _⟩⟩
  | thenBy f hf h =>
      obtain ⟨source, first, others, rfl, rfl⟩ := thenBy_ok h
      obtain ⟨hlast, hparts⟩ := accepted_iff.mp hq
      obtain ⟨hrows, hfirst, hothers⟩ := throughout_sorted.mp hparts
      exact accepted_iff.mpr ⟨hlast, throughout_sorted.mpr
        ⟨hrows, hfirst, List.forall_mem_append.mpr
          ⟨hothers, List.forall_mem_singleton.mpr hf⟩⟩⟩
  | union r hsequence hr hsame =>
      exact accepted_iff.mpr
        ⟨Bool.and_eq_true_iff.mpr ⟨hsequence, hsame⟩,
          throughout_two.mpr ⟨hsource, accepted_placesAs.mpr hr⟩⟩
  | reduce g hsequence hg =>
      exact accepted_iff.mpr ⟨hsequence, throughout_two.mpr
        ⟨hsource, throughout_pairFunc.mpr hg⟩⟩
  | groupBy r f hsequence hf =>
      exact accepted_iff.mpr ⟨hsequence, throughout_two.mpr
        ⟨hsource, throughout_rowFunc.mpr hf⟩⟩
  | groupedMapReduce g m r hsequence hg hm hr =>
      exact accepted_iff.mpr ⟨hsequence, throughout_grouped.mpr
        ⟨hsource, hg, hm, hr⟩⟩
  | join r f hleft hr hright hf =>
      exact accepted_iff.mpr
        ⟨Bool.and_eq_true_iff.mpr ⟨hleft, hright⟩, throughout_three.mpr
          ⟨hsource, accepted_placesAs.mpr hr, throughout_pairFunc.mpr hf⟩⟩
  | eqJoin r f hleft hr hright =>
      exact accepted_iff.mpr
        ⟨Bool.and_eq_true_iff.mpr ⟨hleft, hright⟩, throughout_three.mpr
          ⟨hsource, throughout_nil, accepted_placesAs.mpr hr⟩⟩

/-- The stored expressions, functions and chains are accepted. -/
structure Accepting (shelf : Shelf) : Prop where
  exprs : ∀ entry ∈ shelf.exprs, entry.2.Accepted
  funcs : ∀ entry ∈ shelf.funcs, entry.2.body.Accepted
  queries : ∀ entry ∈ shelf.queries, entry.2.Accepted

variable {shelf : Shelf}

/-- Every form of draft gives accepted things. -/
theorem accepted_hereditary (h : Accepting shelf) :
    Draft.Hereditary (fun e => Yields Expr.Accepted shelf e.capture)
      (fun a => ∀ word (q : Query), q.Accepted →
        Yields Query.Accepted shelf (a.capture word q))
      (fun q => Yields Query.Accepted shelf q.capture) where
  named _ := yields_bind (yields_any _) fun _ _ =>
    yields_done throughout_nil
  fresh := yields_bind (yields_any _) fun _ _ => yields_done throughout_nil
  stored name := yields_stored h.exprs name
  literal _ := yields_done throughout_nil
  field _ _ he := yields_bind he fun _ he =>
    yields_done (throughout_one.mpr he)
  compare _ _ _ ha hb := yields_bind ha fun _ ha =>
    yields_bind hb fun _ hb => yields_done (throughout_two.mpr ⟨ha, hb⟩)
  arith _ _ _ ha hb := yields_bind ha fun _ ha =>
    yields_bind hb fun _ hb => yields_done (throughout_two.mpr ⟨ha, hb⟩)
  all _ hes := yields_bind (yields_items hes) fun _ h =>
    yields_done (throughout_items.mpr h)
  any _ hes := yields_bind (yields_items hes) fun _ h =>
    yields_done (throughout_items.mpr h)
  not _ he := yields_bind he fun _ he =>
    yields_done (throughout_one.mpr he)
  array _ hes := yields_bind (yields_items hes) fun _ h =>
    yields_done (throughout_items.mpr h)
  object _ hms := yields_bind (yields_members hms) fun _ h =>
    yields_done (throughout_members.mpr h)
  call _ _ hes := yields_bind (yields_items hes) fun _ h =>
    yields_done (throughout_items.mpr h)
  subquery _ hq := yields_bind hq fun _ hq =>
    yields_bind (yields_any _) fun _ _ =>
      yields_done (accepted_placesAs.mpr hq)
  action _ hbodies hother _ _ hq :=
    yields_mono (gives_capture hbodies hother) fun _ hgives =>
      accepted_gives hgives hq
  chain start steps hsteps := by
    have hstart : Yields Query.Accepted shelf start.capture := by
      cases start with
      | root r => exact yields_done (accepted_root r)
      | stored name => exact yields_stored h.queries name
    exact yields_bind hstart fun q hq =>
      yields_steps (fun w hw q hq => hsteps w hw w.word q hq) hq

/-- Capturing makes accepted chains only. -/
theorem accepted_capture (h : Accepting shelf) (q : Draft.Query) :
    Yields Query.Accepted shelf q.capture :=
  (accepted_hereditary h).query q

/-- The bodies of captured functions are accepted as well. -/
theorem accepted_func (h : Accepting shelf) (f : Draft.Func) :
    Yields (fun f : Func => f.body.Accepted) shelf f.capture := by
  cases f with
  | closure names body =>
      have hbody := (accepted_hereditary h).expr body
      exact yields_bind (yields_any _) fun _ _ =>
        yields_bind (yields_binding _ _ hbody) fun _ hbody =>
          yields_done hbody
  | member name =>
      exact yields_bind (yields_any _) fun _ _ =>
        yields_done (throughout_one.mpr throughout_nil)
  | «over» names body =>
      have hbody := (accepted_hereditary h).expr body
      exact yields_bind (yields_any _) fun _ _ =>
        yields_bind hbody fun _ hbody => yields_done hbody
  | stored name => exact yields_stored h.funcs name

end Capturing

/-! ## What stands where -/

/-- How a chain may stand inside another: operations take their rows from
    sequences, and from objects open to writes in place; any chain may be
    embedded. -/
def Stands : Role → Query → Prop
  | .whole, _ => False
  | .source, q => q.shape.isSequence = true ∨ q.shape.isMutable = true
  | .embedded, _ => True

theorem step_source {s : Step} (h : s.accepts q.shape = true) :
    Stands .source q := by
  cases s with
  | zip => exact .inl (Bool.and_eq_true_iff.mp h).1
  | delete => exact Bool.or_eq_true_iff.mp h
  | replace v nonAtomic | replaceAndReturn v nonAtomic | deleteAndReturn =>
      exact .inr h
  | get key member | getAll key index | between l r index lb rb | skip n
  | limit n | slice start stop | nth n | distinct | count =>
      exact .inl h

theorem rowStep_source {s : RowStep} (h : s.accepts q.shape = true) :
    Stands .source q := by
  cases s with
  | update nonAtomic => exact Bool.or_eq_true_iff.mp h
  | updateAndReturn nonAtomic => exact .inr h
  | filter | map | concatMap => exact .inl h

section Standing

/-- In accepted chains everything stands as it may. -/
def Query.Standing (q : Query) : Prop :=
  q.Accepted → Throughout Stands q.inner

theorem standing_source (hq : q.Standing)
    (h : Throughout Fits (q.placesAs .source)) (hstands : Stands .source q) :
    Throughout Stands (q.placesAs .source) :=
  throughout_cons.mpr ⟨hstands, hq (accepted_placesAs.mp h)⟩

theorem standing_hereditary :
    Hereditary (fun e => e.Accepted → Throughout Stands e.places)
      Query.Standing where
  param _ _ := throughout_nil
  literal _ _ := throughout_nil
  field _ _ he h := throughout_one.mpr (he (throughout_one.mp h))
  compare _ _ _ ha hb h :=
    throughout_two.mpr ((throughout_two.mp h).imp ha hb)
  arith _ _ _ ha hb h :=
    throughout_two.mpr ((throughout_two.mp h).imp ha hb)
  all _ hes h := throughout_items.mpr fun e he =>
    hes e he (throughout_items.mp h e he)
  any _ hes h := throughout_items.mpr fun e he =>
    hes e he (throughout_items.mp h e he)
  not _ he h := throughout_one.mpr (he (throughout_one.mp h))
  array _ hes h := throughout_items.mpr fun e he =>
    hes e he (throughout_items.mp h e he)
  object _ hms h := throughout_members.mpr fun m hm =>
    hms m hm (throughout_members.mp h m hm)
  call _ _ hes h := throughout_items.mpr fun e he =>
    hes e he (throughout_items.mp h e he)
  subquery _ _ hq h :=
    throughout_cons.mpr ⟨trivial, hq (accepted_placesAs.mp h)⟩
  root _ _ := throughout_nil
  indexCreateWith _ _ key hkey h := by
    obtain ⟨-, -, hfits⟩ := throughout_three.mp (accepted_iff.mp h).2
    exact throughout_three.mpr ⟨throughout_nil, throughout_nil,
      throughout_rowFunc.mpr (hkey (throughout_rowFunc.mp hfits))⟩
  step q s hq h := by
    obtain ⟨haccepts, hparts⟩ := accepted_iff.mp h
    exact throughout_one.mpr (standing_source hq
      (throughout_one.mp hparts) (step_source haccepts))
  rowStep q s f hq hf h := by
    obtain ⟨haccepts, hparts⟩ := accepted_iff.mp h
    obtain ⟨hsource, hfits⟩ := throughout_two.mp hparts
    exact throughout_two.mpr
      ⟨standing_source hq hsource (rowStep_source haccepts),
        throughout_rowFunc.mpr (hf (throughout_rowFunc.mp hfits))⟩
  orderBy q first others hq hfirst hothers h := by
    obtain ⟨hsequence, hparts⟩ := accepted_iff.mp h
    obtain ⟨hsource, hkey, hkeys⟩ := throughout_sorted.mp hparts
    exact throughout_sorted.mpr
      ⟨standing_source hq hsource (.inl hsequence), hfirst hkey,
        fun k hk => hothers k hk (hkeys k hk)⟩
  union a b ha hb h := by
    obtain ⟨hfits, hparts⟩ := accepted_iff.mp h
    obtain ⟨hleft, hsame⟩ := Bool.and_eq_true_iff.mp hfits
    obtain ⟨hfirst, hsecond⟩ := throughout_two.mp hparts
    have hright : b.shape.isSequence = true := by
      rw [eq_of_beq hsame]
      exact hleft
    exact throughout_two.mpr ⟨standing_source ha hfirst (.inl hleft),
      standing_source hb hsecond (.inl hright)⟩
  reduce q f base hq hf h := by
    obtain ⟨hsequence, hparts⟩ := accepted_iff.mp h
    obtain ⟨hsource, hfits⟩ := throughout_two.mp hparts
    exact throughout_two.mpr
      ⟨standing_source hq hsource (.inl hsequence),
        throughout_pairFunc.mpr (hf (throughout_pairFunc.mp hfits))⟩
  groupBy q reduction key hq hkey h := by
    obtain ⟨hsequence, hparts⟩ := accepted_iff.mp h
    obtain ⟨hsource, hfits⟩ := throughout_two.mp hparts
    exact throughout_two.mpr
      ⟨standing_source hq hsource (.inl hsequence),
        throughout_rowFunc.mpr (hkey (throughout_rowFunc.mp hfits))⟩
  groupedMapReduce q g m r base hq hg hm hr h := by
    obtain ⟨hsequence, hparts⟩ := accepted_iff.mp h
    obtain ⟨hsource, hfits⟩ := throughout_grouped.mp hparts
    exact throughout_grouped.mpr
      ⟨standing_source hq hsource (.inl hsequence),
        hfits.imp hg (And.imp hm hr)⟩
  join kind a b f ha hb hf h := by
    obtain ⟨hfits, hparts⟩ := accepted_iff.mp h
    obtain ⟨hleft, hright⟩ := Bool.and_eq_true_iff.mp hfits
    obtain ⟨hfirst, hsecond, hbody⟩ := throughout_three.mp hparts
    exact throughout_three.mpr ⟨standing_source ha hfirst (.inl hleft),
      standing_source hb hsecond (.inl hright),
      throughout_pairFunc.mpr (hf (throughout_pairFunc.mp hbody))⟩
  eqJoin a member b index ha hb h := by
    obtain ⟨hfits, hparts⟩ := accepted_iff.mp h
    obtain ⟨hleft, hright⟩ := Bool.and_eq_true_iff.mp hfits
    obtain ⟨hfirst, -, hsecond⟩ := throughout_three.mp hparts
    exact throughout_three.mpr ⟨standing_source ha hfirst (.inl hleft),
      throughout_nil, standing_source hb hsecond (.inl hright)⟩

/-- In an accepted chain the chains stand as they may. -/
theorem stands_of_accepted (h : q.Accepted) : Throughout Stands q.inner :=
  standing_hereditary.query q h

end Standing

end ChainQuery
