import ChainQuery.Proofs.Assembly
import ChainQuery.Proofs.Attaching

/-! # Ranges — both ends are always named

    A range is first written with its left end and without its right one,
    and settings change that one at a time.  The engine has defaults of
    its own, so a term never leaves them to it: both bounds are on the
    wire, whether they were named or not.  The route:

    * one setting changes its own part of a range and nothing else, and no
      setting of another kind of node is taken (`modify_between`);
    * so after a row of settings the last one of each sort counts, or else
      what the range was written with (`modifyAll_between`);
    * the node of a range has its bounds as names, whatever they are
      (`result_between`). -/

namespace ChainQuery

/-! ## Settings -/

namespace Modifier

/-- Whether a range has the setting. -/
def ofRange : Modifier → Bool
  | .index _ => true
  | .leftBound _ => true
  | .rightBound _ => true
  | _ => false

/-- The index a setting names. -/
def index? : Modifier → Option String
  | .index name => some name
  | _ => none

/-- The bound of the left end, when it is set. -/
def leftBound? : Modifier → Option Bound
  | .leftBound b => some b
  | _ => none

/-- The bound of the right end, when it is set. -/
def rightBound? : Modifier → Option Bound
  | .rightBound b => some b
  | _ => none

/-- What the last setting of a sort sets, if there is one. -/
def last? {α : Type} (f : Modifier → Option α) (ms : List Modifier) :
    Option α :=
  (ms.filterMap f).getLast?

end Modifier

open Modifier

/-- Change settings of the last node, one after another. -/
def Query.modifyAll? (q : Query) (ms : List Modifier) : Option Query :=
  ms.foldlM Query.modify? q

variable {source made : Query} {left right : Value} {index : Option String}
  {lb rb : Bound}

/-- What one setting changes. -/
theorem modify_between (m : Modifier) :
    (Query.step source (.between left right index lb rb)).modify? m
        = some made ↔
      m.ofRange = true ∧ made = .step source
        (.between left right (m.index?.or index) (m.leftBound?.getD lb)
          (m.rightBound?.getD rb)) := by
  cases m with
  | index | leftBound | rightBound =>
      simp [Query.modify?, ofRange, index?, leftBound?, rightBound?,
        eq_comm]
  | _ => simp [Query.modify?, ofRange]

/-- What a row of settings changes. -/
theorem modifyAll_between (ms : List Modifier) :
    (Query.step source (.between left right index lb rb)).modifyAll? ms
        = some made ↔
      (∀ m ∈ ms, m.ofRange = true) ∧ made = .step source
        (.between left right ((last? index? ms).or index)
          ((last? leftBound? ms).getD lb)
          ((last? rightBound? ms).getD rb)) := by
  induction ms generalizing index lb rb with
  | nil =>
      constructor
      · rintro ⟨⟩
        exact ⟨List.forall_mem_nil _, rfl⟩
      · rintro ⟨-, rfl⟩
        rfl
  | cons m ms ih =>
      have hcons : ∀ q : Query, q.modifyAll? (m :: ms)
          = (q.modify? m).bind fun next => next.modifyAll? ms :=
        fun _ => rfl
      rw [hcons, Option.bind_eq_some_iff, List.forall_mem_cons]
      -- The settings that come later have the first word on their part.
      simp only [last?, getLast_filterMap_cons, Option.or_assoc,
        Option.getD_or]
      constructor
      · rintro ⟨next, hnext, hmade⟩
        obtain ⟨hm, rfl⟩ := (modify_between m).mp hnext
        obtain ⟨hms, rfl⟩ := ih.mp hmade
        exact ⟨⟨hm, hms⟩, rfl⟩
      · rintro ⟨⟨hm, hms⟩, rfl⟩
        exact ⟨_, (modify_between m).mpr ⟨hm, rfl⟩, ih.mpr ⟨hms, rfl⟩⟩

/-! ## On the wire -/

/-- The names that the node of a range has, in their order. -/
def rangeNames (index : Option String) (lb rb : Bound) :
    List (String × Term) :=
  let word (b : Bound) : Term :=
    .datum (.string (if b = .including then "closed" else "open"))
  (index.map fun name => ("index", .datum (.string name))).toList
    ++ [("left_bound", word lb), ("right_bound", word rb)]

theorem names_of_range :
    (Step.between left right index lb rb).names = rangeNames index lb rb := by
  cases index <;> cases lb <;> cases rb <;> rfl

/-- The node of a range: its source, both its ends, and both bounds under
    their names. -/
theorem result_between {c : Converter} {ctx : Context} {t : Term}
    (h : ((Query.step source (.between left right index lb rb)).walk c
      ctx).result = .ok t) :
    ∃ s l r, (source.walk c ctx).result = .ok s ∧
      c.convert left = .ok l ∧ c.convert right = .ok r ∧
      t = .apply .between [s, .datum l, .datum r]
        (rangeNames index lb rb) := by
  rw [Query.walk, bind_result_iff] at h
  obtain ⟨s, hs, h⟩ := h
  obtain ⟨ends, hends, h⟩ := bind_result_iff.mp h
  obtain ⟨node, hnode, h⟩ := bind_result_iff.mp h
  cases hnode
  cases h
  rw [(follows_literals c _ _).1] at hends
  -- Two literals have two leaves.
  obtain ⟨tl, hl, hrest⟩ := bind_eq_ok.mp hends
  obtain ⟨rest, hrest, hok⟩ := bind_eq_ok.mp hrest
  obtain ⟨tr, hr, hnil⟩ := bind_eq_ok.mp hrest
  cases hok
  cases hnil
  obtain ⟨l, hconvertl, rfl⟩ := judge_leaf hl
  obtain ⟨r, hconvertr, rfl⟩ := judge_leaf hr
  refine ⟨s, l, r, hs, hconvertl, hconvertr, ?_⟩
  rw [attach_step, names_of_range]
  rfl

/-- **A range goes out with both its bounds.**  Settings may follow the
    range in any order and number, and exactly those that a range has: an
    index, and a bound for each end.  Of each sort the last one counts;
    where there is none the range is by the primary key, with its left end
    and without its right one.  In every context and under every converter
    a term that is generated has the term of the source and both ends as
    its arguments, the index under its name if there is one, and always
    both bounds. -/
theorem bounds_always_named (source : Query) (left right : Value)
    (ms : List Modifier) :
    let index := last? index? ms
    let lb := (last? leftBound? ms).getD .including
    let rb := (last? rightBound? ms).getD .excluding
    let ranged := Query.step source (.between left right index lb rb)
    (∀ made, (Query.step source (.range left right)).modifyAll? ms
        = some made ↔
      (∀ m ∈ ms, m.ofRange = true) ∧ made = ranged) ∧
    ranged.detail? = some (.bounds lb rb) ∧
    ∀ c ctx t, (ranged.walk c ctx).result = .ok t →
      ∃ s l r, (source.walk c ctx).result = .ok s ∧
        c.convert left = .ok l ∧ c.convert right = .ok r ∧
        t = .apply .between [s, .datum l, .datum r]
          (rangeNames index lb rb) := by
  intro index lb rb ranged
  refine ⟨?_, rfl, fun c ctx t h => result_between h⟩
  intro made
  rw [Step.range, modifyAll_between, Option.or_none]

/-- Users by age, with one bound set twice. -/
theorem bounds_always_named_ages :
    let users := Query.root (.table ⟨none, "users", false⟩)
    let settings := [.leftBound .excluding, .index "age",
      .leftBound .including]
    ∃ made t, (Query.step users (.range (.int 18) (.int 65))).modifyAll?
        settings = some made ∧
      (made.generate (.standard .strict)).result = .ok t ∧
      t.optargs = [("index", .datum (.string "age")),
        ("left_bound", .datum (.string "closed")),
        ("right_bound", .datum (.string "open"))] := by
  intro users settings
  obtain ⟨hsettings, -, hnames⟩ :=
    bounds_always_named users (.int 18) (.int 65) settings
  have hmade := (hsettings _).mpr ⟨by decide, rfl⟩
  obtain ⟨s, l, r, -, -, -, ht⟩ := hnames (.standard .strict) .fresh _ rfl
  exact ⟨_, _, hmade, rfl, congrArg Term.optargs ht⟩

end ChainQuery
