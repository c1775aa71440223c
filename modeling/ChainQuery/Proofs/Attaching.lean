import ChainQuery.Proofs.NameOrder
import ChainQuery.Term.Fingerprint

/-! # Attaching — the last value under a name counts

    Named arguments are attached to a term one call after another, some of
    them only where there is a value.  The term keeps them in the order of
    their names, so nothing of the order of the calls can be seen in it,
    and nothing of the values that were replaced.  The route:

    * what one call changes is said once (`attach_operation`);
    * so a row of calls leaves the names in order, and under each name the
      last value that was given, or else the one that was there
      (`attachAll_operation`);
    * names in order are known by what is found under them
      (`Entries.ext_find?`), so rows of calls with the same last values
      make the same term (`attachAll_ext`).

    Generated terms come with their names in order, so nothing is assumed
    of them (`attachAll_generated`). -/

namespace ChainQuery

/-! ## Calls -/

/-- A call that attaches a named argument. -/
inductive Attachment where
  | always (name : String) (value : Term)
  /-- A value that may be absent. -/
  | ifPresent (name : String) (value : Option Term)

namespace Attachment

/-- What a call makes of a term. -/
def attach (t : Term) : Attachment → Term
  | .always name value => t.withOptarg name value
  | .ifPresent name value => t.withOptional name value

/-- The value a call gives under a name, if it does. -/
def valueFor? (name : String) : Attachment → Option Term
  | .always key value => if name = key then some value else none
  | .ifPresent key value => if name = key then value else none

/-- The last value that calls give under a name. -/
def last? (name : String) (calls : List Attachment) : Option Term :=
  (calls.filterMap (valueFor? name)).getLast?

end Attachment

open Attachment

/-- Attach named arguments, one call after another. -/
def Term.attachAll (t : Term) (calls : List Attachment) : Term :=
  calls.foldl attach t

variable (kind : Term.Kind) (args : List Term)
  {optargs : List (String × Term)}

/-- Of all that is found in a list, what the first gives is the last only
    when no other gives anything. -/
theorem getLast_filterMap_cons {α β : Type} (f : α → Option β) (a : α)
    (as : List α) :
    ((a :: as).filterMap f).getLast?
      = ((as.filterMap f).getLast?).or (f a) := by
  cases hvalue : f a with
  | none => simp [hvalue]
  | some value =>
      rw [List.filterMap_cons_some hvalue, List.getLast?_cons]
      cases (as.filterMap f).getLast? with
      | none => rfl
      | some later => rfl

/-- A call comes before all those after it. -/
theorem last_cons (name : String) (call : Attachment)
    (calls : List Attachment) :
    last? name (call :: calls)
      = (last? name calls).or (call.valueFor? name) :=
  getLast_filterMap_cons (valueFor? name) call calls

/-! ## What calls change -/

/-- An operation whose names are in order, with a value under each name or
    none. -/
structure Attached (kind : Term.Kind) (args : List Term)
    (found : String → Option Term) (t : Term) : Prop where
  shape : t = .apply kind args t.optargs
  sorted : Entries.Sorted t.optargs
  found : ∀ name, t.optarg? name = found name

/-- A named argument is found under its name, the others as before. -/
theorem attached_withOptarg (key : String) (value : Term)
    (h : Entries.Sorted optargs) :
    Attached kind args
      (fun name => if name = key then some value
        else Entries.find? name optargs)
      ((Term.apply kind args optargs).withOptarg key value) where
  shape := rfl
  sorted := Entries.sorted_put value h
  found name := Entries.find?_put key name value optargs

/-- After a call its own value is found under its name, if it has one, and
    whatever was there otherwise. -/
theorem attach_operation (call : Attachment)
    (h : Entries.Sorted optargs) :
    Attached kind args
      (fun name => (call.valueFor? name).or (Entries.find? name optargs))
      (call.attach (.apply kind args optargs)) := by
  have hput : ∀ key value, Attached kind args
      (fun name => (if name = key then some value else none).or
        (Entries.find? name optargs))
      ((Term.apply kind args optargs).withOptarg key value) := by
    intro key value
    obtain ⟨hshape, hsorted, hfound⟩ :=
      attached_withOptarg kind args key value h
    refine ⟨hshape, hsorted, ?_⟩
    intro name
    rw [hfound name]
    by_cases hname : name = key <;> simp [hname]
  cases call with
  | always key value => exact hput key value
  | ifPresent key value =>
      cases value with
      | some value => exact hput key value
      | none =>
          refine ⟨rfl, h, ?_⟩
          intro name
          show Entries.find? name optargs
            = (if name = key then none else none).or
              (Entries.find? name optargs)
          simp

/-- After a row of calls the last value given under a name is found there,
    or else what was there before. -/
theorem attachAll_operation (calls : List Attachment)
    (h : Entries.Sorted optargs) :
    Attached kind args
      (fun name => (last? name calls).or (Entries.find? name optargs))
      ((Term.apply kind args optargs).attachAll calls) := by
  induction calls generalizing optargs with
  | nil => exact ⟨rfl, h, fun _ => rfl⟩
  | cons call calls ih =>
      obtain ⟨hshape, hsorted, hfound⟩ :=
        attach_operation kind args call h
      have hrest := ih hsorted
      rw [← hshape] at hrest
      refine ⟨hrest.shape, hrest.sorted, ?_⟩
      intro name
      -- The calls that come later have the first word on a name.
      rw [last_cons, Option.or_assoc, ← hfound name]
      exact hrest.found name

/-- A leaf takes no calls. -/
theorem attachAll_datum (d : Datum) (calls : List Attachment) :
    (Term.datum d).attachAll calls = .datum d := by
  induction calls with
  | nil => rfl
  | cons call calls ih =>
      have hcall : call.attach (.datum d) = .datum d := by
        cases call with
        | always key value => rfl
        | ifPresent key value => cases value <;> rfl
      show (call.attach (.datum d)).attachAll calls = .datum d
      rw [hcall, ih]

/-- Rows of calls that leave the same value under each name make the same
    term. -/
theorem attachAll_ext (t : Term) (h : Entries.Sorted t.optargs)
    {calls others : List Attachment}
    (hlast : ∀ name, (last? name calls).or (t.optarg? name)
      = (last? name others).or (t.optarg? name)) :
    t.attachAll calls = t.attachAll others := by
  cases t with
  | datum d => rw [attachAll_datum, attachAll_datum]
  | apply kind args optargs =>
      replace h : Entries.Sorted optargs := h
      have hcalls := attachAll_operation kind args calls h
      have hothers := attachAll_operation kind args others h
      have hoptargs := Entries.ext_find? hcalls.sorted hothers.sorted
        fun name => (hcalls.found name).trans
          ((hlast name).trans (hothers.found name).symm)
      rw [hcalls.shape, hothers.shape, hoptargs]

/-- Of a generated term nothing else has to be known. -/
theorem attachAll_generated {c : Converter} {job : Job} {ctx : Context}
    {t : Term} (h : (job.walk c ctx).result = .ok t)
    {calls others : List Attachment}
    (hlast : ∀ name, last? name calls = last? name others) :
    t.attachAll calls = t.attachAll others :=
  attachAll_ext t (ordered_job c job ctx h).sorted fun name => by
    rw [hlast name]

/-- **Named arguments have no history**: of a row of calls, of any length
    and with names repeated or not, a term keeps its kind, its arguments
    and, under each name, the last value that was given, or else its own;
    the names are in strictly increasing byte order.  Any row with the same
    last values makes the same term, of the same size, bytes and
    fingerprint.  A leaf stays what it is. -/
theorem last_attached_counts (t : Term) (h : Entries.Sorted t.optargs)
    (calls : List Attachment) :
    (∀ others, (∀ name, last? name calls = last? name others) →
      t.attachAll calls = t.attachAll others ∧
      (t.attachAll calls).optargs = (t.attachAll others).optargs ∧
      (t.attachAll calls).nodeCount = (t.attachAll others).nodeCount ∧
      Canonical.term (t.attachAll calls)
        = Canonical.term (t.attachAll others) ∧
      (t.attachAll calls).fingerprint
        = (t.attachAll others).fingerprint) ∧
    Entries.Sorted (t.attachAll calls).optargs ∧
    (t.attachAll calls).kind = t.kind ∧
    (t.attachAll calls).args = t.args ∧
    (t.asDatum = none → ∀ name, (t.attachAll calls).optarg? name
      = (last? name calls).or (t.optarg? name)) ∧
    (∀ d, t.asDatum = some d → t.attachAll calls = t ∧
      ∀ name, (t.attachAll calls).optarg? name = none) := by
  refine ⟨?_, ?_⟩
  · intro others hlast
    have heq : t.attachAll calls = t.attachAll others :=
      attachAll_ext t h fun name => by rw [hlast name]
    rw [heq]
    exact ⟨rfl, rfl, rfl, rfl, rfl⟩
  cases t with
  | datum d =>
      rw [attachAll_datum]
      refine ⟨h, rfl, rfl, nofun, ?_⟩
      intro _ _
      exact ⟨rfl, fun _ => rfl⟩
  | apply kind args optargs =>
      replace h : Entries.Sorted optargs := h
      have hcalls := attachAll_operation kind args calls h
      refine ⟨hcalls.sorted, ?_, ?_, fun _ => hcalls.found, nofun⟩
      · rw [hcalls.shape]
        rfl
      · rw [hcalls.shape]
        rfl

/-- Two rows with the same last values on an operation that has arguments
    of its own: a name given twice, an absent value, and names whose byte
    order is not the order of their UTF-16 units. -/
theorem last_attached_counts_astral :
    let t := Term.apply .table [.text "users"]
      [("r", .text "own"), ("\uffff", .text "old")]
    let calls := [.always "😀" (.text "a"), .always "\uffff" (.text "x"),
      .ifPresent "r" none, .always "\uffff" (.text "b")]
    let others := [.always "\uffff" (.text "b"),
      .ifPresent "😀" (some (.text "a"))]
    Entries.Sorted t.optargs ∧
      (∀ name, last? name calls = last? name others) ∧
      t.attachAll calls = .apply .table [.text "users"]
        [("r", .text "own"), ("\uffff", .text "b"), ("😀", .text "a")] ∧
      (t.attachAll calls).fingerprint
        = (t.attachAll others).fingerprint := by
  intro t calls others
  have hsorted : Entries.Sorted t.optargs :=
    List.pairwise_pair.mpr (by decide +kernel)
  have hlast : ∀ name, last? name calls = last? name others := by
    intro name
    simp only [calls, others, last?, List.filterMap_cons, valueFor?]
    by_cases hastral : name = "😀"
    · subst hastral
      rfl
    · by_cases hlate : name = "\uffff" <;> simp [hastral, hlate]
  obtain ⟨hsame, -⟩ := last_attached_counts t hsorted calls
  exact ⟨hsorted, hlast, rfl, (hsame others hlast).2.2.2.2⟩

end ChainQuery
