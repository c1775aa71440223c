import ChainQuery.Proofs.Binary64
import ChainQuery.Term
import Mathlib.Data.List.Forall2

/-! # Sameness — what equal terms have in common

    Terms are equal when their trees are and their leaves hold equal
    datums, numbers compared as numbers.  Equality is therefore pairwise:
    of positional arguments (`sameArgs_iff`) and of named ones
    (`sameOptargs_iff`). -/

namespace ChainQuery

/-! ## Numbers -/

namespace Binary64

variable {x y z : Binary64}

theorem same_symm (h : x.same y = true) : y.same x = true :=
  same_comm x y ▸ h

/-- Numeric equality is transitive: two doubles with one value have the
    same bits or are both zero. -/
theorem same_trans (h : x.same y = true) (h' : y.same z = true) :
    x.same z = true := by
  simp only [same, Bool.and_eq_true, Bool.or_eq_true, beq_iff_eq] at *
  obtain ⟨⟨hx, hy⟩, hxy⟩ := h
  obtain ⟨⟨-, hz⟩, hyz⟩ := h'
  refine ⟨⟨hx, hz⟩, ?_⟩
  -- Equal bits carry anything over; two zeros only meet a third zero.
  rcases hxy with hbits | ⟨hx0, hy0⟩
  · cases x
    cases y
    cases hbits
    exact hyz
  · rcases hyz with hbits | ⟨-, hz0⟩
    · cases y
      cases z
      cases hbits
      exact Or.inr ⟨hx0, hy0⟩
    · exact Or.inr ⟨hx0, hz0⟩

end Binary64

/-! ## Terms -/

namespace Term

theorem same_text {s s' : String} :
    (Term.text s).same (.text s') = true ↔ s = s' :=
  beq_iff_eq

theorem sameArgs_iff {as bs : List Term} :
    sameArgs as bs = true ↔
      List.Forall₂ (fun a b => a.same b = true) as bs := by
  induction as generalizing bs with
  | nil =>
      cases bs with
      | nil => exact ⟨fun _ => .nil, fun _ => rfl⟩
      | cons b bs => constructor <;> intro h <;> cases h
  | cons a as ih =>
      cases bs with
      | nil => constructor <;> intro h <;> cases h
      | cons b bs =>
          rw [sameArgs, Bool.and_eq_true, ih, List.forall₂_cons]

theorem sameOptargs_iff {es fs : List (String × Term)} :
    sameOptargs es fs = true ↔
      List.Forall₂ (fun e f => e.1 = f.1 ∧ e.2.same f.2 = true) es fs := by
  induction es generalizing fs with
  | nil =>
      cases fs with
      | nil => exact ⟨fun _ => .nil, fun _ => rfl⟩
      | cons f fs => constructor <;> intro h <;> cases h
  | cons e es ih =>
      cases fs with
      | nil => constructor <;> intro h <;> cases h
      | cons f fs =>
          obtain ⟨k, a⟩ := e
          obtain ⟨l, b⟩ := f
          rw [sameOptargs, Bool.and_eq_true, Bool.and_eq_true, beq_iff_eq,
            ih, List.forall₂_cons]

/-- Equal operations are of one kind and have equal arguments. -/
theorem same_apply {kind kind' : Kind} {args args' : List Term}
    {optargs optargs' : List (String × Term)} :
    (Term.apply kind args optargs).same (.apply kind' args' optargs') = true
      ↔ (kind = kind' ∧
          List.Forall₂ (fun a b => a.same b = true) args args') ∧
        List.Forall₂ (fun e f => e.1 = f.1 ∧ e.2.same f.2 = true)
          optargs optargs' := by
  rw [same, Bool.and_eq_true, Bool.and_eq_true, beq_iff_eq, sameArgs_iff,
    sameOptargs_iff]

/-- Nodes of one kind with equal arguments are equal. -/
theorem same_node (kind : Kind) {args args' : List Term}
    (h : List.Forall₂ (fun a b => a.same b = true) args args') :
    (Term.node kind args).same (.node kind args') = true :=
  same_apply.mpr ⟨⟨rfl, h⟩, .nil⟩

/-- Equal terms are of one kind. -/
theorem kind_of_same {t u : Term} (h : t.same u = true) :
    t.kind = u.kind := by
  cases t with
  | datum d =>
      cases u with
      | datum e => rfl
      | apply kind args optargs => cases h
  | apply kind args optargs =>
      cases u with
      | datum e => cases h
      | apply kind' args' optargs' => exact (same_apply.mp h).1.1

end Term

end ChainQuery
