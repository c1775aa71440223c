import ChainQuery.Proofs.Relocation

/-! # Raising — a term with its variables numbered higher

    Where a chain stands shows in its term only in the numbers of its
    variables.  `Term.raise` makes each of them higher by the same amount:
    the numbers that functions list and those that references carry, and
    no other number.  The route:

    * a term without functions and references stays (`raise_inert`);
    * a term whose numbers are small and which refers to nothing outside
      has only one shifted term, the raised one (`raise_shifted`). -/

namespace ChainQuery

open Term

/-! ## Raised terms -/

/-- The double of a natural so much higher. -/
def Binary64.raise (k : Nat) (x : Binary64) : Binary64 :=
  .ofNat (x.natural + k)

namespace Term

/-- The leaf of a variable number so much higher; anything else stays. -/
def raiseLeaf (k : Nat) : Term → Term
  | .datum (.number x) => .datum (.number (x.raise k))
  | t => t

/-- Raise the numbers a function node lists, given its arguments. -/
def raiseListed (k : Nat) : List Term → List Term
  | .apply .makeArray ids optargs :: rest =>
      .apply .makeArray (ids.map (raiseLeaf k)) optargs :: rest
  | args => args

/-- Raise the numbers of variables that a node of some kind has among its
    own arguments. -/
def raiseOwn (k : Nat) (kind : Kind) (args : List Term) : List Term :=
  match kind with
  | .func => raiseListed k args
  | .var => args.map (raiseLeaf k)
  | _ => args

mutual

/-- Raise the number of every variable in a term by `k`: in the lists of
    functions and in references.  Nothing else changes. -/
def raise (k : Nat) : Term → Term
  | .datum d => .datum d
  | .apply kind args optargs =>
      .apply kind (raiseOwn k kind (raiseArgs k args))
        (raiseNamed k optargs)
termination_by structural t => t

/-- Raise argument by argument. -/
def raiseArgs (k : Nat) : List Term → List Term
  | [] => []
  | t :: ts => raise k t :: raiseArgs k ts
termination_by structural ts => ts

/-- Raise name by name. -/
def raiseNamed (k : Nat) : List (String × Term) → List (String × Term)
  | [] => []
  | (name, t) :: rest => (name, raise k t) :: raiseNamed k rest
termination_by structural es => es

end

end Term

variable {k : Nat} {kind : Kind} {args : List Term}
  {named : List (String × Term)}

theorem raise_number {id : Nat} (h : id ≤ 2 ^ 53) :
    raiseLeaf k (.number id) = .number (id + k) := by
  show Term.datum (.number (Binary64.raise k (Binary64.ofNat id))) = _
  rw [Binary64.raise, Binary64.natural_ofNat h]
  rfl

theorem raise_ordinary (hk : kind.Ordinary) :
    (Term.apply kind args named).raise k
      = .apply kind (raiseArgs k args) (raiseNamed k named) := by
  have hown : ∀ ts, raiseOwn k kind ts = ts := by
    intro ts
    obtain ⟨hfunc, hvar⟩ := hk
    cases kind <;> first | rfl | contradiction
  rw [raise, hown]

theorem raise_reference {id : Nat} (h : id ≤ 2 ^ 53) :
    (Term.variableRef id).raise k = .variableRef (id + k) := by
  show Term.node .var [raiseLeaf k (.number id)] = _
  rw [raise_number h]
  rfl

theorem raiseArgs_leaves (ids : List Nat) :
    raiseArgs k (ids.map .number) = ids.map .number := by
  induction ids with
  | nil => rfl
  | cons id ids ih => exact congrArg (.number id :: ·) ih

theorem raise_function {ids : List Nat} {body : Term}
    (h : ∀ id ∈ ids, id ≤ 2 ^ 53) :
    (Term.function ids body).raise k
      = .function (ids.map (· + k)) (body.raise k) := by
  show Term.node .func [.node .makeArray
    ((raiseArgs k (ids.map .number)).map (raiseLeaf k)), body.raise k] = _
  have hids : ids.map (raiseLeaf k ∘ number)
      = ids.map (number ∘ (· + k)) :=
    List.map_congr_left fun id hid => raise_number (h id hid)
  rw [raiseArgs_leaves, List.map_map, hids, Term.function, List.map_map]

/-! ## Inert terms -/

/-- A list without numbers stays. -/
theorem raiseListed_of_none (h : listed args = []) :
    raiseListed k args = args := by
  rw [raiseListed.eq_def]
  split
  · rename_i ids optargs rest
    have hids : ∀ id ∈ ids, raiseLeaf k id = id := by
      intro id hid
      have hnone := List.filterMap_eq_nil_iff.mp h id hid
      rw [raiseLeaf.eq_def]
      split
      · cases hnone
      · rfl
    rw [List.map_congr_left hids, List.map_id']
  · rfl

mutual

/-- A term that lists no number and is closed stays. -/
theorem raise_of_none : ∀ t : Term, t.declared = [] → t.Closed [] →
    t.raise k = t
  | .datum d, _, _ => rfl
  | .apply kind args optargs, hnone, hclosed => by
      rw [declared] at hnone
      obtain ⟨hlisted, hrest⟩ := List.append_eq_nil_iff.mp hnone
      obtain ⟨hargs, hnamed⟩ := List.append_eq_nil_iff.mp hrest
      have haround : (if kind = .func then listed args ++ [] else [])
          = ([] : List Binary64) := by
        rw [List.append_nil]
        exact hlisted
      rw [Closed, haround] at hclosed
      obtain ⟨hvar, hargs', hnamed'⟩ := hclosed
      rw [raise, raiseArgs_of_none args hargs hargs',
        raiseNamed_of_none optargs hnamed hnamed']
      -- A reference would have to refer to something around it.
      by_cases hkind : kind = .func
      · subst hkind
        rw [if_pos rfl] at hlisted
        rw [raiseOwn, raiseListed_of_none hlisted]
      · have hkind' : kind ≠ .var := by
          intro heq
          obtain ⟨x, hx, -⟩ := hvar heq
          cases hx
        have hown : raiseOwn k kind args = args := by
          cases kind <;> first | rfl | contradiction
        rw [hown]
termination_by structural t => t

theorem raiseArgs_of_none : ∀ args : List Term, declaredArgs args = [] →
    ArgsClosed [] args → raiseArgs k args = args
  | [], _, _ => rfl
  | t :: ts, hnone, hclosed => by
      obtain ⟨ht, hts⟩ := List.append_eq_nil_iff.mp hnone
      rw [raiseArgs, raise_of_none t ht hclosed.1,
        raiseArgs_of_none ts hts hclosed.2]
termination_by structural args => args

theorem raiseNamed_of_none : ∀ named : List (String × Term),
    declaredNamed named = [] → NamedClosed [] named →
      raiseNamed k named = named
  | [], _, _ => rfl
  | (name, t) :: rest, hnone, hclosed => by
      obtain ⟨ht, hrest⟩ := List.append_eq_nil_iff.mp hnone
      rw [raiseNamed, raise_of_none t ht hclosed.1,
        raiseNamed_of_none rest hrest hclosed.2]
termination_by structural named => named

end

theorem raise_inert {t : Term} (h : t.Inert) : t.raise k = t :=
  raise_of_none t h.1 (h.2 [])

/-! ## Shifted terms -/

/-- The numbers of variables below `2 ^ 53`. -/
def Small (x : Binary64) : Prop :=
  ∃ id < 2 ^ 53, x = .ofNat id

theorem small_ofNat {id : Nat} (h : Small (.ofNat id)) : id < 2 ^ 53 := by
  obtain ⟨small, hlt, heq⟩ := h
  rw [Binary64.ofNat_inj hlt heq]
  exact hlt

mutual

/-- Where nothing is referred to from outside and all numbers are small,
    the shifted term is the raised one. -/
theorem raise_shifted {first : Nat} {around : List Nat} {t t' : Term} :
    Term.Shifted first k (fun _ => False) around t t' →
      (∀ id ∈ around, id < 2 ^ 53) → (∀ x ∈ t.declared, Small x) →
        t' = t.raise k
  | .fixed h, _, _ => (raise_inert h).symm
  | .own hid, haround, _ =>
      (raise_reference (Nat.le_of_lt (haround _ hid))).symm
  | .outer h, _, _ => h.elim
  | @Term.Shifted.function _ _ _ _ ids body body' _ hbody, haround,
      hsmall => by
      replace hsmall : ∀ x ∈ (Term.function ids body).declared, Small x :=
        hsmall
      rw [declared_function] at hsmall
      obtain ⟨hids, hrest⟩ := List.forall_mem_append.mp hsmall
      have hlt : ∀ id ∈ ids, id < 2 ^ 53 :=
        fun id hid => small_ofNat (hids _ (List.mem_map_of_mem hid))
      show Term.function (ids.map (· + k)) body'
        = (Term.function ids body).raise k
      rw [raise_function fun id hid => Nat.le_of_lt (hlt id hid),
        raise_shifted hbody (List.forall_mem_append.mpr ⟨hlt, haround⟩)
          hrest]
  | .node hk hargs hnamed, haround, hsmall => by
      rw [declared_ordinary hk] at hsmall
      obtain ⟨hargs', hnamed'⟩ := List.forall_mem_append.mp hsmall
      rw [raise_ordinary hk, raiseArgs_shifted hargs haround hargs',
        raiseNamed_shifted hnamed haround hnamed']

theorem raiseArgs_shifted {first : Nat} {around : List Nat}
    {ts ts' : List Term} :
    ArgsShifted first k (fun _ => False) around ts ts' →
      (∀ id ∈ around, id < 2 ^ 53) → (∀ x ∈ declaredArgs ts, Small x) →
        ts' = raiseArgs k ts
  | .nil, _, _ => rfl
  | .cons ht hts, haround, hsmall => by
      obtain ⟨ht', hts'⟩ := List.forall_mem_append.mp hsmall
      rw [raiseArgs, raise_shifted ht haround ht',
        raiseArgs_shifted hts haround hts']

theorem raiseNamed_shifted {first : Nat} {around : List Nat}
    {es es' : List (String × Term)} :
    NamedShifted first k (fun _ => False) around es es' →
      (∀ id ∈ around, id < 2 ^ 53) → (∀ x ∈ declaredNamed es, Small x) →
        es' = raiseNamed k es
  | .nil, _, _ => rfl
  | .cons name ht hrest, haround, hsmall => by
      obtain ⟨ht', hrest'⟩ := List.forall_mem_append.mp hsmall
      rw [raiseNamed, raise_shifted ht haround ht',
        raiseNamed_shifted hrest haround hrest']

end

end ChainQuery
