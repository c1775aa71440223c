import ChainQuery.Generate
import ChainQuery.Proofs.Encoding
import ChainQuery.Proofs.Same

/-! # Fingerprints — equal terms and the signs of their zeros

    Terms are equal when their numbers are equal as numbers, and digested
    with the bits of their numbers.  The two part at zero, which has two
    encodings: equal terms have equal fingerprints only if their zeros
    have the same signs.  That is all that can set equal terms apart:

    * numerically equal doubles are the same bits or two zeros
      (`same_cases`), and a zero is known by its sign (`zero_eq`);
    * so the signs of the zeros of one of two equal terms, in reading
      order, determine it once the other is known (`term_settled`). -/

namespace ChainQuery

/-! ## Zeros -/

namespace Binary64

variable {x y : Binary64}

/-- The sign of a zero, and nothing of any other number. -/
def zeroSigns (x : Binary64) : List Bool :=
  if x.isZero then [x.isNegative] else []

/-- Numerically equal doubles have the same bits, or both are zero. -/
theorem same_cases (h : x.same y = true) :
    x = y ∨ (x.isZero = true ∧ y.isZero = true) := by
  simp only [same, Bool.and_eq_true, Bool.or_eq_true, beq_iff_eq] at h
  rcases h.2 with hbits | hzero
  · cases x
    cases y
    exact Or.inl (congrArg Binary64.mk hbits)
  · exact Or.inr hzero

/-- A zero is known by its sign. -/
theorem zero_eq (hx : x.isZero = true) (hy : y.isZero = true)
    (h : x.isNegative = y.isNegative) : x = y := by
  have hfields : ∀ {z : Binary64}, z.isZero = true →
      z.bits.toNat / 2 ^ 52 % 2 ^ 11 = 0 ∧ z.bits.toNat % 2 ^ 52 = 0 := by
    intro z hz
    simpa [isZero, exponentField, fractionField] using hz
  have hsign : 2 ^ 63 ≤ x.bits.toNat ↔ 2 ^ 63 ≤ y.bits.toNat :=
    decide_eq_decide.mp h
  have := hfields hx
  have := hfields hy
  have := x.bits.toNat_lt
  have := y.bits.toNat_lt
  have hbits : x.bits.toNat = y.bits.toNat := by omega
  cases x
  cases y
  exact congrArg Binary64.mk (UInt64.toNat_inj.mp hbits)

end Binary64

mutual

/-- The signs of the zeros in a datum, in reading order. -/
def Datum.zeroSigns : Datum → List Bool
  | .null => []
  | .bool _ => []
  | .number x => x.zeroSigns
  | .string _ => []
  | .array items => itemSigns items
  | .object entries => entrySigns entries
termination_by structural d => d

/-- The signs of the zeros in items. -/
def itemSigns : List Datum → List Bool
  | [] => []
  | d :: ds => Datum.zeroSigns d ++ itemSigns ds
termination_by structural ds => ds

/-- The signs of the zeros in entries. -/
def entrySigns : List (String × Datum) → List Bool
  | [] => []
  | (_, d) :: rest => Datum.zeroSigns d ++ entrySigns rest
termination_by structural es => es

end

mutual

/-- The signs of the zeros in a term, in reading order. -/
def Term.zeroSigns : Term → List Bool
  | .datum d => d.zeroSigns
  | .apply _ args optargs => argSigns args ++ namedSigns optargs
termination_by structural t => t

/-- The signs of the zeros in arguments. -/
def argSigns : List Term → List Bool
  | [] => []
  | t :: ts => Term.zeroSigns t ++ argSigns ts
termination_by structural ts => ts

/-- The signs of the zeros in named arguments. -/
def namedSigns : List (String × Term) → List Bool
  | [] => []
  | (_, t) :: rest => Term.zeroSigns t ++ namedSigns rest
termination_by structural es => es

end

/-! ## What signs settle -/

/-- There are as many signs on both sides, and where they are the same,
    `p` holds. -/
def Settled (zs ws : List Bool) (p : Prop) : Prop :=
  zs.length = ws.length ∧ (zs = ws → p)

variable {zs ws zs' ws' : List Bool} {p q r : Prop}

theorem settled_of (hp : p) : Settled zs zs p :=
  ⟨rfl, fun _ => hp⟩

theorem settled_imp (h : Settled zs ws p) (hpq : p → q) :
    Settled zs ws q :=
  ⟨h.1, fun heq => hpq (h.2 heq)⟩

/-- Signs in sequence settle both parts, since each part has its own. -/
theorem settled_append (h : Settled zs ws p) (h' : Settled zs' ws' q)
    (hr : p → q → r) : Settled (zs ++ zs') (ws ++ ws') r := by
  refine ⟨by rw [List.length_append, List.length_append, h.1, h'.1], ?_⟩
  intro heq
  obtain ⟨hfirst, hsecond⟩ := List.append_inj heq h.1
  exact hr (h.2 hfirst) (h'.2 hsecond)

/-- Equal numbers are the same when they have the same sign as zeros. -/
theorem number_settled {x y : Binary64} (h : x.same y = true) :
    Settled x.zeroSigns y.zeroSigns (x = y) := by
  rcases Binary64.same_cases h with rfl | ⟨hx, hy⟩
  · exact settled_of rfl
  · rw [Binary64.zeroSigns, Binary64.zeroSigns, if_pos hx, if_pos hy]
    refine ⟨rfl, fun hsign => ?_⟩
    exact Binary64.zero_eq hx hy (List.cons.inj hsign).1

mutual

/-- Equal datums are the same when their zeros have the same signs. -/
theorem datum_settled : ∀ d e : Datum, d.same e = true →
    Settled d.zeroSigns e.zeroSigns (d = e)
  | .null, e, h => by
      cases e with
      | null => exact settled_of rfl
      | _ => cases h
  | .bool b, e, h => by
      cases e with
      | bool b' =>
          have hbool : b = b' := beq_iff_eq.mp h
          exact settled_of (congrArg Datum.bool hbool)
      | _ => cases h
  | .number x, e, h => by
      cases e with
      | number y => exact settled_imp (number_settled h) (congrArg _)
      | _ => cases h
  | .string s, e, h => by
      cases e with
      | string s' =>
          have hstring : s = s' := beq_iff_eq.mp h
          exact settled_of (congrArg Datum.string hstring)
      | _ => cases h
  | .array items, e, h => by
      cases e with
      | array items' =>
          exact settled_imp (items_settled items items' h) (congrArg _)
      | _ => cases h
  | .object entries, e, h => by
      cases e with
      | object entries' =>
          exact settled_imp (entries_settled entries entries' h)
            (congrArg _)
      | _ => cases h
termination_by structural d => d

theorem items_settled : ∀ ds es : List Datum,
    Datum.sameItems ds es = true →
      Settled (itemSigns ds) (itemSigns es) (ds = es)
  | [], [], _ => settled_of rfl
  | [], _ :: _, h => by cases h
  | _ :: _, [], h => by cases h
  | d :: ds, e :: es, h => by
      rw [Datum.sameItems, Bool.and_eq_true] at h
      refine settled_append (datum_settled d e h.1)
        (items_settled ds es h.2) ?_
      intro hitem hitems
      rw [hitem, hitems]
termination_by structural ds => ds

theorem entries_settled : ∀ ms ns : List (String × Datum),
    Datum.sameEntries ms ns = true →
      Settled (entrySigns ms) (entrySigns ns) (ms = ns)
  | [], [], _ => settled_of rfl
  | [], _ :: _, h => by cases h
  | _ :: _, [], h => by cases h
  | (key, d) :: ms, (key', e) :: ns, h => by
      rw [Datum.sameEntries, Bool.and_eq_true, Bool.and_eq_true,
        beq_iff_eq] at h
      refine settled_append (datum_settled d e h.1.2)
        (entries_settled ms ns h.2) ?_
      intro hitem hitems
      rw [h.1.1, hitem, hitems]
termination_by structural ms => ms

end

mutual

/-- Equal terms are the same when their zeros have the same signs. -/
theorem term_settled : ∀ t u : Term, t.same u = true →
    Settled t.zeroSigns u.zeroSigns (t = u)
  | .datum d, u, h => by
      cases u with
      | datum e => exact settled_imp (datum_settled d e h) (congrArg _)
      | apply _ _ _ => cases h
  | .apply kind args optargs, u, h => by
      cases u with
      | datum _ => cases h
      | apply kind' args' optargs' =>
          rw [Term.same, Bool.and_eq_true, Bool.and_eq_true,
            beq_iff_eq] at h
          refine settled_append (args_settled args args' h.1.2)
            (named_settled optargs optargs' h.2) ?_
          intro hargs hnamed
          rw [h.1.1, hargs, hnamed]
termination_by structural t => t

theorem args_settled : ∀ ts us : List Term,
    Term.sameArgs ts us = true →
      Settled (argSigns ts) (argSigns us) (ts = us)
  | [], [], _ => settled_of rfl
  | [], _ :: _, h => by cases h
  | _ :: _, [], h => by cases h
  | t :: ts, u :: us, h => by
      rw [Term.sameArgs, Bool.and_eq_true] at h
      refine settled_append (term_settled t u h.1)
        (args_settled ts us h.2) ?_
      intro harg hargs
      rw [harg, hargs]
termination_by structural ts => ts

theorem named_settled : ∀ es fs : List (String × Term),
    Term.sameOptargs es fs = true →
      Settled (namedSigns es) (namedSigns fs) (es = fs)
  | [], [], _ => settled_of rfl
  | [], _ :: _, h => by cases h
  | _ :: _, [], h => by cases h
  | (name, t) :: es, (name', u) :: fs, h => by
      rw [Term.sameOptargs, Bool.and_eq_true, Bool.and_eq_true,
        beq_iff_eq] at h
      refine settled_append (term_settled t u h.1.2)
        (named_settled es fs h.2) ?_
      intro harg hargs
      rw [h.1.1, harg, hargs]
termination_by structural es => es

end

/-! ## Fingerprints of equal terms -/

/-- **Equal terms have equal fingerprints up to the signs of zeros.**
    Equal terms whose zeros have the same signs have one fingerprint.
    Where they differ in a sign, different bytes are digested. -/
theorem fingerprint_of_same (t u : Term) (h : t.same u = true) :
    (t.zeroSigns = u.zeroSigns → t.fingerprint = u.fingerprint) ∧
    (t.Small → u.Small →
      (Canonical.term t = Canonical.term u ↔
        t.zeroSigns = u.zeroSigns)) := by
  have hsettled := (term_settled t u h).2
  refine ⟨fun hsigns => congrArg Term.fingerprint (hsettled hsigns), ?_⟩
  intro ht hu
  rw [Canonical.encode_eq_iff (Canonical.term_delimits t ht) hu]
  exact ⟨congrArg Term.zeroSigns, hsettled⟩

/-- The negative zero. -/
def negativeZero : Binary64 := ⟨0x8000000000000000⟩

/-- Numbers in an object and an array. -/
def readings (x y : Binary64) : Term :=
  .datum (.object [("at", .number x), ("level", .array [.number y])])

theorem fingerprint_of_same_readings :
    (readings ⟨0⟩ negativeZero).same
        (readings negativeZero negativeZero) = true ∧
      (readings ⟨0⟩ negativeZero).Small ∧
      (readings negativeZero negativeZero).Small ∧
      Canonical.term (readings ⟨0⟩ negativeZero) ≠
        Canonical.term (readings negativeZero negativeZero) := by
  have hsame : (readings ⟨0⟩ negativeZero).same
      (readings negativeZero negativeZero) = true := by decide
  have hsmall : ∀ x y, (readings x y).Small := by
    intro x y
    simp only [readings, Term.Small, Datum.Small, SmallEntries, SmallItems,
      List.length_cons, List.length_nil]
    decide
  refine ⟨hsame, hsmall _ _, hsmall _ _, fun heq => ?_⟩
  have hsigns := ((fingerprint_of_same _ _ hsame).2 (hsmall _ _)
    (hsmall _ _)).mp heq
  exact absurd hsigns (by decide)

/-- Two chains, each the literal zero, that are equal as values and have
    equal terms with different fingerprints. -/
theorem equal_terms_fingerprints_differ :
    ∃ v w : Value, v.same w = true ∧ ∃ t u : Term,
      ((Query.root (.literal v)).generate (.standard .strict)).result
          = .ok t ∧
      ((Query.root (.literal w)).generate (.standard .strict)).result
          = .ok u ∧
      t.same u = true ∧ t.fingerprint ≠ u.fingerprint := by
  refine ⟨.float ⟨0⟩, .float negativeZero, by decide,
    .datum (.number ⟨0⟩), .datum (.number negativeZero), rfl, rfl,
    by decide, ?_⟩
  decide +kernel

end ChainQuery
