import Mathlib.Algebra.Group.Nat.Defs
import ChainQuery.Binary64

/-! # Exact numbers — naturals up to `2 ^ 53` as doubles

    Rounding leaves a natural number of at most fifty-three bits as it is.
    A double of a full significand has the value of its two parts
    (`units_pack`); a small natural is scaled up to a full significand
    without loss (`ofNat_eq_pack`), so its double measures exactly `n`
    times `2 ^ 1074` units (`units_ofNat`) and no two of them are
    numerically equal (`ofNat_same`).  Negating a double flips its sign
    and nothing else, which carries this over to integers (`ofInt_is`).

    Conversely the value of a finite number determines its encoding, but
    for the sign of zero: a larger exponent makes a larger number whatever
    the fractions are (`magnitude_lt`), so finite numbers are equal exactly
    when they have one value (`same_iff`). -/

namespace ChainQuery.Binary64

/-! ## Full significands -/

/-- The encoding of any significand. -/
theorem bits_pack (dropped kept : Nat) :
    (pack dropped kept).bits.toNat
      = min (dropped * 2 ^ 52 + kept) (2047 * 2 ^ 52) := by
  show (UInt64.ofNat
    (min (dropped * 2 ^ 52 + kept) (2047 * 2 ^ 52))).toNat = _
  have hle := Nat.min_le_right (dropped * 2 ^ 52 + kept) (2047 * 2 ^ 52)
  rw [UInt64.toNat_ofNat']
  exact Nat.mod_eq_of_lt (by omega)

/-- The encoding of a full significand below the range of infinity. -/
theorem toNat_pack {dropped kept : Nat} (hd : dropped ≤ 2044)
    (hk : kept < 2 ^ 53) :
    (pack dropped kept).bits.toNat = dropped * 2 ^ 52 + kept := by
  have hle : dropped * 2 ^ 52 + kept ≤ 2047 * 2 ^ 52 := by omega
  rw [bits_pack, Nat.min_eq_left hle]

/-- The value of a full significand. -/
theorem units_pack {dropped kept : Nat} (hd : dropped ≤ 2044)
    (lower : 2 ^ 52 ≤ kept) (upper : kept < 2 ^ 53) :
    (pack dropped kept).units = (kept * 2 ^ dropped : Nat) := by
  have hbits := toNat_pack hd upper
  have hexp : (pack dropped kept).exponentField = dropped + 1 := by
    show (pack dropped kept).bits.toNat / 2 ^ 52 % 2 ^ 11 = _
    rw [hbits]
    omega
  have hfrac : (pack dropped kept).fractionField = kept - 2 ^ 52 := by
    show (pack dropped kept).bits.toNat % 2 ^ 52 = _
    rw [hbits]
    omega
  have hsign : (pack dropped kept).isNegative = false := by
    show decide (2 ^ 63 ≤ (pack dropped kept).bits.toNat) = false
    rw [hbits, decide_eq_false_iff_not]
    omega
  have hsig : (pack dropped kept).significand = kept := by
    rw [significand, hexp, hfrac, if_neg (Nat.succ_ne_zero dropped),
      Nat.pow_eq]
    omega
  rw [units, magnitude, shift, hsign, hsig, hexp]
  rfl

/-! ## Naturals -/

/-- Scaled up, a natural has fifty-three bits. -/
theorem scaled_lt {n : Nat} (hlog : n.log2 ≤ 52) :
    n * 2 ^ (52 - n.log2) < 2 ^ 53 := by
  calc n * 2 ^ (52 - n.log2)
      < 2 ^ (n.log2 + 1) * 2 ^ (52 - n.log2) :=
        Nat.mul_lt_mul_of_pos_right Nat.lt_log2_self (Nat.two_pow_pos _)
    _ = 2 ^ 53 := by
        rw [← Nat.pow_add]
        congr 1
        omega

/-- The double of a natural is a full significand, whatever its size up to
    fifty-three bits; only the largest has to be halved. -/
theorem ofNat_eq_pack {n : Nat} (hzero : n ≠ 0) (h : n ≤ 2 ^ 53) :
    ∃ dropped kept, ofNat n = pack dropped kept ∧ dropped ≤ 2044 ∧
      2 ^ 52 ≤ kept ∧ kept < 2 ^ 53 ∧
      kept * 2 ^ dropped = n * 2 ^ 1074 := by
  by_cases htop : n = 2 ^ 53
  · -- The significand has one bit too many, and the last one is zero.
    subst htop
    have hdouble : ∀ k, 2 ^ 52 * 2 ^ (k + 1) = 2 ^ 53 * 2 ^ k := by
      intro k
      rw [Nat.pow_succ 2 k]
      omega
    exact ⟨1074 + 1, 2 ^ 52, rfl, by omega, by omega, by omega,
      hdouble 1074⟩
  have hlog : n.log2 ≤ 52 := by
    have := (Nat.log2_lt hzero (k := 53)).mpr (by omega)
    omega
  refine ⟨1022 + n.log2, n * 2 ^ (52 - n.log2), ?_, by omega, ?_, ?_, ?_⟩
  · simp only [ofNat, if_neg hzero, if_pos hlog]
    rfl
  · calc 2 ^ 52 = 2 ^ n.log2 * 2 ^ (52 - n.log2) := by
          rw [← Nat.pow_add, Nat.add_sub_cancel' hlog]
      _ ≤ n * 2 ^ (52 - n.log2) :=
          Nat.mul_le_mul_right _ (Nat.log2_self_le hzero)
  · exact scaled_lt hlog
  · rw [Nat.mul_assoc, ← Nat.pow_add]
    congr 2
    omega

/-- A natural of at most fifty-three bits is its own double. -/
theorem units_ofNat {n : Nat} (h : n ≤ 2 ^ 53) :
    (ofNat n).units = (n * 2 ^ 1074 : Nat) := by
  by_cases hzero : n = 0
  · subst hzero
    generalize 2 ^ 1074 = k
    rw [Nat.zero_mul]
    rfl
  obtain ⟨dropped, kept, heq, hd, lower, upper, hvalue⟩ :=
    ofNat_eq_pack hzero h
  rw [heq, units_pack hd lower upper, hvalue]

/-! ## Numeric equality -/

theorem same_comm (x y : Binary64) : x.same y = y.same x := by
  rw [same, same, Bool.beq_comm (a := x.bits), Bool.and_comm x.isZero,
    Bool.and_comm (!x.isNaN)]

theorem units_of_isZero {x : Binary64} (h : x.isZero = true) :
    x.units = 0 := by
  simp only [isZero, Bool.and_eq_true, beq_iff_eq] at h
  obtain ⟨hexp, hfrac⟩ := h
  have hmag : x.magnitude = 0 := by
    rw [magnitude, significand, if_pos hexp, hfrac, Nat.zero_mul]
  rw [units, hmag]
  exact ite_self 0

/-- Numerically equal doubles have one value. -/
theorem units_eq_of_same {x y : Binary64} (h : x.same y = true) :
    x.units = y.units := by
  simp only [same, Bool.and_eq_true, Bool.or_eq_true, beq_iff_eq] at h
  rcases h.2 with hbits | ⟨hx, hy⟩
  · cases x
    cases y
    cases hbits
    rfl
  · rw [units_of_isZero hx, units_of_isZero hy]

theorem isNaN_of_isFinite {x : Binary64} (h : x.isFinite = true) :
    x.isNaN = false := by
  rw [isFinite, bne_iff_ne] at h
  rw [isNaN, beq_eq_false_iff_ne.mpr h, Bool.false_and]

/-- What is too large becomes infinite, so rounding never leaves the
    numbers. -/
theorem isNaN_pack (dropped kept : Nat) :
    (pack dropped kept).isNaN = false := by
  have hle := Nat.min_le_right (dropped * 2 ^ 52 + kept) (2047 * 2 ^ 52)
  have hfrac : (pack dropped kept).exponentField = 2047 →
      (pack dropped kept).fractionField = 0 := by
    show (pack dropped kept).bits.toNat / 2 ^ 52 % 2 ^ 11 = 2047 →
      (pack dropped kept).bits.toNat % 2 ^ 52 = 0
    rw [bits_pack]
    omega
  rw [isNaN]
  by_cases hexp : (pack dropped kept).exponentField = 2047
  · rw [hfrac hexp, bne_self_eq_false, Bool.and_false]
  · rw [beq_eq_false_iff_ne.mpr hexp, Bool.false_and]

/-- The double of a natural is a number. -/
theorem isNaN_ofNat (n : Nat) : (ofNat n).isNaN = false := by
  rw [ofNat]
  by_cases hzero : n = 0
  · rw [if_pos hzero]
    rfl
  · rw [if_neg hzero]
    exact isNaN_pack _ _

/-- The double of a natural equals itself. -/
theorem same_ofNat (n : Nat) : (ofNat n).same (ofNat n) = true := by
  rw [same, isNaN_ofNat, beq_self_eq_true]
  rfl

/-- Doubles of different small naturals are different numbers. -/
theorem ofNat_same {m n : Nat} (hm : m ≤ 2 ^ 53) (hn : n ≤ 2 ^ 53)
    (h : (ofNat m).same (ofNat n) = true) : m = n := by
  have hunits := units_eq_of_same h
  rw [units_ofNat hm, units_ofNat hn] at hunits
  have hpos : ∀ k, 0 < 2 ^ k := Nat.two_pow_pos
  -- Left in place, the power would be computed to compare two factors.
  generalize hk : 2 ^ 1074 = k at hunits
  exact Nat.eq_of_mul_eq_mul_right (hk ▸ hpos 1074)
    (Int.ofNat_inj.mp hunits)

/-! ## Back to naturals -/

/-- How many units the number one measures. -/
def unitsOfOne : Nat :=
  2 ^ 1074

/-- The natural number a double stands for, fractions left out. -/
def natural (x : Binary64) : Nat :=
  x.units.toNat / unitsOfOne

/-- A small natural is found again. -/
theorem natural_ofNat {n : Nat} (h : n ≤ 2 ^ 53) :
    (ofNat n).natural = n := by
  have hunits : (ofNat n).units = (n * unitsOfOne : Nat) := units_ofNat h
  have hpos : ∀ k, 0 < 2 ^ k := Nat.two_pow_pos
  rw [natural, hunits, Int.toNat_natCast]
  exact Nat.mul_div_cancel n (hpos _)

/-- The encodings of naturals below `2 ^ 53`. -/
theorem bits_ofNat_lt {n : Nat} (h : n < 2 ^ 53) :
    (ofNat n).bits.toNat < 1076 * 2 ^ 52 := by
  rw [ofNat]
  by_cases hzero : n = 0
  · rw [if_pos hzero]
    decide
  have hlog : n.log2 ≤ 52 := by
    have := (Nat.log2_lt hzero (k := 53)).mpr h
    omega
  have hkept := scaled_lt hlog
  rw [if_neg hzero]
  simp only [if_pos hlog, bits_pack]
  rw [Nat.pow_eq]
  omega

/-- The encodings of naturals from `2 ^ 53` on. -/
theorem le_bits_ofNat {n : Nat} (h : 2 ^ 53 ≤ n) :
    1076 * 2 ^ 52 ≤ (ofNat n).bits.toNat := by
  have hzero : n ≠ 0 := by omega
  have hlog : 53 ≤ n.log2 := (Nat.le_log2 hzero).mpr h
  have hkept : 2 ^ 52 ≤ divideToEven n (2 ^ (n.log2 - 52)) := by
    have hquotient : 2 ^ 52 ≤ n / 2 ^ (n.log2 - 52) := by
      rw [Nat.le_div_iff_mul_le (Nat.two_pow_pos _), ← Nat.pow_add,
        Nat.add_sub_cancel' (by omega)]
      exact Nat.log2_self_le hzero
    rw [divideToEven]
    split <;> omega
  rw [ofNat, if_neg hzero]
  simp only [if_neg (Nat.not_le.mpr hlog), bits_pack, Nat.pow_eq]
  omega

/-- What has the double of a natural below `2 ^ 53` is that natural. -/
theorem ofNat_inj {m n : Nat} (hn : n < 2 ^ 53) (h : ofNat m = ofNat n) :
    m = n := by
  have hm : m < 2 ^ 53 := by
    refine Nat.lt_of_not_le fun hm => ?_
    have hle := le_bits_ofNat hm
    have hlt := bits_ofNat_lt hn
    rw [h] at hle
    omega
  refine ofNat_same (Nat.le_of_lt hm) (Nat.le_of_lt hn) ?_
  rw [h]
  exact same_ofNat n

/-! ## Integers -/

/-- Flipping the highest bit of a word that has it clear adds it. -/
theorem xor_top {n : Nat} (h : n < 2 ^ 63) : n ^^^ 2 ^ 63 = 2 ^ 63 + n := by
  refine Nat.eq_of_testBit_eq fun j => ?_
  rw [Nat.testBit_xor]
  rcases Nat.lt_trichotomy j 63 with hj | rfl | hj
  · rw [Nat.testBit_two_pow_add_gt hj, Nat.testBit_two_pow_of_ne
      (Nat.ne_of_gt hj), Bool.xor_false]
  · rw [Nat.testBit_two_pow_add_eq, Nat.testBit_two_pow_self,
      Bool.xor_true]
  · have hpow : 2 ^ 64 ≤ 2 ^ j := Nat.pow_le_pow_right (by decide) hj
    rw [Nat.testBit_lt_two_pow (x := n) (by omega),
      Nat.testBit_two_pow_of_ne (Nat.ne_of_lt hj),
      Nat.testBit_lt_two_pow (x := 2 ^ 63 + n) (by omega)]
    rfl

/-- Negating a number that is not negative sets its sign bit. -/
theorem bits_negate {x : Binary64} (h : x.bits.toNat < 2 ^ 63) :
    x.negate.bits.toNat = 2 ^ 63 + x.bits.toNat :=
  (UInt64.toNat_xor _ _).trans (xor_top h)

/-- The other fields stay as they are. -/
theorem fields_negate {x : Binary64} (h : x.bits.toNat < 2 ^ 63) :
    x.negate.exponentField = x.exponentField ∧
      x.negate.fractionField = x.fractionField := by
  show x.negate.bits.toNat / 2 ^ 52 % 2 ^ 11 = x.bits.toNat / 2 ^ 52 % 2 ^ 11
    ∧ x.negate.bits.toNat % 2 ^ 52 = x.bits.toNat % 2 ^ 52
  rw [bits_negate h]
  omega

theorem isFinite_negate {x : Binary64} (h : x.bits.toNat < 2 ^ 63) :
    x.negate.isFinite = x.isFinite := by
  rw [isFinite, isFinite, (fields_negate h).1]

/-- A number that is negated has its value negated. -/
theorem units_negate {x : Binary64} (h : x.bits.toNat < 2 ^ 63) :
    x.negate.units = -x.units := by
  obtain ⟨hexp, hfrac⟩ := fields_negate h
  have hmag : x.negate.magnitude = x.magnitude := by
    rw [magnitude, magnitude, significand, significand, shift, shift, hexp,
      hfrac]
  have hpos : x.isNegative = false := decide_eq_false (Nat.not_le.mpr h)
  have hneg : x.negate.isNegative = true := by
    refine decide_eq_true ?_
    rw [bits_negate h]
    exact Nat.le_add_right _ _
  rw [units, units, hmag, hpos, hneg]
  rfl

/-- The encoding of a natural has no sign. -/
theorem bits_ofNat_lt_top (n : Nat) : (ofNat n).bits.toNat < 2 ^ 63 := by
  rw [ofNat]
  by_cases hzero : n = 0
  · rw [if_pos hzero]
    decide
  · rw [if_neg hzero]
    dsimp only
    rw [bits_pack]
    omega

/-- A natural of at most fifty-three bits is a finite number. -/
theorem isFinite_ofNat {n : Nat} (h : n ≤ 2 ^ 53) :
    (ofNat n).isFinite = true := by
  by_cases hzero : n = 0
  · subst hzero
    decide
  obtain ⟨dropped, kept, heq, hd, -, hk, -⟩ := ofNat_eq_pack hzero h
  refine bne_iff_ne.mpr ?_
  show (ofNat n).bits.toNat / 2 ^ 52 % 2 ^ 11 ≠ 2047
  rw [heq, toNat_pack hd hk]
  omega

/-- A finite number of this value. -/
def Is (x : Binary64) (i : Int) : Prop :=
  x.isFinite = true ∧ x.units = i * unitsOfOne

/-- A natural of at most fifty-three bits is its own double. -/
theorem ofNat_is {n : Nat} (h : n ≤ 2 ^ 53) : (ofNat n).Is n :=
  ⟨isFinite_ofNat h, (units_ofNat h).trans (Int.natCast_mul _ _)⟩

/-- An integer of at most fifty-three bits is its own double. -/
theorem ofInt_is {i : Int} (h : i.natAbs ≤ 2 ^ 53) : (ofInt i).Is i := by
  obtain ⟨hfinite, hunits⟩ := ofNat_is h
  have htop := bits_ofNat_lt_top i.natAbs
  rw [ofInt]
  by_cases hi : i < 0
  · rw [if_pos hi]
    refine ⟨(isFinite_negate htop).trans hfinite, ?_⟩
    rw [units_negate htop, hunits,
      Int.ofNat_natAbs_of_nonpos (Int.le_of_lt hi), Int.neg_mul,
      Int.neg_neg]
  · rw [if_neg hi]
    refine ⟨hfinite, ?_⟩
    rw [hunits, Int.natAbs_of_nonneg (Int.not_lt.mp hi)]

/-! ## From values back to encodings -/

variable {x y : Binary64}

theorem fractionField_lt (x : Binary64) : x.fractionField < 2 ^ 52 :=
  Nat.mod_lt _ (Nat.two_pow_pos 52)

theorem significand_lt (x : Binary64) : x.significand < 2 ^ 53 := by
  have hfrac := fractionField_lt x
  rw [significand, Nat.pow_eq]
  split <;> omega

/-- Only in the smallest binade is the leading one missing. -/
theorem le_significand (h : x.exponentField ≠ 0) :
    2 ^ 52 ≤ x.significand := by
  rw [significand, if_neg h, Nat.pow_eq]
  exact Nat.le_add_right _ _

/-- An encoding is its three fields. -/
theorem bits_eq (x : Binary64) :
    x.bits.toNat = (if x.isNegative then 2 ^ 63 else 0)
      + (x.exponentField * 2 ^ 52 + x.fractionField) := by
  have hlt := x.bits.toNat_lt
  simp only [isNegative, exponentField, fractionField, Nat.pow_eq,
    decide_eq_true_eq]
  split <;> omega

/-- A number of a larger exponent is larger, whatever the fractions. -/
theorem magnitude_lt (h : x.exponentField < y.exponentField) :
    x.magnitude < y.magnitude := by
  have hy := le_significand (x := y) (Nat.ne_of_gt (Nat.zero_lt_of_lt h))
  rw [magnitude, magnitude, Nat.pow_eq, Nat.pow_eq]
  by_cases hx : x.exponentField = 0
  · -- Both may be shifted by nothing, but only one has its leading one.
    have hsmall : x.significand < 2 ^ 52 := by
      rw [significand, if_pos hx]
      exact fractionField_lt x
    calc x.significand * 2 ^ x.shift
        = x.significand := by rw [shift, hx]; exact Nat.mul_one _
      _ < y.significand := Nat.lt_of_lt_of_le hsmall hy
      _ ≤ y.significand * 2 ^ y.shift :=
          Nat.le_mul_of_pos_right _ (Nat.two_pow_pos _)
  · have hshift : x.shift + 1 ≤ y.shift := by
      rw [shift, shift]
      omega
    calc x.significand * 2 ^ x.shift
        < 2 ^ 53 * 2 ^ x.shift :=
          Nat.mul_lt_mul_of_pos_right (significand_lt x) (Nat.two_pow_pos _)
      _ = 2 ^ 52 * 2 ^ (x.shift + 1) := by
          rw [← Nat.pow_add, ← Nat.pow_add]
          congr 1
          omega
      _ ≤ y.significand * 2 ^ y.shift :=
          Nat.mul_le_mul hy (Nat.pow_le_pow_right (by decide) hshift)

/-- The size of a number determines its encoding, but for the sign. -/
theorem fields_of_magnitude (h : x.magnitude = y.magnitude) :
    x.exponentField = y.exponentField ∧
      x.fractionField = y.fractionField := by
  have hexp : x.exponentField = y.exponentField := by
    rcases Nat.lt_trichotomy x.exponentField y.exponentField
      with hlt | heq | hlt
    · exact absurd h (Nat.ne_of_lt (magnitude_lt hlt))
    · exact heq
    · exact absurd h.symm (Nat.ne_of_lt (magnitude_lt hlt))
  refine ⟨hexp, ?_⟩
  have hsig : x.significand = y.significand := by
    rw [magnitude, magnitude, shift, shift, hexp] at h
    exact Nat.eq_of_mul_eq_mul_right (Nat.two_pow_pos _) h
  rw [significand, significand, hexp] at hsig
  split at hsig <;> omega

/-- Only the zeros measure nothing. -/
theorem isZero_of_magnitude (h : x.magnitude = 0) : x.isZero = true := by
  have hzero : x.magnitude = (⟨0⟩ : Binary64).magnitude := h
  obtain ⟨hexp, hfrac⟩ := fields_of_magnitude hzero
  rw [isZero, hexp, hfrac]
  rfl

/-- Numbers of one value have one encoding, or are both zero. -/
theorem bits_of_units (h : x.units = y.units) :
    x.bits = y.bits ∨ (x.isZero = true ∧ y.isZero = true) := by
  have hmag : x.magnitude = y.magnitude := by
    rw [units, units] at h
    split at h <;> split at h <;> omega
  by_cases hzero : x.magnitude = 0
  · exact Or.inr ⟨isZero_of_magnitude hzero,
      isZero_of_magnitude (hmag.symm.trans hzero)⟩
  · obtain ⟨hexp, hfrac⟩ := fields_of_magnitude hmag
    have hsign : x.isNegative = y.isNegative := by
      rw [units, units] at h
      cases hx : x.isNegative <;> cases hy : y.isNegative <;>
        simp only [hx, hy] at h ⊢ <;> simp at h <;> omega
    left
    apply UInt64.toNat_inj.mp
    rw [bits_eq, bits_eq, hsign, hexp, hfrac]

/-- Finite numbers are equal exactly when their values are. -/
theorem same_iff (hx : x.isFinite = true) (hy : y.isFinite = true) :
    x.same y = true ↔ x.units = y.units := by
  constructor
  · exact units_eq_of_same
  · intro h
    rw [same, isNaN_of_isFinite hx, isNaN_of_isFinite hy]
    simpa using bits_of_units h

end ChainQuery.Binary64
