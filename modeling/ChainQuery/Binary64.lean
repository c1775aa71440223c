/-! # Double-precision numbers as bits

    A number is the sixty-four bits of its binary64 encoding, so that two
    encodings of one number stay apart where that can be seen (`0` and
    `-0` have different fingerprints).  Its value is measured in units of
    `2 ^ (-1074)`, the smallest positive number: every finite number is a
    whole count of them, which makes "denotes the same number" an equation
    between integers and rounding a single division.  Powers are written
    with `Nat.pow`, which is one function with and without the algebraic
    hierarchy. -/

namespace ChainQuery

/-- A binary64 number, given by its encoding. -/
structure Binary64 where
  bits : UInt64
  deriving DecidableEq, Repr, Inhabited

namespace Binary64

/-! ## The fields of an encoding -/

/-- The eleven exponent bits. -/
def exponentField (x : Binary64) : Nat :=
  x.bits.toNat / Nat.pow 2 52 % Nat.pow 2 11

/-- The fifty-two fraction bits. -/
def fractionField (x : Binary64) : Nat :=
  x.bits.toNat % Nat.pow 2 52

/-- The sign bit. -/
def isNegative (x : Binary64) : Bool :=
  Nat.pow 2 63 ≤ x.bits.toNat

/-- The largest exponent field is kept for infinities and NaN. -/
def isFinite (x : Binary64) : Bool :=
  x.exponentField != 2047

/-- Not a number: the largest exponent with a nonzero fraction. -/
def isNaN (x : Binary64) : Bool :=
  x.exponentField == 2047 && x.fractionField != 0

/-- Either of the two zeros. -/
def isZero (x : Binary64) : Bool :=
  x.exponentField == 0 && x.fractionField == 0

/-! ## Value -/

/-- The whole significand: the leading one is implicit except in the
    smallest binade. -/
def significand (x : Binary64) : Nat :=
  if x.exponentField = 0 then x.fractionField
  else Nat.pow 2 52 + x.fractionField

/-- Places the significand is shifted above the smallest unit. -/
def shift (x : Binary64) : Nat :=
  x.exponentField - 1

/-- Absolute value of a finite number, in units of `2 ^ (-1074)`. -/
def magnitude (x : Binary64) : Nat :=
  x.significand * Nat.pow 2 x.shift

/-- Value of a finite number, in units of `2 ^ (-1074)`. -/
def units (x : Binary64) : Int :=
  if x.isNegative then -(x.magnitude : Int) else x.magnitude

/-- Numeric equality: a NaN differs from everything, itself included, and
    the two zeros are equal. -/
def same (x y : Binary64) : Bool :=
  !x.isNaN && !y.isNaN && (x.bits == y.bits || (x.isZero && y.isZero))

/-! ## Rounding to the nearest number -/

/-- The quotient of `a` by `b` rounded to the nearest integer, a half to
    the even one. -/
def divideToEven (a b : Nat) : Nat :=
  let quotient := a / b
  let twice := 2 * (a % b)
  if b < twice ∨ (b = twice ∧ quotient % 2 = 1) then quotient + 1
  else quotient

/-- The encoding of positive infinity. -/
def infinityBits : Nat := 2047 * Nat.pow 2 52

/-- The number of significand `kept`, shifted `dropped` places above the
    smallest unit, or infinity when that is out of range.  A significand
    of `2 ^ 52` or more carries its leading one into the exponent field,
    and one that was rounded up to `2 ^ 53` reaches the next binade. -/
def pack (dropped kept : Nat) : Binary64 :=
  ⟨UInt64.ofNat (min (dropped * Nat.pow 2 52 + kept) infinityBits)⟩

/-- The number nearest to a natural number, a half to the even
    significand. -/
def ofNat (n : Nat) : Binary64 :=
  if n = 0 then ⟨0⟩
  else
    let top := n.log2
    pack (1022 + top)
      (if top ≤ 52 then n * Nat.pow 2 (52 - top)
       else divideToEven n (Nat.pow 2 (top - 52)))

/-- The number nearest to `num / den`, a half to the even significand. -/
def ofRatio (num den : Nat) : Binary64 :=
  let scaled := num * Nat.pow 2 1074
  let dropped := (scaled / den).log2 - 52
  pack dropped (divideToEven scaled (den * Nat.pow 2 dropped))

/-- The number nearest to `coefficient * 10 ^ exponent`, a half to the
    even significand.  From `1e309` on every positive decimal is nearest to
    infinity, and one below a quarter of the smallest unit is nearest to
    zero, so that no power of ten is formed that is not needed. -/
def ofDecimal (coefficient : Nat) (exponent : Int) : Binary64 :=
  if coefficient = 0 then ⟨0⟩
  else if 309 ≤ exponent then ⟨UInt64.ofNat infinityBits⟩
  else if 0 ≤ exponent then
    ofRatio (coefficient * Nat.pow 10 exponent.toNat) 1
  else if (coefficient.log2 + 1076 : Nat) < 3 * -exponent then ⟨0⟩
  else ofRatio coefficient (Nat.pow 10 (-exponent).toNat)

/-- The same magnitude with the sign bit flipped. -/
def negate (x : Binary64) : Binary64 :=
  ⟨x.bits ^^^ 0x8000000000000000⟩

/-- The number nearest to an integer; zero is positive. -/
def ofInt (i : Int) : Binary64 :=
  if i < 0 then negate (ofNat i.natAbs) else ofNat i.natAbs

/-- The number a single-precision encoding stands for.  Every
    single-precision number is a double-precision one, so nothing is
    rounded; a NaN keeps its payload. -/
def ofSingle (single : UInt32) : Binary64 :=
  let n := single.toNat
  let exponent := n / Nat.pow 2 23 % Nat.pow 2 8
  let fraction := n % Nat.pow 2 23
  let positive : Binary64 :=
    if exponent = 255 then
      ⟨UInt64.ofNat (infinityBits + fraction * Nat.pow 2 29)⟩
    else if exponent = 0 then ofRatio fraction (Nat.pow 2 149)
    else
      ofRatio ((Nat.pow 2 23 + fraction) * Nat.pow 2 (exponent - 1))
        (Nat.pow 2 149)
  if Nat.pow 2 31 ≤ n then negate positive else positive

/-! ## Numbers that are not finite, in words -/

/-- How a number that is not finite is named in a message. -/
def nonFiniteText (x : Binary64) : String :=
  if x.isNaN then "NaN" else if x.isNegative then "-inf" else "inf"

end Binary64

end ChainQuery
