import ChainQuery.Binary64.Shortest
import ChainQuery.Json

/-! # JSON numbers

    Integers are written in full.  Other numbers are written with the
    shortest digits that read back: positionally from `1e-5` up to
    `1e16`, always with a fraction, and beyond that with an exponent that
    shows its sign.

    Reading is exact where an integer is asked for, and otherwise rounds
    the written decimal once, to the nearest number.  A bounded count of
    digits is told apart; the rest of a longer decimal only shows that it
    is there. -/

namespace ChainQuery.Json.Number

/-! ## Digits -/

/-- The decimal digits of a natural number. -/
def digits (n : Nat) : List Char :=
  Nat.toDigits 10 n

/-- The value of a digit. -/
def digitValue (c : Char) : Nat :=
  c.toNat - '0'.toNat

/-- The value of a row of digits. -/
def valueOf (ds : List Char) : Nat :=
  ds.foldl (fun n c => 10 * n + digitValue c) 0

/-! ## Writing -/

/-- An integer as written. -/
def ofInt (i : Int) : Number :=
  ⟨decide (i < 0), digits i.natAbs, [], none⟩

/-- Zeros at the end of a row of digits are not needed. -/
def dropTrailingZeros (ds : List Char) : List Char :=
  (ds.reverse.dropWhile (· == '0')).reverse

/-- Where the positional form of a number ends on the left. -/
def positionalMax : Int := 16

/-- Where the positional form of a number ends on the right. -/
def positionalMin : Int := -5

/-- The written form of the decimal `0.d₁d₂… * 10 ^ point`. -/
def ofDigits (negative : Bool) (ds : List Char) (point : Int) : Number :=
  if ds.length ≤ point ∧ point ≤ positionalMax then
    ⟨negative,
     ds ++ List.replicate (point.toNat - ds.length) '0', ['0'], none⟩
  else if 0 < point ∧ point ≤ positionalMax then
    ⟨negative, ds.take point.toNat, ds.drop point.toNat, none⟩
  else if positionalMin < point ∧ point ≤ 0 then
    ⟨negative, ['0'], List.replicate (-point).toNat '0' ++ ds, none⟩
  else
    ⟨negative, ds.take 1, ds.drop 1,
     some (decide (point - 1 < 0), digits (point - 1).natAbs)⟩

/-- The shortest written form of a finite number. -/
def ofBinary64 (x : Binary64) : Number :=
  if x.isZero then ⟨x.isNegative, ['0'], ['0'], none⟩
  else
    let d := x.shortest
    let all := digits d.coefficient
    ofDigits x.isNegative (dropTrailingZeros all) (all.length + d.exponent)

/-- The characters of a number. -/
def render (n : Number) : List Char :=
  (if n.negative then ['-'] else []) ++ n.whole
    ++ (if n.fraction.isEmpty then [] else '.' :: n.fraction)
    ++ match n.exponent with
      | none => []
      | some (negative, ds) =>
          'e' :: (if negative then '-' else '+') :: ds

/-! ## Reading integers -/

/-- The integer a number is written as: no fraction, no exponent, and not
    a negative zero. -/
def toInt? (n : Number) : Option Int :=
  match n.fraction, n.exponent with
  | [], none =>
      let v := valueOf n.whole
      if n.negative then
        if v = 0 then none else some (-(v : Int))
      else some v
  | _, _ => none

/-- An integer of sixty-four bits with sign. -/
def toInt64? (n : Number) : Option Int64 :=
  n.toInt?.bind fun i =>
    if -0x8000000000000000 ≤ i ∧ i < 0x8000000000000000 then
      some (Int64.ofInt i)
    else none

/-- An integer of sixty-four bits without sign. -/
def toUInt64? (n : Number) : Option UInt64 :=
  n.toInt?.bind fun i =>
    if 0 ≤ i ∧ i < 0x10000000000000000 then some (UInt64.ofNat i.toNat)
    else none

/-- A byte. -/
def toUInt8? (n : Number) : Option UInt8 :=
  n.toInt?.bind fun i =>
    if 0 ≤ i ∧ i < 0x100 then some (UInt8.ofNat i.toNat) else none

/-! ## Reading other numbers -/

/-- The written exponent. -/
def writtenExponent (n : Number) : Int :=
  match n.exponent with
  | none => 0
  | some (negative, ds) =>
      if negative then -(valueOf ds : Int) else valueOf ds

/-- The digits that count: leading zeros do not, and neither do zeros at
    the end of the fraction. -/
def significant (n : Number) : List Char :=
  (n.whole ++ dropTrailingZeros n.fraction).dropWhile (· == '0')

/-- The power of ten the last significant digit stands under. -/
def lastPlace (n : Number) : Int :=
  n.writtenExponent - (dropTrailingZeros n.fraction).length

/-- How many digits are told apart.  The midpoint of two neighbouring
    numbers never has more than seven hundred and sixty-seven. -/
def digitLimit : Nat := 768

/-- The decimal a written number is read as, without its sign: its
    coefficient and the power of ten that goes with it.  All digits beyond
    the limit together count as a one in the place after the last that is
    kept, also when they are zeros; so a longer decimal never lies on a
    midpoint. -/
def decimal (n : Number) : Nat × Int :=
  let ds := n.significant
  if ds.length ≤ digitLimit then (valueOf ds, n.lastPlace)
  else
    (10 * valueOf (ds.take digitLimit) + 1,
     n.lastPlace + (ds.length - (digitLimit + 1) : Nat))

/-- The number nearest to a written number, unless that is out of
    range. -/
def toBinary64? (n : Number) : Option Binary64 :=
  let (coefficient, exponent) := n.decimal
  let x := Binary64.ofDecimal coefficient exponent
  if x.isFinite then some (if n.negative then x.negate else x) else none

end ChainQuery.Json.Number
