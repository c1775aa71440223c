import ChainQuery.Binary64

/-! # Shortest decimals

    Of the decimals that round to a number, the shortest have the fewest
    digits, and the one nearest to the number is taken among those.  The
    search goes through the digit counts: on each grid only the two
    neighbours of the number can be meant, and all comparisons are exact,
    in quarters of the smallest unit. -/

namespace ChainQuery.Binary64

/-- The decimal `coefficient * 10 ^ exponent`. -/
structure Decimal where
  coefficient : Nat
  exponent : Int
  deriving DecidableEq, Repr

/-- How many quarters of the smallest unit make one. -/
def quartersPerOne : Nat := Nat.pow 2 1076

/-- A number in quarters of the smallest unit. -/
def quarters (x : Binary64) : Nat :=
  4 * x.magnitude

/-- Half the distance to the next larger number, in quarters. -/
def upperGap (x : Binary64) : Nat :=
  2 * Nat.pow 2 x.shift

/-- Half the distance to the next smaller number, in quarters.  Below the
    start of a binade numbers lie twice as close. -/
def lowerGap (x : Binary64) : Nat :=
  if x.fractionField = 0 ∧ 1 < x.exponentField then Nat.pow 2 x.shift
  else 2 * Nat.pow 2 x.shift

/-- Compare `coefficient * 10 ^ exponent` with a count of quarters, both
    made whole by the same factor. -/
def compareDecimal (coefficient : Nat) (exponent : Int) (q : Nat) :
    Ordering :=
  if 0 ≤ exponent then
    compare (coefficient * Nat.pow 10 exponent.toNat * quartersPerOne) q
  else
    compare (coefficient * quartersPerOne) (q * Nat.pow 10 (-exponent).toNat)

/-- Whether a decimal rounds to a number.  The ends of the interval do
    just when the significand is even. -/
def roundsTo (x : Binary64) (coefficient : Nat) (exponent : Int) : Bool :=
  let closed := x.significand % 2 == 0
  let above := compareDecimal coefficient exponent
    (x.quarters - x.lowerGap)
  let below := compareDecimal coefficient exponent
    (x.quarters + x.upperGap)
  (above == .gt || (closed && above == .eq))
    && (below == .lt || (closed && below == .eq))

/-- Zeros after the point before the first digit of a number less than
    one, counted up from `zeros`. -/
def leadingZeros (q : Nat) : (fuel zeros : Nat) → Nat
  | 0, zeros => zeros
  | fuel + 1, zeros =>
      if quartersPerOne ≤ q * Nat.pow 10 (zeros + 1) then zeros
      else leadingZeros q fuel (zeros + 1)

/-- The least exponent of a power of ten that exceeds a positive
    number. -/
def decade (q : Nat) : Int :=
  if quartersPerOne ≤ q then (Nat.toDigits 10 (q / quartersPerOne)).length
  else -(leadingZeros q 400 0 : Int)

/-- The whole part of a number on the grid of `10 ^ exponent`. -/
def wholeOn (q : Nat) (exponent : Int) : Nat :=
  if 0 ≤ exponent then q / (Nat.pow 10 exponent.toNat * quartersPerOne)
  else q * Nat.pow 10 (-exponent).toNat / quartersPerOne

/-- The decimal on the grid of `10 ^ exponent` that rounds to a number
    and is nearest to it; of two at the same distance the even one. -/
def nearestOn? (x : Binary64) (exponent : Int) : Option Decimal :=
  let low := wholeOn x.quarters exponent
  match x.roundsTo low exponent, x.roundsTo (low + 1) exponent with
  | false, false => none
  | true, false => some ⟨low, exponent⟩
  | false, true => some ⟨low + 1, exponent⟩
  | true, true =>
      match compareDecimal (2 * low + 1) exponent (2 * x.quarters) with
      | .gt => some ⟨low, exponent⟩
      | .lt => some ⟨low + 1, exponent⟩
      | .eq => some ⟨if low % 2 = 0 then low else low + 1, exponent⟩

/-- Try the grids of `digits` digits and more. -/
def searchGrids (x : Binary64) (top : Int) :
    (fuel digits : Nat) → Decimal
  | 0, digits => ⟨wholeOn x.quarters (top - digits), top - digits⟩
  | fuel + 1, digits =>
      match x.nearestOn? (top - digits) with
      | some d => d
      | none => searchGrids x top fuel (digits + 1)

/-- The shortest decimal of a positive finite number.  Seventeen digits
    are always enough. -/
def shortest (x : Binary64) : Decimal :=
  searchGrids x (decade x.quarters) 17 1

end ChainQuery.Binary64
