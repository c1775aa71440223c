import ChainQuery.Binary64

/-! # JSON documents

    A document as its grammar sees it: numbers are kept as they are
    written, because what a number may stand for depends on where it is
    read. -/

namespace ChainQuery

namespace Json

/-- A number as written: digits before the point, digits after it, and an
    exponent.  No digits after the point mean no point. -/
structure Number where
  negative : Bool
  whole : List Char
  fraction : List Char
  /-- Sign and digits of the exponent. -/
  exponent : Option (Bool × List Char)
  deriving DecidableEq, Repr

/-- The characters of a string, or `none` when an escape names half of a
    surrogate pair, which is no character. -/
abbrev Text : Type := Option String

end Json

/-- A JSON document. -/
inductive Json where
  | null
  | bool (b : Bool)
  | number (n : Json.Number)
  | string (s : Json.Text)
  | array (items : List Json)
  /-- Members in the order written, keys repeated or not. -/
  | object (members : List (Json.Text × Json))
  deriving Inhabited

end ChainQuery
