import ChainQuery.Binary64
import ChainQuery.Entries

/-! # Datums — values the wire can carry

    The wire has one kind of number and objects with text keys.  Object
    entries are kept in key order, so that one document has one datum. -/

namespace ChainQuery

/-- A value in wire form. -/
inductive Datum where
  | null
  | bool (b : Bool)
  | number (x : Binary64)
  | string (s : String)
  | array (items : List Datum)
  /-- Entries in byte order of their keys, each key once. -/
  | object (entries : List (String × Datum))
  deriving Inhabited

namespace Datum

/-! ## Scalars -/

/-- The characters of a string datum. -/
def asString : Datum → Option String
  | .string s => some s
  | _ => none

/-- The number of a number datum. -/
def asNumber : Datum → Option Binary64
  | .number x => some x
  | _ => none

/-- The truth value of a boolean datum. -/
def asBool : Datum → Option Bool
  | .bool b => some b
  | _ => none

/-- A natural number as a wire number. -/
def ofNat (n : Nat) : Datum :=
  .number (Binary64.ofNat n)

/-! ## Equality -/

mutual

/-- Equality of datums, numbers compared as numbers. -/
def same : Datum → Datum → Bool
  | .null, .null => true
  | .bool a, .bool b => a == b
  | .number a, .number b => a.same b
  | .string a, .string b => a == b
  | .array as, .array bs => sameItems as bs
  | .object as, .object bs => sameEntries as bs
  | _, _ => false
termination_by structural d => d

/-- Equality item by item. -/
def sameItems : List Datum → List Datum → Bool
  | [], [] => true
  | a :: as, b :: bs => same a b && sameItems as bs
  | _, _ => false
termination_by structural ds => ds

/-- Equality entry by entry. -/
def sameEntries : List (String × Datum) → List (String × Datum) → Bool
  | [], [] => true
  | (k, a) :: as, (l, b) :: bs =>
      k == l && same a b && sameEntries as bs
  | _, _ => false
termination_by structural es => es

end

end Datum

end ChainQuery
