import ChainQuery.Binary64

/-! # Values — the literals a caller writes

    A value is captured as written and turned into a wire datum only when
    a term is generated.  Signed, unsigned and floating numbers stay
    apart, and the keys of a map are values themselves: whether a shape
    fits the wire is for the converter to say. -/

namespace ChainQuery

/-- A literal on the caller's side. -/
inductive Value where
  | null
  | bool (b : Bool)
  | int (i : Int64)
  | uint (n : UInt64)
  | float (x : Binary64)
  | text (s : String)
  | blob (bytes : List UInt8)
  /-- Items in order. -/
  | list (items : List Value)
  /-- Entries in the order they were written; a key may be any value. -/
  | map (entries : List (Value × Value))
  deriving Inhabited

namespace Value

/-! ## Kinds -/

/-- What a converter is asked about before it is given a value. -/
inductive Kind where
  | blob | bool | float | int | list | map | null | text | uint
  deriving DecidableEq, Repr

/-- The kinds in alphabetical order. -/
def Kind.all : List Kind :=
  [.blob, .bool, .float, .int, .list, .map, .null, .text, .uint]

/-- The word for a kind in messages. -/
def Kind.label : Kind → String
  | .blob => "blob"
  | .bool => "bool"
  | .float => "float"
  | .int => "int"
  | .list => "list"
  | .map => "map"
  | .null => "null"
  | .text => "text"
  | .uint => "uint"

/-- The kind with a given word. -/
def Kind.ofLabel? (label : String) : Option Kind :=
  Kind.all.find? (·.label == label)

/-- The outermost form of a value. -/
def kind : Value → Kind
  | .null => .null
  | .bool _ => .bool
  | .int _ => .int
  | .uint _ => .uint
  | .float _ => .float
  | .text _ => .text
  | .blob _ => .blob
  | .list _ => .list
  | .map _ => .map

/-- The characters of a text value. -/
def asText : Value → Option String
  | .text s => some s
  | _ => none

/-! ## Size -/

mutual

/-- Number of nodes: the value itself and everything in it, the keys of
    maps included. -/
def nodeCount : Value → Nat
  | .list items => 1 + nodeCounts items
  | .map entries => 1 + entryCounts entries
  | _ => 1
termination_by structural v => v

/-- Number of nodes in a list of values. -/
def nodeCounts : List Value → Nat
  | [] => 0
  | v :: vs => nodeCount v + nodeCounts vs
termination_by structural vs => vs

/-- Number of nodes in entries. -/
def entryCounts : List (Value × Value) → Nat
  | [] => 0
  | (key, item) :: rest =>
      nodeCount key + (nodeCount item + entryCounts rest)
termination_by structural es => es

end

/-! ## Host values

    Conversions from what callers have at hand: single-precision numbers
    widen, an absent value is null, and an object is a map with text
    keys. -/

/-- A single-precision number, by its encoding. -/
def ofSingle (bits : UInt32) : Value :=
  .float (Binary64.ofSingle bits)

/-- An optional value: null when absent. -/
def ofOption : Option Value → Value
  | none => .null
  | some v => v

/-- A map whose keys are all text. -/
def object (entries : List (String × Value)) : Value :=
  .map (entries.map fun (key, item) => (.text key, item))

/-! ## Equality

    Values compare form by form.  Numbers of different forms are never
    equal, and floating numbers compare as numbers. -/

mutual

/-- Equality of values. -/
def same : Value → Value → Bool
  | .null, .null => true
  | .bool a, .bool b => a == b
  | .int a, .int b => a == b
  | .uint a, .uint b => a == b
  | .float a, .float b => a.same b
  | .text a, .text b => a == b
  | .blob a, .blob b => a == b
  | .list as, .list bs => sameItems as bs
  | .map as, .map bs => sameEntries as bs
  | _, _ => false
termination_by structural v => v

/-- Equality item by item. -/
def sameItems : List Value → List Value → Bool
  | [], [] => true
  | a :: as, b :: bs => same a b && sameItems as bs
  | _, _ => false
termination_by structural vs => vs

/-- Equality entry by entry, in order. -/
def sameEntries : List (Value × Value) → List (Value × Value) → Bool
  | [], [] => true
  | (k, a) :: as, (l, b) :: bs =>
      same k l && same a b && sameEntries as bs
  | _, _ => false
termination_by structural es => es

end

end Value

end ChainQuery
