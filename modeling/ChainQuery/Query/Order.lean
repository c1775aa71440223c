import ChainQuery.Query.Equality

/-! # Sort orders — keys, primary first

    An order starts with one key and only ever grows at the end; growing
    one leaves the shorter order as it was. -/

namespace ChainQuery

/-- One key of an order: what to sort by, and which way. -/
structure OrderKey where
  selector : Func
  direction : Direction

/-- Equality of keys. -/
def OrderKey.same (a b : OrderKey) : Bool :=
  a.selector.same b.selector && a.direction == b.direction

/-- A sort order: a first key and further ones. -/
structure OrderSpec where
  first : OrderKey
  others : List OrderKey

namespace OrderSpec

/-- The order by one key. -/
def single (key : OrderKey) : OrderSpec :=
  ⟨key, []⟩

/-- An order with a key added at the end. -/
def appended (spec : OrderSpec) (key : OrderKey) : OrderSpec :=
  ⟨spec.first, spec.others ++ [key]⟩

/-- All keys, primary first. -/
def keys (spec : OrderSpec) : List OrderKey :=
  spec.first :: spec.others

/-- The directions of the keys. -/
def directions (spec : OrderSpec) : List Direction :=
  spec.keys.map (·.direction)

/-- Equality key by key. -/
def sameKeys : List OrderKey → List OrderKey → Bool
  | [], [] => true
  | a :: as, b :: bs => a.same b && sameKeys as bs
  | _, _ => false

/-- Equality of orders. -/
def same (a b : OrderSpec) : Bool :=
  sameKeys a.keys b.keys

end OrderSpec

/-- The sort key of a query as a key of an order. -/
def SortKey.toOrderKey : SortKey → OrderKey
  | .mk selector direction => ⟨selector.toFunc, direction⟩

/-- The order made of the sort keys of a query. -/
def OrderSpec.ofSortKeys (first : SortKey) (others : List SortKey) :
    OrderSpec :=
  ⟨first.toOrderKey, others.map SortKey.toOrderKey⟩

/-! ## What a node tells about itself -/

/-- The part of the last node of a chain that can be read back. -/
inductive Detail where
  /-- The name of a database or table. -/
  | name (name : String)
  /-- The key of a lookup. -/
  | key (key : PrimaryKey)
  /-- The index of a lookup of many rows. -/
  | index (name : Option String)
  /-- The bounds of a range. -/
  | bounds (left right : Bound)
  /-- The predicate of a filter. -/
  | predicate (f : Func)
  /-- The order of a sort. -/
  | order (spec : OrderSpec)

/-- What the last node tells, if anything. -/
def Query.detail? : Query → Option Detail
  | .root (.db name) => some (.name name)
  | .root (.table t) => some (.name t.name)
  | .step _ (.get key _) => some (.key key)
  | .step _ (.getAll _ index) => some (.index index)
  | .step _ (.between _ _ _ left right) => some (.bounds left right)
  | .rowStep _ .filter f => some (.predicate f.toFunc)
  | .orderBy _ first others =>
      some (.order (.ofSortKeys first others))
  | _ => none

end ChainQuery
