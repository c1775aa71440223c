import ChainQuery.Query

/-! # Shapes — what may follow what

    The shape of a chain says which steps may be written after it.  It is
    decided by the last node alone, except that steps which pass their
    rows through keep the element marker of their source.  Only a lookup
    by primary key may be written to in place. -/

namespace ChainQuery

/-! ## Elements of a sequence -/

/-- What the elements of a sequence are: documents, or the pairs a join
    makes. -/
inductive Marker where
  | doc
  | pair (left right : Marker)
  deriving DecidableEq, Repr, Inhabited

/-- A marker in words. -/
def Marker.label : Marker → String
  | .doc => "doc"
  | .pair left right => s!"pair({left.label},{right.label})"

/-- Whether the elements are pairs. -/
def Marker.isPair : Marker → Bool
  | .doc => false
  | .pair _ _ => true

/-! ## Shapes -/

/-- The shape of a chain. -/
inductive Shape where
  /-- A database reference: not data, only a place to name tables in. -/
  | reference
  /-- Any number of elements. -/
  | sequence (item : Marker)
  /-- One object, which may be open to writes in place. -/
  | single (mutable : Bool)
  /-- A write, whose result is a summary. -/
  | write
  deriving DecidableEq, Repr

/-- What a chain can be used as. -/
inductive Capability where
  | sequence | single | mutable | write
  deriving DecidableEq, Repr

/-- The word for a capability. -/
def Capability.label : Capability → String
  | .sequence => "sequence"
  | .single => "single"
  | .mutable => "mutable"
  | .write => "write"

namespace Shape

/-- The capabilities of a shape. -/
def capabilities : Shape → List Capability
  | .reference => []
  | .sequence _ => [.sequence]
  | .single false => [.single]
  | .single true => [.single, .mutable]
  | .write => [.write]

/-- Whether the chain is a sequence. -/
def isSequence : Shape → Bool
  | .sequence _ => true
  | _ => false

/-- Whether the chain is an object open to writes in place. -/
def isMutable : Shape → Bool
  | .single mutable => mutable
  | _ => false

/-- The marker of a sequence. -/
def item? : Shape → Option Marker
  | .sequence m => some m
  | _ => none

/-- The marker passed on to a step: documents where there is none. -/
def item (s : Shape) : Marker :=
  s.item?.getD .doc

end Shape

/-- The shape of a root. -/
def Root.shape : Root → Shape
  | .db _ => .reference
  | .table _ => .sequence .doc
  | .dbCreate _ => .write
  | .dbDrop _ => .write
  | .dbList => .single false
  | .tableCreate _ _ => .write
  | .tableDrop _ _ => .write
  | .tableList _ => .single false
  | .indexCreate _ _ => .write
  | .indexDrop _ _ => .write
  | .indexList _ => .single false
  | .literal _ => .single false
  | .literalSeq _ => .sequence .doc
  | .now => .single false
  | .insert _ _ _ => .write

/-- The shape after a step on a source of a given shape. -/
def Step.shape (source : Shape) : Step → Shape
  | .get _ _ => .single true
  | .getAll _ _ => .sequence source.item
  | .between _ _ _ _ _ => .sequence source.item
  | .skip _ => .sequence source.item
  | .limit _ => .sequence source.item
  | .slice _ _ => .sequence source.item
  | .nth _ => .single false
  | .distinct => .sequence source.item
  | .count => .single false
  | .zip => .sequence .doc
  | .replace _ _ => .write
  | .replaceAndReturn _ _ => .write
  | .delete => .write
  | .deleteAndReturn => .write

/-- Whether a step may be written after a source of a given shape. -/
def Step.accepts (source : Shape) : Step → Bool
  | .get _ _ => source.isSequence
  | .getAll _ _ => source.isSequence
  | .between _ _ _ _ _ => source.isSequence
  | .skip _ => source.isSequence
  | .limit _ => source.isSequence
  | .slice _ _ => source.isSequence
  | .nth _ => source.isSequence
  | .distinct => source.isSequence
  | .count => source.isSequence
  | .zip => source.isSequence && source.item.isPair
  | .replace _ _ => source.isMutable
  | .replaceAndReturn _ _ => source.isMutable
  | .delete => source.isSequence || source.isMutable
  | .deleteAndReturn => source.isMutable

/-- The shape after a row step on a source of a given shape. -/
def RowStep.shape (source : Shape) : RowStep → Shape
  | .filter => .sequence source.item
  | .map => .sequence .doc
  | .concatMap => .sequence .doc
  | .update _ => .write
  | .updateAndReturn _ => .write

/-- Whether a row step may be written after a source of a given shape. -/
def RowStep.accepts (source : Shape) : RowStep → Bool
  | .filter => source.isSequence
  | .map => source.isSequence
  | .concatMap => source.isSequence
  | .update _ => source.isSequence || source.isMutable
  | .updateAndReturn _ => source.isMutable

/-- The shape of a chain. -/
def Query.shape : Query → Shape
  | .root r => r.shape
  | .indexCreateWith _ _ _ => .write
  | .step source s => s.shape source.shape
  | .rowStep source s _ => s.shape source.shape
  | .orderBy source _ _ => .sequence source.shape.item
  | .union first _ => .sequence first.shape.item
  | .reduce _ _ _ => .single false
  | .groupBy _ _ _ => .sequence .doc
  | .groupedMapReduce _ _ _ _ _ => .sequence .doc
  | .join _ left right _ =>
      .sequence (.pair left.shape.item right.shape.item)
  | .eqJoin left _ right _ =>
      .sequence (.pair left.shape.item right.shape.item)

/-! ## Writing steps

    Each function answers `none` where the step may not be written. -/

namespace Query

/-- Write a step that carries no function. -/
def andThen? (q : Query) (s : Step) : Option Query :=
  if s.accepts q.shape then some (.step q s) else none

/-- Name something inside a database. -/
def inDatabase? (q : Query) (root : String → Root) : Option Query :=
  match q with
  | .root (.db name) => some (.root (root name))
  | _ => none

/-- The table a chain is, when it is only that. -/
def asTable? : Query → Option Table
  | .root (.table t) => some t
  | _ => none

/-- Go on from a table itself. -/
def onTable? (q : Query) (root : Table → Root) : Option Query :=
  q.asTable?.map fun t => .root (root t)

end Query

/-- Settings of the last node of a chain. -/
inductive Modifier where
  /-- Of a table. -/
  | useOutdated (on : Bool)
  /-- Of an insert: overwrite rows with the same key. -/
  | upsert
  /-- Of a lookup: the member the key belongs to. -/
  | keyMember (name : String)
  /-- Of a range or an equality join: the index to use. -/
  | index (name : String)
  /-- Of a range. -/
  | leftBound (b : Bound)
  /-- Of a range. -/
  | rightBound (b : Bound)
  /-- Of a fold: the value it starts from. -/
  | base (v : Value)
  /-- Of an update or a replacement: need not be atomic. -/
  | nonAtomic

/-- Change a setting of the last node, which must have it; nothing else
    about the node changes. -/
def Query.modify? (q : Query) (m : Modifier) : Option Query :=
  match m, q with
  | .useOutdated on, .root (.table t) =>
      some (.root (.table ⟨t.db, t.name, on⟩))
  | .upsert, .root (.insert t v _) => some (.root (.insert t v true))
  | .keyMember name, .step source (.get key _) =>
      some (.step source (.get key (some name)))
  | .index name, .step source (.between l r _ lb rb) =>
      some (.step source (.between l r (some name) lb rb))
  | .index name, .eqJoin left member right _ =>
      some (.eqJoin left member right (some name))
  | .leftBound b, .step source (.between l r index _ rb) =>
      some (.step source (.between l r index b rb))
  | .rightBound b, .step source (.between l r index lb _) =>
      some (.step source (.between l r index lb b))
  | .base v, .reduce source f _ => some (.reduce source f (some v))
  | .base v, .groupedMapReduce source g m r _ =>
      some (.groupedMapReduce source g m r (some v))
  | .nonAtomic, .rowStep source (.update _) f =>
      some (.rowStep source (.update true) f)
  | .nonAtomic, .rowStep source (.updateAndReturn _) f =>
      some (.rowStep source (.updateAndReturn true) f)
  | .nonAtomic, .step source (.replace v _) =>
      some (.step source (.replace v true))
  | .nonAtomic, .step source (.replaceAndReturn v _) =>
      some (.step source (.replaceAndReturn v true))
  | _, _ => none

/-- Whether a chain ends in a sort. -/
def Query.isOrdered : Query → Bool
  | .orderBy _ _ _ => true
  | _ => false

/-- Add a further sort key to a chain that ends in a sort. -/
def Query.thenBy? (q : Query) (key : SortKey) : Option Query :=
  match q with
  | .orderBy source first others =>
      some (.orderBy source first (others ++ [key]))
  | _ => none

end ChainQuery
