import ChainQuery.Datum
import ChainQuery.Value

/-! # Conversion — from values to datums

    A converter says which kinds of value it supports and turns values
    into datums.  The standard converter is strict: finite numbers,
    integers only as far as every one of them is exactly a number, text
    keys, each once, and nesting up to a limit. -/

namespace ChainQuery

/-! ## Why a value has no wire form -/

/-- What stands in the way of a conversion: what the standard converter
    has against a value, or what another one says. -/
inductive ConvertError where
  /-- The converter does not take this kind at all. -/
  | unsupported (kind : Value.Kind)
  /-- A value of this kind lies below the nesting limit. -/
  | tooDeep (kind : Value.Kind) (limit : Nat)
  /-- An infinity or a NaN. -/
  | notFinite (x : Binary64)
  /-- A signed integer beyond the exact ones. -/
  | inexactInt (i : Int64)
  /-- An unsigned integer beyond the exact ones. -/
  | inexactUint (n : UInt64)
  /-- A map key that is not text. -/
  | keyNotText (kind : Value.Kind)
  /-- A map key that occurred before. -/
  | duplicateKey (key : String)
  /-- Whatever else a converter finds, in its own words. -/
  | other (kind : Value.Kind) (target reason : String)
  deriving DecidableEq, Repr

namespace ConvertError

/-- The kind of value that could not be represented. -/
def kind : ConvertError → Value.Kind
  | .unsupported kind => kind
  | .tooDeep kind _ => kind
  | .notFinite _ => .float
  | .inexactInt _ => .int
  | .inexactUint _ => .uint
  | .keyNotText _ => .map
  | .duplicateKey _ => .map
  | .other kind _ _ => kind

/-- The wire form that was aimed at. -/
def target : ConvertError → String
  | .unsupported _ => "datum"
  | .tooDeep _ _ => "datum"
  | .notFinite _ => "number"
  | .inexactInt _ => "number"
  | .inexactUint _ => "number"
  | .keyNotText _ => "object"
  | .duplicateKey _ => "object"
  | .other _ target _ => target

/-- The reason in words. -/
def reason : ConvertError → String
  | .unsupported _ => "converter does not support this kind"
  | .tooDeep _ limit => s!"nesting exceeds {limit} levels"
  | .notFinite x => s!"{x.nonFiniteText} is not finite"
  | .inexactInt i =>
      s!"{i.toInt} is outside the exactly representable range"
  | .inexactUint n =>
      s!"{n.toNat} is outside the exactly representable range"
  | .keyNotText kind => s!"key of kind {kind.label} is not text"
  | .duplicateKey key => s!"duplicate key '{key}'"
  | .other _ _ reason => reason

/-- The whole message. -/
def message (e : ConvertError) : String :=
  s!"{e.kind.label} value cannot be represented as {e.target}: "
    ++ e.reason

end ConvertError

/-! ## Converters -/

/-- What generation needs to know of a converter.  It is consulted while
    a term is generated and never while a chain is written. -/
structure Converter where
  /-- Whether values of a kind can be converted at all. -/
  supports : Value.Kind → Bool
  /-- The datum of a value. -/
  convert : Value → Except ConvertError Datum

/-- Settings of the standard converter. -/
structure Converter.Config where
  /-- The deepest level at which a value may lie; the root is at zero. -/
  maxDepth : Nat := 20
  /-- Whether integers may lose precision. -/
  lossyIntegers : Bool := false
  deriving DecidableEq, Repr

namespace Converter

/-- The settings used where none are given. -/
def Config.strict : Config := {}

/-- Every integer up to this magnitude is exactly a number. -/
def exactLimit : Nat := Nat.pow 2 53

mutual

/-- Convert a value that lies at the given depth: its own depth first,
    then the value, items and entries in order. -/
def convertAt (config : Config) (v : Value) (depth : Nat) :
    Except ConvertError Datum :=
  if config.maxDepth < depth then
    .error (.tooDeep v.kind config.maxDepth)
  else
    match v with
    | .null => .ok .null
    | .bool b => .ok (.bool b)
    | .text s => .ok (.string s)
    | .float x =>
        if x.isFinite then .ok (.number x) else .error (.notFinite x)
    | .int i =>
        if !config.lossyIntegers && exactLimit < i.toInt.natAbs then
          .error (.inexactInt i)
        else .ok (.number (Binary64.ofInt i.toInt))
    | .uint n =>
        if !config.lossyIntegers && exactLimit < n.toNat then
          .error (.inexactUint n)
        else .ok (.number (Binary64.ofNat n.toNat))
    | .list items => do
        let items ← convertItems config items (depth + 1)
        return .array items
    | .map entries => do
        let entries ← convertEntries config entries (depth + 1) []
        return .object entries
    | .blob _ => .error (.unsupported .blob)
termination_by structural v

/-- Convert list items in order, all at the same depth. -/
def convertItems (config : Config) (items : List Value) (depth : Nat) :
    Except ConvertError (List Datum) :=
  match items with
  | [] => .ok []
  | v :: vs => do
      let d ← convertAt config v depth
      let ds ← convertItems config vs depth
      return d :: ds
termination_by structural items

/-- Convert map entries in order on top of those already `done`.  Of one
    entry, the key's form is judged before the item is converted, and
    whether the key occurred before is judged after. -/
def convertEntries (config : Config) (entries : List (Value × Value))
    (depth : Nat) (done : List (String × Datum)) :
    Except ConvertError (List (String × Datum)) :=
  match entries with
  | [] => .ok done
  | (key, item) :: rest =>
      match key.asText with
      | none => .error (.keyNotText key.kind)
      | some name => do
          let d ← convertAt config item depth
          if Entries.has name done then .error (.duplicateKey name)
          else convertEntries config rest depth (Entries.put name d done)
termination_by structural entries

end

/-- The standard converter: everything but blobs, by the settings. -/
def standard (config : Config) : Converter where
  supports kind := kind != .blob
  convert v := convertAt config v 0

/-- The same conversion behind another choice of kinds: those in `accept`
    are supported too, those in `refuse` never. -/
def adjusted (c : Converter) (accept refuse : List Value.Kind) :
    Converter where
  supports kind :=
    (c.supports kind || accept.contains kind) && !refuse.contains kind
  convert := c.convert

end Converter

end ChainQuery
