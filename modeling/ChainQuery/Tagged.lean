import ChainQuery.Json.Reader
import ChainQuery.Json.Writer
import ChainQuery.Term
import ChainQuery.Value

/-! # Tagged form — values, datums and terms as JSON

    A form with a payload is an object with one member, named for the
    form; one without is the bare name.  Objects and named arguments are
    JSON objects, map entries are pairs.  A number that is not finite has
    no JSON form and is written as null, which does not read back.

    Reading is strict about the forms and lenient where nothing can be
    lost: a name without payload may be spelled as an object with a null,
    the fields of an operation may come in any order, by position, or
    among others that are ignored, and of a repeated key the last counts.
    Nesting is limited, ignored fields aside. -/

namespace ChainQuery

namespace Tagged

/-! ## Writing -/

/-- A form with its payload. -/
def tagged (name : String) (payload : Json) : Json :=
  .object [(some name, payload)]

/-- A form without payload. -/
def bare (name : String) : Json :=
  .string (some name)

/-- An integer. -/
def ofInt (i : Int) : Json :=
  .number (.ofInt i)

/-- A number that need not be an integer. -/
def ofBinary64 (x : Binary64) : Json :=
  if x.isFinite then .number (.ofBinary64 x) else .null

mutual

/-- The form of a value. -/
def ofValue : Value → Json
  | .null => bare "Null"
  | .bool b => tagged "Bool" (.bool b)
  | .int i => tagged "Int" (ofInt i.toInt)
  | .uint n => tagged "Uint" (ofInt n.toNat)
  | .float x => tagged "Float" (ofBinary64 x)
  | .text s => tagged "Text" (.string (some s))
  | .blob bytes =>
      tagged "Blob" (.array (bytes.map fun b => ofInt b.toNat))
  | .list items => tagged "List" (.array (ofValues items))
  | .map entries => tagged "Map" (.array (ofEntries entries))
termination_by structural v => v

/-- The forms of values, in order. -/
def ofValues : List Value → List Json
  | [] => []
  | v :: vs => ofValue v :: ofValues vs
termination_by structural vs => vs

/-- Map entries as pairs, in order. -/
def ofEntries : List (Value × Value) → List Json
  | [] => []
  | (key, item) :: rest =>
      .array [ofValue key, ofValue item] :: ofEntries rest
termination_by structural es => es

end

mutual

/-- The form of a datum. -/
def ofDatum : Datum → Json
  | .null => bare "Null"
  | .bool b => tagged "Bool" (.bool b)
  | .number x => tagged "Number" (ofBinary64 x)
  | .string s => tagged "String" (.string (some s))
  | .array items => tagged "Array" (.array (ofDatums items))
  | .object entries => tagged "Object" (.object (ofMembers entries))
termination_by structural d => d

/-- The forms of array items. -/
def ofDatums : List Datum → List Json
  | [] => []
  | d :: ds => ofDatum d :: ofDatums ds
termination_by structural ds => ds

/-- The forms of object entries. -/
def ofMembers : List (String × Datum) → List (Json.Text × Json)
  | [] => []
  | (key, d) :: rest => (some key, ofDatum d) :: ofMembers rest
termination_by structural es => es

end

mutual

/-- The form of a term. -/
def ofTerm : Term → Json
  | .datum d => tagged "Datum" (ofDatum d)
  | .apply kind args optargs =>
      tagged "Apply" (.object
        [(some "kind", bare kind.name),
         (some "args", .array (ofTerms args)),
         (some "optargs", .object (ofNamed optargs))])
termination_by structural t => t

/-- The forms of positional arguments. -/
def ofTerms : List Term → List Json
  | [] => []
  | t :: ts => ofTerm t :: ofTerms ts
termination_by structural ts => ts

/-- The forms of named arguments. -/
def ofNamed : List (String × Term) → List (Json.Text × Json)
  | [] => []
  | (name, t) :: rest => (some name, ofTerm t) :: ofNamed rest
termination_by structural es => es

end

/-! ## Reading

    Readers count down the containers that may still be opened. -/

/-- How many containers may lie inside one another. -/
def nestingLimit : Nat := 127

/-- A name without payload, in either spelling. -/
def bareName? : (room : Nat) → Json → Option String
  | _, .string s => s
  | _ + 1, .object [(some name, .null)] => some name
  | _, _ => none

/-- A number that need not be an integer. -/
def toBinary64? : Json → Option Binary64
  | .number n => n.toBinary64?
  | _ => none

/-- A byte. -/
def toByte? : Json → Option UInt8
  | .number n => n.toUInt8?
  | _ => none

mutual

/-- Read a value. -/
def toValue? (room : Nat) (j : Json) : Option Value :=
  match j with
  | .string (some "Null") => some .null
  | .object [(some name, payload)] =>
      match room with
      | 0 => none
      | room + 1 =>
          match name, payload with
          | "Null", .null => some .null
          | "Bool", .bool b => some (.bool b)
          | "Int", .number n => n.toInt64?.map .int
          | "Uint", .number n => n.toUInt64?.map .uint
          | "Float", .number n => n.toBinary64?.map .float
          | "Text", .string (some s) => some (.text s)
          | "Blob", .array items =>
              if room = 0 then none
              else (items.mapM toByte?).map .blob
          | "List", .array items =>
              match room with
              | 0 => none
              | room + 1 => (toValues? room items).map .list
          | "Map", .array items =>
              match room with
              | 0 => none
              | room + 1 => (toEntries? room items).map .map
          | _, _ => none
  | _ => none
termination_by structural j

/-- Read values in order. -/
def toValues? (room : Nat) (js : List Json) : Option (List Value) :=
  match js with
  | [] => some []
  | j :: js => do
      let v ← toValue? room j
      let vs ← toValues? room js
      return v :: vs
termination_by structural js

/-- Read map entries, each a pair. -/
def toEntries? (room : Nat) (js : List Json) :
    Option (List (Value × Value)) :=
  match js with
  | [] => some []
  | .array [key, item] :: js =>
      match room with
      | 0 => none
      | inner + 1 => do
          let key ← toValue? inner key
          let item ← toValue? inner item
          let rest ← toEntries? (inner + 1) js
          return (key, item) :: rest
  | _ => none
termination_by structural js

end

mutual

/-- Read a datum. -/
def toDatum? (room : Nat) (j : Json) : Option Datum :=
  match j with
  | .string (some "Null") => some .null
  | .object [(some name, payload)] =>
      match room with
      | 0 => none
      | room + 1 =>
          match name, payload with
          | "Null", .null => some .null
          | "Bool", .bool b => some (.bool b)
          | "Number", .number n => n.toBinary64?.map .number
          | "String", .string (some s) => some (.string s)
          | "Array", .array items =>
              match room with
              | 0 => none
              | room + 1 => (toDatums? room items).map .array
          | "Object", .object members =>
              match room with
              | 0 => none
              | room + 1 =>
                  (toMembers? room members []).map .object
          | _, _ => none
  | _ => none
termination_by structural j

/-- Read datums in order. -/
def toDatums? (room : Nat) (js : List Json) : Option (List Datum) :=
  match js with
  | [] => some []
  | j :: js => do
      let d ← toDatum? room j
      let ds ← toDatums? room js
      return d :: ds
termination_by structural js

/-- Read object entries on top of those already `done`. -/
def toMembers? (room : Nat) (members : List (Json.Text × Json))
    (done : List (String × Datum)) : Option (List (String × Datum)) :=
  match members with
  | [] => some done
  | (some key, j) :: rest => do
      let d ← toDatum? room j
      toMembers? room rest (Entries.put key d done)
  | _ => none
termination_by structural members

end

/-- Read a kind. -/
def toKind? (room : Nat) (j : Json) : Option Term.Kind :=
  (bareName? room j).bind Term.Kind.ofName?

/-- The fields of an operation read so far. -/
structure Fields where
  kind : Option Term.Kind
  args : Option (List Term)
  optargs : Option (List (String × Term))

/-- No field read yet. -/
def Fields.none : Fields := ⟨.none, .none, .none⟩

/-- The operation, once every field is there. -/
def Fields.toTerm? (f : Fields) : Option Term := do
  let kind ← f.kind
  let args ← f.args
  let optargs ← f.optargs
  return .apply kind args optargs

mutual

/-- Read a term. -/
def toTerm? (room : Nat) (j : Json) : Option Term :=
  match j with
  | .object [(some name, payload)] =>
      match room with
      | 0 => none
      | room + 1 =>
          match name, payload with
          | "Datum", d => (toDatum? room d).map .datum
          | "Apply", .object members =>
              match room with
              | 0 => none
              | room + 1 => toFields? room members .none
          | "Apply", .array [kind, .array args, .object optargs] =>
              match room with
              | 0 => none
              | 1 => none
              | room + 2 => do
                  let kind ← toKind? (room + 1) kind
                  let args ← toTerms? room args
                  let optargs ← toNamed? room optargs []
                  return .apply kind args optargs
          | _, _ => none
  | _ => none
termination_by structural j

/-- Read positional arguments in order. -/
def toTerms? (room : Nat) (js : List Json) : Option (List Term) :=
  match js with
  | [] => some []
  | j :: js => do
      let t ← toTerm? room j
      let ts ← toTerms? room js
      return t :: ts
termination_by structural js

/-- Read named arguments on top of those already `done`. -/
def toNamed? (room : Nat) (members : List (Json.Text × Json))
    (done : List (String × Term)) : Option (List (String × Term)) :=
  match members with
  | [] => some done
  | (some name, j) :: rest => do
      let t ← toTerm? room j
      toNamed? room rest (Entries.put name t done)
  | _ => none
termination_by structural members

/-- Read the fields of an operation, each at most once; fields of other
    names are left out. -/
def toFields? (room : Nat) (members : List (Json.Text × Json))
    (f : Fields) : Option Term :=
  match members with
  | [] => f.toTerm?
  | (some "kind", j) :: rest =>
      if f.kind.isSome then none
      else do
        let kind ← toKind? room j
        toFields? room rest ⟨some kind, f.args, f.optargs⟩
  | (some "args", .array items) :: rest =>
      match room with
      | 0 => none
      | inner + 1 =>
          if f.args.isSome then none
          else do
            let args ← toTerms? inner items
            toFields? (inner + 1) rest ⟨f.kind, some args, f.optargs⟩
  | (some "args", _) :: _ => none
  | (some "optargs", .object named) :: rest =>
      match room with
      | 0 => none
      | inner + 1 =>
          if f.optargs.isSome then none
          else do
            let optargs ← toNamed? inner named []
            toFields? (inner + 1) rest ⟨f.kind, f.args, some optargs⟩
  | (some "optargs", _) :: _ => none
  | (some _, _) :: rest => toFields? room rest f
  | (none, _) :: _ => none
termination_by structural members

end

/-! ## Texts -/

/-- The text of a value. -/
def valueText (v : Value) : String :=
  (ofValue v).toText

/-- The text of a datum. -/
def datumText (d : Datum) : String :=
  (ofDatum d).toText

/-- The text of a term. -/
def termText (t : Term) : String :=
  (ofTerm t).toText

/-- The value a text is. -/
def valueOfText? (text : String) : Option Value :=
  (Json.ofText? text).bind (toValue? nestingLimit)

/-- The datum a text is. -/
def datumOfText? (text : String) : Option Datum :=
  (Json.ofText? text).bind (toDatum? nestingLimit)

/-- The term a text is. -/
def termOfText? (text : String) : Option Term :=
  (Json.ofText? text).bind (toTerm? nestingLimit)

end Tagged

end ChainQuery
