/-! # Entries — named items in key order

    Objects and named arguments keep their entries sorted by the UTF-8
    bytes of the key, each key once, whatever the order in which they
    were put.  Equal collections are therefore equal lists. -/

namespace ChainQuery

/-! ## The order of keys -/

/-- The UTF-8 bytes of a string. -/
def utf8 (s : String) : List UInt8 :=
  s.toByteArray.data.toList

/-- Byte order of keys: lexicographic on the UTF-8 encodings. -/
def KeyBefore (a b : String) : Prop :=
  utf8 a < utf8 b

instance (a b : String) : Decidable (KeyBefore a b) :=
  inferInstanceAs (Decidable (utf8 a < utf8 b))

namespace Entries

variable {α : Type}

/-- Put an item under a key, in place of any it had. -/
def put (key : String) (item : α) :
    List (String × α) → List (String × α)
  | [] => [(key, item)]
  | (k, x) :: rest =>
      if key = k then (key, item) :: rest
      else if KeyBefore key k then (key, item) :: (k, x) :: rest
      else (k, x) :: put key item rest

/-- The item under a key. -/
def find? (key : String) : List (String × α) → Option α
  | [] => none
  | (k, x) :: rest => if key = k then some x else find? key rest

/-- Whether a key is present. -/
def has (key : String) (entries : List (String × α)) : Bool :=
  (find? key entries).isSome

/-- Entries from a list of puts, a later one replacing an earlier. -/
def ofList (puts : List (String × α)) : List (String × α) :=
  puts.foldl (fun entries (key, item) => put key item entries) []

/-- Keys strictly increase in byte order. -/
def Sorted (entries : List (String × α)) : Prop :=
  entries.Pairwise fun a b => KeyBefore a.1 b.1

end Entries

end ChainQuery
