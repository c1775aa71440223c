import ChainQuery.Hex
import ChainQuery.Sha256
import ChainQuery.Term

/-! # Fingerprints — a stable name for a term

    A term is written as bytes in a tagged form that can be read back:
    every node starts with its tag, lists and maps with their length,
    strings with their size.  The fingerprint is the digest of that form
    under a prefix of its own. -/

namespace ChainQuery

/-! ## Canonical bytes -/

namespace Canonical

/-- A count as four bytes, the most significant first, modulo
    `2 ^ 32`. -/
def count (n : Nat) : List UInt8 :=
  [24, 16, 8, 0].map fun place => UInt8.ofNat (n >>> place)

/-- The bits of a number as eight bytes, the most significant first. -/
def bits (x : Binary64) : List UInt8 :=
  [56, 48, 40, 32, 24, 16, 8, 0].map fun place =>
    UInt8.ofNat (x.bits.toNat >>> place)

/-- A kind as the two bytes of its tag. -/
def kind (k : Term.Kind) : List UInt8 :=
  [UInt8.ofNat (k.tag >>> 8), UInt8.ofNat k.tag]

/-- A string: its size in bytes, then its UTF-8 bytes. -/
def string (s : String) : List UInt8 :=
  count (utf8 s).length ++ utf8 s

mutual

/-- The bytes of a datum. -/
def datum : Datum → List UInt8
  | .null => [0x10]
  | .bool b => [0x11, if b then 1 else 0]
  | .number x => 0x12 :: bits x
  | .string s => 0x13 :: string s
  | .array items => 0x14 :: (count items.length ++ datums items)
  | .object entries => 0x15 :: (count entries.length ++ members entries)
termination_by structural d => d

/-- The bytes of array items, one after another. -/
def datums : List Datum → List UInt8
  | [] => []
  | d :: ds => datum d ++ datums ds
termination_by structural ds => ds

/-- The bytes of object entries, one after another. -/
def members : List (String × Datum) → List UInt8
  | [] => []
  | (key, d) :: rest => string key ++ datum d ++ members rest
termination_by structural es => es

end

mutual

/-- The bytes of a term. -/
def term : Term → List UInt8
  | .datum d => 0x01 :: datum d
  | .apply k args optargs =>
      0x02 :: (kind k ++ count args.length ++ terms args
        ++ count optargs.length ++ named optargs)
termination_by structural t => t

/-- The bytes of positional arguments, one after another. -/
def terms : List Term → List UInt8
  | [] => []
  | t :: ts => term t ++ terms ts
termination_by structural ts => ts

/-- The bytes of named arguments, one after another. -/
def named : List (String × Term) → List UInt8
  | [] => []
  | (name, t) :: rest => string name ++ term t ++ named rest
termination_by structural es => es

end

end Canonical

/-! ## Fingerprints -/

namespace Term

/-- What is digested before the bytes of the term. -/
def fingerprintDomain : List UInt8 :=
  utf8 "termfp:v1"

/-- The fingerprint of a term. -/
def fingerprint (t : Term) : List UInt8 :=
  Sha256.digest (fingerprintDomain ++ Canonical.term t)

/-- A fingerprint in hexadecimal. -/
def fingerprintText (t : Term) : String :=
  String.ofList (Hex.ofBytes t.fingerprint)

end Term

end ChainQuery
