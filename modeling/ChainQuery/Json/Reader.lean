import ChainQuery.Hex
import ChainQuery.Json.Number

/-! # Reading JSON

    Every reader takes characters off the front of a list and answers
    what it read together with the rest.  The document reader counts down
    fuel, of which a document never needs more than two for each
    character. -/

namespace ChainQuery.Json

/-! ## Blanks and digits -/

/-- Blanks between tokens. -/
def isBlank (c : Char) : Bool :=
  c == ' ' || c == '\n' || c == '\t' || c == '\r'

/-- Leave out leading blanks. -/
def skipBlanks (cs : List Char) : List Char :=
  cs.dropWhile isBlank

/-- The digits at the front, at least one. -/
def scanDigits (cs : List Char) : Option (List Char × List Char) :=
  match cs.takeWhile Char.isDigit with
  | [] => none
  | ds => some (ds, cs.dropWhile Char.isDigit)

/-! ## Numbers -/

/-- Digits before the point: a zero stands alone. -/
def scanWhole (cs : List Char) : Option (List Char × List Char) :=
  match scanDigits cs with
  | some ('0' :: _ :: _, _) => none
  | scanned => scanned

/-- Digits after a point, if there is one. -/
def scanFraction : List Char → Option (List Char × List Char)
  | '.' :: cs => scanDigits cs
  | cs => some ([], cs)

/-- Sign and digits after the mark of an exponent. -/
def scanSigned (cs : List Char) :
    Option ((Bool × List Char) × List Char) :=
  match cs with
  | '-' :: cs => (scanDigits cs).map fun (ds, rest) => ((true, ds), rest)
  | '+' :: cs => (scanDigits cs).map fun (ds, rest) => ((false, ds), rest)
  | cs => (scanDigits cs).map fun (ds, rest) => ((false, ds), rest)

/-- An exponent, if there is one. -/
def scanExponent (cs : List Char) :
    Option (Option (Bool × List Char) × List Char) :=
  match cs with
  | 'e' :: cs => (scanSigned cs).map fun (e, rest) => (some e, rest)
  | 'E' :: cs => (scanSigned cs).map fun (e, rest) => (some e, rest)
  | cs => some (none, cs)

/-- A number without its sign. -/
def scanUnsigned (negative : Bool) (cs : List Char) :
    Option (Number × List Char) := do
  let (whole, cs) ← scanWhole cs
  let (fraction, cs) ← scanFraction cs
  let (exponent, cs) ← scanExponent cs
  return (⟨negative, whole, fraction, exponent⟩, cs)

/-- A number. -/
def scanNumber : List Char → Option (Number × List Char)
  | '-' :: cs => scanUnsigned true cs
  | cs => scanUnsigned false cs

/-! ## Strings -/

/-- The character of an escape by letter. -/
def escaped? (c : Char) : Option Char :=
  if c = '"' then some '"'
  else if c = '\\' then some '\\'
  else if c = '/' then some '/'
  else if c = 'b' then some '\x08'
  else if c = 'f' then some '\x0c'
  else if c = 'n' then some '\n'
  else if c = 'r' then some '\r'
  else if c = 't' then some '\t'
  else none

/-- The code units up to the closing quote.  A character that stands for
    itself is one unit; an escape by number is one, which may be half of
    a surrogate pair. -/
def scanUnits : List Char → Option (List Nat × List Char)
  | '"' :: rest => some ([], rest)
  | '\\' :: 'u' :: a :: b :: c :: d :: rest => do
      let unit ← Hex.toNat? [a, b, c, d]
      let (units, rest) ← scanUnits rest
      return (unit :: units, rest)
  | '\\' :: c :: rest => do
      let c ← escaped? c
      let (units, rest) ← scanUnits rest
      return (c.toNat :: units, rest)
  | c :: rest =>
      if c.toNat < 32 ∨ c = '\\' then none
      else do
        let (units, rest) ← scanUnits rest
        return (c.toNat :: units, rest)
  | [] => none

/-- Whether a unit is the first half of a surrogate pair. -/
def isHighHalf (unit : Nat) : Bool :=
  0xd800 ≤ unit && unit < 0xdc00

/-- Whether a unit is the second half of a surrogate pair. -/
def isLowHalf (unit : Nat) : Bool :=
  0xdc00 ≤ unit && unit < 0xe000

/-- The characters of code units, halves joined in pairs. -/
def charsOfUnits? : List Nat → Option (List Char)
  | [] => some []
  | [unit] =>
      if isHighHalf unit || isLowHalf unit then none
      else some [Char.ofNat unit]
  | unit :: next :: rest =>
      if isLowHalf unit then none
      else if isHighHalf unit then
        if isLowHalf next then
          (charsOfUnits? rest).map fun cs =>
            Char.ofNat (0x10000 + (unit - 0xd800) * 0x400
              + (next - 0xdc00)) :: cs
        else none
      else (charsOfUnits? (next :: rest)).map fun cs =>
        Char.ofNat unit :: cs

/-- A string after its opening quote. -/
def scanString (cs : List Char) : Option (Text × List Char) :=
  (scanUnits cs).map fun (units, rest) =>
    ((charsOfUnits? units).map String.ofList, rest)

/-! ## Documents -/

/-- Take a word off the front. -/
def expect (word cs : List Char) : Option (List Char) :=
  if word.isPrefixOf cs then some (cs.drop word.length) else none

mutual

/-- A document, after any blanks. -/
def scan : (fuel : Nat) → List Char → Option (Json × List Char)
  | 0, _ => none
  | fuel + 1, cs =>
      match skipBlanks cs with
      | '"' :: cs => do
          let (s, cs) ← scanString cs
          return (.string s, cs)
      | '[' :: cs =>
          match skipBlanks cs with
          | ']' :: cs => some (.array [], cs)
          | cs => do
              let (items, cs) ← scanItems fuel cs
              return (.array items, cs)
      | '\x7b' :: cs =>
          match skipBlanks cs with
          | '\x7d' :: cs => some (.object [], cs)
          | cs => do
              let (members, cs) ← scanMembers fuel cs
              return (.object members, cs)
      | 'n' :: cs =>
          (expect ['u', 'l', 'l'] cs).map fun cs => (.null, cs)
      | 't' :: cs =>
          (expect ['r', 'u', 'e'] cs).map fun cs => (.bool true, cs)
      | 'f' :: cs =>
          (expect ['a', 'l', 's', 'e'] cs).map fun cs => (.bool false, cs)
      | cs => do
          let (n, cs) ← scanNumber cs
          return (.number n, cs)

/-- Array items, at least one, and the closing bracket. -/
def scanItems : (fuel : Nat) → List Char →
    Option (List Json × List Char)
  | 0, _ => none
  | fuel + 1, cs => do
      let (j, cs) ← scan fuel cs
      match skipBlanks cs with
      | ']' :: cs => return ([j], cs)
      | ',' :: cs =>
          let (js, cs) ← scanItems fuel cs
          return (j :: js, cs)
      | _ => none

/-- Object members, at least one, and the closing brace. -/
def scanMembers : (fuel : Nat) → List Char →
    Option (List (Text × Json) × List Char)
  | 0, _ => none
  | fuel + 1, cs =>
      match skipBlanks cs with
      | '"' :: cs => do
          let (key, cs) ← scanString cs
          match skipBlanks cs with
          | ':' :: cs =>
              let (j, cs) ← scan fuel cs
              match skipBlanks cs with
              | '\x7d' :: cs => return ([(key, j)], cs)
              | ',' :: cs =>
                  let (members, cs) ← scanMembers fuel cs
                  return ((key, j) :: members, cs)
              | _ => none
          | _ => none
      | _ => none

end

/-- The document a text is; blanks around it are allowed and nothing
    else. -/
def ofText? (text : String) : Option Json := do
  let cs := text.toList
  let (j, rest) ← scan (2 * cs.length + 2) cs
  match skipBlanks rest with
  | [] => return j
  | _ => none

end ChainQuery.Json
