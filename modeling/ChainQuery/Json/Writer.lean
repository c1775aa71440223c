import ChainQuery.Hex
import ChainQuery.Json.Number

/-! # Writing JSON

    Documents are written without blanks.  In strings, quotes,
    backslashes and control characters are escaped, the common ones by a
    letter; everything else stands for itself. -/

namespace ChainQuery.Json

/-- A character inside a string. -/
def escape (c : Char) : List Char :=
  if c = '"' then ['\\', '"']
  else if c = '\\' then ['\\', '\\']
  else if c = '\x08' then ['\\', 'b']
  else if c = '\t' then ['\\', 't']
  else if c = '\n' then ['\\', 'n']
  else if c = '\x0c' then ['\\', 'f']
  else if c = '\r' then ['\\', 'r']
  else if c.toNat < 32 then
    '\\' :: 'u' :: '0' :: '0' :: Hex.ofBytes [UInt8.ofNat c.toNat]
  else [c]

/-- A string between quotes. -/
def quote (s : String) : List Char :=
  '"' :: (s.toList.flatMap escape ++ ['"'])

mutual

/-- The characters of a document.  A string that is not text has no
    written form of its own and is written empty. -/
def render : Json → List Char
  | .null => ['n', 'u', 'l', 'l']
  | .bool true => ['t', 'r', 'u', 'e']
  | .bool false => ['f', 'a', 'l', 's', 'e']
  | .number n => n.render
  | .string s => quote (s.getD "")
  | .array [] => ['[', ']']
  | .array (j :: js) => '[' :: (render j ++ renderItems js)
  | .object [] => ['\x7b', '\x7d']
  | .object ((key, j) :: members) =>
      '\x7b' :: (quote (key.getD "") ++ ':' :: (render j
        ++ renderMembers members))
termination_by structural j => j

/-- Items after the first, and the end of the array. -/
def renderItems : List Json → List Char
  | [] => [']']
  | j :: js => ',' :: (render j ++ renderItems js)
termination_by structural js => js

/-- Members after the first, and the end of the object. -/
def renderMembers : List (Text × Json) → List Char
  | [] => ['\x7d']
  | (key, j) :: members =>
      ',' :: (quote (key.getD "") ++ ':' :: (render j
        ++ renderMembers members))
termination_by structural members => members

end

/-- A document as a string. -/
def toText (j : Json) : String :=
  String.ofList j.render

end ChainQuery.Json
