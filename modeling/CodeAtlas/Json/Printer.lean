import CodeAtlas.Json.Basic

/-!
# Writing JSON

On one line without any white space (`Json.compress`), or spread over lines with
two spaces for each level (`Json.pretty`). In strings only quotes, backslashes and
control characters are escaped.
-/

namespace CodeAtlas.Json

/-- A digit of a hexadecimal number, in lower case. -/
def hexDigit (n : Nat) : Char :=
  if n < 10 then Char.ofNat (0x30 + n) else Char.ofNat (0x57 + n)

/-- A character as it is written in a string. -/
def escapeChar (c : Char) : List Char :=
  if c == '"' then ['\\', '"']
  else if c == '\\' then ['\\', '\\']
  else if c == '\n' then ['\\', 'n']
  else if c == '\r' then ['\\', 'r']
  else if c == '\t' then ['\\', 't']
  else if c.toNat == 0x08 then ['\\', 'b']
  else if c.toNat == 0x0C then ['\\', 'f']
  else if c.toNat < 0x20 then
    ['\\', 'u', '0', '0', hexDigit (c.toNat / 16), hexDigit (c.toNat % 16)]
  else [c]

/-- A string in quotes. -/
def quote (s : List Char) : List Char :=
  '"' :: s.flatMap escapeChar ++ ['"']

/-- The digits of a number. -/
def digits (n : Nat) : List Char :=
  Nat.toDigits 10 n

mutual

/-- A value on one line. -/
def compressChars : Json → List Char
  | .null => ['n', 'u', 'l', 'l']
  | .bool true => ['t', 'r', 'u', 'e']
  | .bool false => ['f', 'a', 'l', 's', 'e']
  | .nat n => digits n
  | .negative n => '-' :: digits n
  | .decimal s => s.toList
  | .str s => quote s.toList
  | .arr items => '[' :: compressItems items ++ [']']
  | .obj members => '\x7b' :: compressMembers members ++ ['\x7d']

/-- The items of an array, with commas between them. -/
def compressItems : List Json → List Char
  | [] => []
  | [item] => compressChars item
  | item :: items => compressChars item ++ ',' :: compressItems items

/-- The members of an object, with commas between them. -/
def compressMembers : List (String × Json) → List Char
  | [] => []
  | [(key, value)] => quote key.toList ++ ':' :: compressChars value
  | (key, value) :: members =>
    quote key.toList ++ ':' :: compressChars value ++ ',' :: compressMembers members

end

/-- The start of a line at the given level. -/
def newLine (level : Nat) : List Char :=
  '\n' :: List.replicate (2 * level) ' '

mutual

/-- A value over several lines, from the given level on. -/
def prettyChars (level : Nat) : Json → List Char
  | .arr [] => ['[', ']']
  | .arr (item :: items) =>
    '[' :: prettyItems (level + 1) (item :: items) ++ newLine level ++ [']']
  | .obj [] => ['\x7b', '\x7d']
  | .obj (member :: members) =>
    '\x7b' :: prettyMembers (level + 1) (member :: members) ++ newLine level ++ ['\x7d']
  | .null => ['n', 'u', 'l', 'l']
  | .bool true => ['t', 'r', 'u', 'e']
  | .bool false => ['f', 'a', 'l', 's', 'e']
  | .nat n => digits n
  | .negative n => '-' :: digits n
  | .decimal s => s.toList
  | .str s => quote s.toList

/-- The items of an array, each on lines of its own. -/
def prettyItems (level : Nat) : List Json → List Char
  | [] => []
  | [item] => newLine level ++ prettyChars level item
  | item :: items => newLine level ++ prettyChars level item ++ ',' :: prettyItems level items

/-- The members of an object, each on lines of its own. -/
def prettyMembers (level : Nat) : List (String × Json) → List Char
  | [] => []
  | [(key, value)] => newLine level ++ quote key.toList ++ ':' :: ' ' :: prettyChars level value
  | (key, value) :: members =>
    newLine level ++ quote key.toList ++ ':' :: ' ' :: prettyChars level value ++
      ',' :: prettyMembers level members

end

/-- The value on one line. -/
def compress (j : Json) : String :=
  String.ofList (compressChars j)

/-- The value over several lines. -/
def pretty (j : Json) : String :=
  String.ofList (prettyChars 0 j)

end CodeAtlas.Json
