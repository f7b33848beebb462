/-!
# White space and lines

White space is the `White_Space` property of the Unicode standard, so a no-break
space and an ideographic space count, while a zero-width space does not. On it
rest trimming, splitting into words and the collapsed form of a text
(`collapse`), in which every run of white space is one space.

Lines end at a line feed only; a carriage return directly before it belongs to
the line's end (`lines`).
-/

namespace CodeAtlas.Text

/-- White space in the sense of the Unicode standard. -/
def isBlank (c : Char) : Bool :=
  let n := c.toNat
  (0x09 ≤ n && n ≤ 0x0D) || n == 0x20 || n == 0x85 || n == 0xA0 || n == 0x1680 ||
    (0x2000 ≤ n && n ≤ 0x200A) || n == 0x2028 || n == 0x2029 || n == 0x202F ||
    n == 0x205F || n == 0x3000

/-- The text without the white space it starts with. -/
def trimStart (s : List Char) : List Char :=
  s.dropWhile isBlank

/-- The text without the characters satisfying `p` it ends with. -/
def dropEnd (p : Char → Bool) (s : List Char) : List Char :=
  (s.reverse.dropWhile p).reverse

/-- The text without the white space it ends with. -/
def trimEnd (s : List Char) : List Char :=
  dropEnd isBlank s

/-- The text without the white space at either end. -/
def trim (s : List Char) : List Char :=
  trimEnd (trimStart s)

/-- Cuts a text at white space; `word` is the word being read, last character
    first. -/
def wordsFrom (word : List Char) : List Char → List (List Char)
  | [] => if word.isEmpty then [] else [word.reverse]
  | c :: s =>
    if isBlank c then
      if word.isEmpty then wordsFrom [] s else word.reverse :: wordsFrom [] s
    else wordsFrom (c :: word) s

/-- The maximal runs of characters that are not white space. -/
def words (s : List Char) : List (List Char) :=
  wordsFrom [] s

/-- Joins the pieces, with `sep` between any two neighbours. -/
def joinWith (sep : List Char) : List (List Char) → List Char
  | [] => []
  | [piece] => piece
  | piece :: rest => piece ++ sep ++ joinWith sep rest

/-- Every run of white space becomes one space, none stays at the ends. -/
def collapse (s : List Char) : List Char :=
  joinWith [' '] (words s)

/-- Cuts a text at every character satisfying `p`; `piece` is the piece being
    read, last character first. -/
def splitFrom (p : Char → Bool) (piece : List Char) : List Char → List (List Char)
  | [] => [piece.reverse]
  | c :: s => if p c then piece.reverse :: splitFrom p [] s else splitFrom p (c :: piece) s

/-- The pieces between the characters satisfying `p`, one more than there are
    such characters. -/
def splitOn (p : Char → Bool) (s : List Char) : List (List Char) :=
  splitFrom p [] s

/-- A line read backwards, without the carriage return it ends with. -/
def dropReturn : List Char → List Char
  | '\r' :: s => s
  | s => s

/-- Cuts a text into lines; `line` is the line being read, last character
    first. -/
def linesFrom (line : List Char) : List Char → List (List Char)
  | [] => if line.isEmpty then [] else [line.reverse]
  | c :: s =>
    if c == '\n' then (dropReturn line).reverse :: linesFrom [] s else linesFrom (c :: line) s

/-- The lines of a text, without their ends. A line feed at the end of the text
    starts no further line, and a carriage return counts as part of a line's end
    only before a line feed. -/
def lines (s : List Char) : List (List Char) :=
  linesFrom [] s

/-- The rest of `s` after the text `lead`, if `s` starts with it. -/
def strip? : List Char → List Char → Option (List Char)
  | [], s => some s
  | _ :: _, [] => none
  | c :: lead, d :: s => if c == d then strip? lead s else none

/-- The part of `s` before the text `tail`, if `s` ends with it. -/
def stripEnd? (tail s : List Char) : Option (List Char) :=
  (strip? tail.reverse s.reverse).map List.reverse

/-- `s` without the text `lead` at its start, or `s` itself. -/
def dropLead (lead s : List Char) : List Char :=
  (strip? lead s).getD s

/-- `s` without the text `tail` at its end, or `s` itself. -/
def dropTail (tail s : List Char) : List Char :=
  (stripEnd? tail s).getD s

/-- What stands before and after the first place where `sep` occurs. -/
def cutAt? (sep : List Char) : List Char → Option (List Char × List Char)
  | [] => if sep.isEmpty then some ([], []) else none
  | c :: s =>
    match strip? sep (c :: s) with
    | some rest => some ([], rest)
    | none => (cutAt? sep s).map fun (before, after) => (c :: before, after)

/-- What stands after the last character equal to `c`, or all of `s`. -/
def afterLast (c : Char) (s : List Char) : List Char :=
  (s.reverse.takeWhile (· != c)).reverse

end CodeAtlas.Text

namespace CodeAtlas

/-! ## The same on strings -/

/-- Joins the strings, with `sep` between any two neighbours. -/
def joinStrings (sep : String) : List String → String
  | [] => ""
  | [piece] => piece
  | piece :: rest => piece ++ sep ++ joinStrings sep rest

/-- Every run of white space becomes one space, none stays at the ends. -/
def collapseString (s : String) : String :=
  String.ofList (Text.collapse s.toList)

/-- The string without the white space at either end. -/
def trimString (s : String) : String :=
  String.ofList (Text.trim s.toList)

end CodeAtlas
