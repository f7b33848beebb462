import CodeAtlas.Text.Blank
import CodeAtlas.Text.Letter

/-!
# Words in a text

Names start with a letter of ASCII or an underscore and go on with any character
that words are made of (`name?`). `findAll` goes through a text and lists what a
pattern finds, without overlaps.
-/

namespace CodeAtlas.Text

/-- A character that names start with. -/
def isNameStart (c : Char) : Bool :=
  c.isAlpha || c == '_'

/-- The name that a text starts with, and the rest. -/
def name? : List Char → Option (List Char × List Char)
  | [] => none
  | c :: s =>
    if isNameStart c then some (c :: s.takeWhile isWordChar, s.dropWhile isWordChar) else none

/-- The rest of a text that starts with white space, behind that. -/
def afterBlank? : List Char → Option (List Char)
  | [] => none
  | c :: s => if isBlank c then some (trimStart s) else none

/-- Whether a word starts or ends between the characters `before`, last one first,
    and the text behind them. -/
def atBoundary (before : List Char) (s : List Char) : Bool :=
  (before.head?.any isWordChar) != (s.head?.any isWordChar)

/-- What a pattern finds in a text: its value, and how many characters it takes. -/
abbrev Pattern (α : Type) := List Char → List Char → Option (α × Nat)

/-- Goes through a text; `skip` characters belong to what was found last, and
    `before` are those passed, last one first. -/
def findAllFrom {α : Type} (pattern : Pattern α) (skip : Nat) (before : List Char) :
    List Char → List α
  | [] => []
  | c :: s =>
    match skip with
    | n + 1 => findAllFrom pattern n (c :: before) s
    | 0 =>
      match pattern before (c :: s) with
      | some (a, n) => a :: findAllFrom pattern (n - 1) (c :: before) s
      | none => findAllFrom pattern 0 (c :: before) s

/-- All that a pattern finds in a text, from left to right and without overlaps. -/
def findAll {α : Type} (pattern : Pattern α) (s : List Char) : List α :=
  findAllFrom pattern 0 [] s

end CodeAtlas.Text
