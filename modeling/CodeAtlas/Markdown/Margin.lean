import CodeAtlas.Text.Blank
import CodeAtlas.Text.Punctuation

/-!
# The start of a line

A line of Markdown ends with a line feed, a carriage return or both. What a line
means depends on the columns it is indented by, and a tab reaches to the next column
that is a multiple of four, so it may be used up in parts: `Margin` is a place near
the start of a line that knows how much of a tab is left.
-/

namespace CodeAtlas.Markdown

open Text

/-- White space within a line. -/
def isGap (c : Char) : Bool :=
  c == ' ' || c == '\t' || c == '\x0b' || c == '\x0c'

/-- White space of ASCII. -/
def isWhite (c : Char) : Bool :=
  isGap c || c == '\n' || c == '\r'

/-- The length of the line end that a text starts with; the end of the text is one
    without length. -/
def lineEnd? : List Char → Option Nat
  | [] => some 0
  | '\r' :: '\n' :: _ => some 2
  | '\n' :: _ | '\r' :: _ => some 1
  | _ => none

/-- How many characters a text starts with that satisfy `p`. -/
def runOf (p : Char → Bool) (s : List Char) : Nat :=
  (s.takeWhile p).length

/-- The length of a blank line, its end included. -/
def blankLine? (s : List Char) : Option Nat :=
  let gap := runOf isGap s
  (lineEnd? (s.drop gap)).map (gap + ·)

/-- How many characters stand up to and including the next line feed. -/
def throughLine : List Char → Nat
  | [] => 0
  | c :: s => if c == '\n' then 1 else throughLine s + 1

/-- A place near the start of a line: the rest of the text, how many characters were
    passed, how many of them since the last tab, and how many columns of a tab are
    not used up. -/
structure Margin where
  rest : List Char
  passed : Nat := 0
  sinceTab : Nat := 0
  pending : Nat := 0

namespace Margin

/-- The start of a line. -/
def ofLine (s : List Char) : Margin := { rest := s }

/-- Uses up to `n` columns of white space; those that are missing are the first
    component. -/
def eatFrom (passed sinceTab n : Nat) : List Char → Nat × Margin
  | [] => (n, ⟨[], passed, sinceTab, 0⟩)
  | c :: s =>
    if n = 0 then (0, ⟨c :: s, passed, sinceTab, 0⟩)
    else if c == ' ' then eatFrom (passed + 1) (sinceTab + 1) (n - 1) s
    else if c == '\t' then
      let width := 4 - sinceTab % 4
      if n < width then (0, ⟨s, passed + 1, 0, width - n⟩)
      else eatFrom (passed + 1) 0 (n - width) s
    else (n, ⟨c :: s, passed, sinceTab, 0⟩)

/-- Uses up to `n` columns of white space; those that are missing are the first
    component. -/
def eat (m : Margin) (n : Nat) : Nat × Margin :=
  if n ≤ m.pending then (0, { m with pending := m.pending - n })
  else eatFrom m.passed m.sinceTab (n - m.pending) m.rest

/-- The place behind `n` columns of white space, if there are as many. -/
def spaces? (m : Margin) (n : Nat) : Option Margin :=
  match m.eat n with
  | (0, m) => some m
  | _ => none

/-- How many columns of white space there are, up to `n`, and the place behind
    them. -/
def spacesUpTo (m : Margin) (n : Nat) : Nat × Margin :=
  let (missing, m) := m.eat n
  (n - missing, m)

/-- The place behind the character `c`, if it stands here. -/
def char? (m : Margin) (c : Char) : Option Margin :=
  match m.rest with
  | d :: s => if c == d then some ⟨s, m.passed + 1, m.sinceTab + 1, m.pending⟩ else none
  | [] => none

/-- The place `n` characters further on. -/
def skip (m : Margin) (n : Nat) : Margin :=
  { m with rest := m.rest.drop n, passed := m.passed + n, sinceTab := m.sinceTab + n }

/-- The line ends here. -/
def atEnd (m : Margin) : Bool :=
  (lineEnd? m.rest).isSome

/-- The place behind a mark of a quotation and one space. -/
def quote? (m : Margin) : Option Margin :=
  (m.char? '>').map fun m => (m.eat 1).2

end Margin

end CodeAtlas.Markdown
