import CodeAtlas.Markdown.Margin
import CodeAtlas.Text.Digit

/-!
# The marks of blocks

Most blocks show by a mark at the start of their first line: thematic breaks, headings,
fenced code, metadata and list items. Each function tells whether a text starts with
such a mark, and how long it is.
-/

namespace CodeAtlas.Markdown

open Text

/-- Counts the characters `c` of a line that holds nothing else but white space;
    the length of the line goes along. -/
def countMarks (c : Char) (marks length : Nat) : List Char → Option (Nat × Nat)
  | [] => some (marks, length)
  | d :: s =>
    if d == '\n' || d == '\r' then some (marks, length + ((lineEnd? (d :: s)).getD 0))
    else if d == c then countMarks c (marks + 1) (length + 1) s
    else if d == ' ' || d == '\t' then countMarks c marks (length + 1) s
    else none

/-- A thematic break: at least three of one mark on a line; the length of the
    line. -/
def rule? (s : List Char) : Option Nat :=
  match s with
  | c :: _ :: _ :: _ =>
    if c == '*' || c == '-' || c == '_' then
      match countMarks c 0 0 s with
      | some (marks, length) => if 3 ≤ marks then some length else none
      | none => none
    else none
  | _ => none

/-- The level of a heading that starts with number signs. -/
def headingLevel? (s : List Char) : Option Nat :=
  let level := runOf (· == '#') s
  let closed := match s.drop level with
    | [] => true
    | c :: _ => isWhite c
  if 1 ≤ level && level ≤ 6 && closed then some level else none

/-- A line of equals signs or hyphens below a heading: its length and the level. -/
def underline? (s : List Char) : Option (Nat × Nat) :=
  match s with
  | c :: _ =>
    if c == '=' || c == '-' then
      let marks := runOf (· == c) s
      (blankLine? (s.drop marks)).map fun n => (marks + n, if c == '=' then 1 else 2)
    else none
  | [] => none

/-- A fence of code: its length and its mark. -/
def fence? (s : List Char) : Option (Nat × Char) :=
  match s with
  | c :: _ =>
    let n := runOf (· == c) s
    let info := (s.drop n).take (throughLine (s.drop n))
    if (c == '\x60' || c == '~') && 3 ≤ n && !(c == '\x60' && info.contains '\x60') then some (n, c)
    else none
  | [] => none

/-- The length of a line that closes a fence of `n` marks `c`, without its end. -/
def closingFence? (c : Char) (n : Nat) (s : List Char) : Option Nat :=
  if s.isEmpty then some 0
  else
    let marks := runOf (· == c) s
    let gap := runOf (· == ' ') (s.drop marks)
    if n ≤ marks && (lineEnd? (s.drop (marks + gap))).isSome then some (marks + gap) else none

/-! ## Metadata -/

/-- The length of a line that closes metadata, without its end. -/
def closingMetadata? (s : List Char) : Option Nat :=
  let marks := if runOf (· == '-') s = 3 then 3 else if runOf (· == '.') s = 3 then 3 else 0
  let gap := runOf (· == ' ') (s.drop marks)
  if marks = 3 && (lineEnd? (s.drop (marks + gap))).isSome then some (marks + gap) else none

/-- Whether a line that closes metadata starts at one of the lines of a text. -/
def metadataCloses : Nat → List Char → Bool
  | 0, _ => false
  | n + 1, s =>
    if s.isEmpty then false
    else (closingMetadata? s).isSome || metadataCloses n (s.drop (throughLine s))

/-- Whether metadata starts here: three hyphens on a line, a line that is neither
    blank nor closes it, and further on one that does. -/
def opensMetadata (s : List Char) : Bool :=
  let marks := runOf (· == '-') s
  let first := (s.drop marks).take (throughLine (s.drop marks))
  let rest := (s.drop marks).drop first.length
  marks = 3 && first.all (fun c => isWhite c && c != '\x0b') &&
    (closingMetadata? rest).isNone && (blankLine? rest).isNone &&
    metadataCloses (rest.length + 1) rest

/-! ## Lists -/

/-- The mark of a list: the character that tells lists apart, and the number. -/
structure ListMark where
  char : Char
  number : Nat
  deriving DecidableEq, Repr

/-- A bullet or a number of at most nine digits with its sign; the length goes
    along. -/
def bareMark? (s : List Char) : Option (ListMark × Nat) :=
  match s with
  | [] => none
  | c :: _ =>
    if c == '-' || c == '+' || c == '*' then some (⟨c, 0⟩, 1)
    else
      let digits := (s.take 9).takeWhile Char.isDigit
      match s.drop digits.length with
      | d :: _ =>
        if !digits.isEmpty && (d == '.' || d == ')') then
          some (⟨d, decimalValue digits⟩, digits.length + 1)
        else none
      | [] => none

/-- The mark of an item that starts here behind `indent` columns: the mark, how far
    its content is indented, and the place where it starts. -/
def Margin.item? (m : Margin) (indent : Nat) : Option (ListMark × Nat × Margin) := do
  let (mark, length) ← bareMark? m.rest
  if length = 1 && (rule? m.rest).isSome then none
  else
    let after := m.skip length
    let after ← match after.spaces? 1 with
      | some after => some after
      | none => if after.atEnd then some after else none
    let indent := indent + length + 1
    if (blankLine? after.rest).isSome then return (mark, indent, after)
    else
      let (columns, deeper) := after.spacesUpTo 4
      return if columns < 4 then (mark, indent + columns, deeper) else (mark, indent, after)

/-- Whether an item starts here that may interrupt a paragraph: with a bullet or the
    number one, and not followed by two blank lines. -/
def interruptsAsItem (anyItem : Bool) (s : List Char) : Bool :=
  match bareMark? s with
  | none => false
  | some (mark, length) =>
    let rest := s.drop length
    let gap := runOf (fun c => c == ' ' || c == '\t') rest
    let follows := gap > 0 || (lineEnd? rest).isSome
    let empty := match blankLine? rest with
      | some n => (blankLine? (rest.drop n)).isSome
      | none => false
    follows && (anyItem || ((length = 1 || mark.number = 1) && !empty))

end CodeAtlas.Markdown
