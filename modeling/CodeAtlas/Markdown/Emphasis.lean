import CodeAtlas.Text.Blank
import CodeAtlas.Text.Punctuation

/-!
# Emphasis

Runs of asterisks, underscores and tildes open and close emphasised text. Whether a
run may open or close depends on the characters around it (`canOpen`, `canClose`). A
closing run is paired with the last open run of the same character that fits, and
takes off as many marks as the shorter of the two has; what is left over stays as
text (`emphasised`).
-/

namespace CodeAtlas.Markdown

open Text

/-- A run of one mark. -/
structure Run where
  mark : Char
  /-- How many marks the run was written with. -/
  length : Nat
  /-- How many of them are not yet used up. -/
  count : Nat
  opens : Bool
  closes : Bool

/-- A piece of text: one that is read, or a run of marks. -/
inductive Piece
  | text (s : List Char)
  | run (r : Run)

/-- Whether a run of `length` marks between `prev` and `next` may open. -/
def canOpen (mark : Char) (length : Nat) (prev next : Option Char) : Bool :=
  match next with
  | none => false
  | some next =>
    if isBlank next then false
    else
      match prev with
      | none => true
      | some prev =>
        (mark == '*' && !isPunctuation next) || (mark == '~' && length > 1) ||
          (mark == '~' && prev == '~' && !isPunctuation next) || isBlank prev || isPunctuation prev

/-- Whether a run of `length` marks between `prev` and `next` may close. -/
def canClose (mark : Char) (length : Nat) (prev next : Option Char) : Bool :=
  match prev with
  | none => false
  | some prev =>
    if isBlank prev then false
    else
      match next with
      | none => true
      | some next =>
        ((mark == '*' || (mark == '~' && length > 1)) && !isPunctuation prev) ||
          (mark == '~' && prev == '~') || isBlank next || isPunctuation next

/-- Whether the closing run `r` may be paired with the open run `o`. -/
def Run.pairsWith (r o : Run) : Bool :=
  o.mark == r.mark && !(r.mark == '~' && r.length != o.length) &&
    ((!(r.opens && r.closes) && !(o.opens && o.closes)) || (r.length + o.length) % 3 != 0 ||
      r.length % 3 == 0)

/-- An open run with the text that follows it, last piece first. -/
structure OpenRun where
  run : Run
  after : List (List Char)

/-- The runs that are open, innermost first, and the text before the outermost. The
    tildes of runs at a depth below `bound` are out of reach. -/
structure Openings where
  runs : List OpenRun := []
  before : List (List Char) := []
  bound : Nat := 0

namespace Openings

/-- Adds text behind everything else. -/
def add (o : Openings) (s : List Char) : Openings :=
  match o.runs with
  | [] => { o with before := s :: o.before }
  | r :: rest => { o with runs := { r with after := s :: r.after } :: rest }

/-- The text of an open run that stays as it is, and of what follows it, last piece
    first. -/
def OpenRun.plain (r : OpenRun) : List (List Char) :=
  r.after ++ [List.replicate r.run.count r.run.mark]

/-- Looks for the innermost run that `r` may be paired with. Its result is that run
    with all text behind it, and the runs around it. -/
def find? (r : Run) (bound : Nat) (inner : List (List Char)) :
    List OpenRun → Option (OpenRun × List OpenRun)
  | [] => none
  | o :: rest =>
    if r.mark == '~' && rest.length < bound then none
    else if r.pairsWith o.run then some ({ o with after := inner ++ o.after }, rest)
    else find? r bound (inner ++ OpenRun.plain o) rest

/-- Pairs a closing run with open ones for as long as there are any; the marks that
    are left over are the second component. -/
def close (r : Run) : Nat → Openings → Openings × Nat
  | 0, o => (o, r.count)
  | fuel + 1, o =>
    match find? r (min o.bound o.runs.length) [] o.runs with
    | none => (if r.mark == '~' then { o with bound := o.runs.length } else o, r.count)
    | some (found, rest) =>
      let used := min r.count found.run.count
      let outer : Openings := { o with runs := rest, bound := min o.bound rest.length }
      let outer :=
        if found.run.count > used then
          let left := { found.run with count := found.run.count - used }
          { outer with runs := { found with run := left } :: rest }
        else found.after.reverse.foldl add outer
      if r.count = used then (outer, 0)
      else close { r with count := r.count - used } fuel outer

/-- Takes one piece. -/
def take (o : Openings) : Piece → Openings
  | .text s => o.add s
  | .run r =>
    let (o, left) := if r.closes then close r (o.runs.length + r.count + 1) o else (o, r.count)
    if left = 0 then o
    else if r.opens then { o with runs := ⟨{ r with count := left }, []⟩ :: o.runs }
    else o.add (List.replicate left r.mark)

/-- The text of all there is. -/
def text (o : Openings) : List Char :=
  ((o.runs.flatMap OpenRun.plain) ++ o.before).reverse.flatten

end Openings

/-- The text of some pieces, without the marks that emphasise parts of it. -/
def emphasised (pieces : List Piece) : List Char :=
  (pieces.foldl Openings.take {}).text

end CodeAtlas.Markdown
