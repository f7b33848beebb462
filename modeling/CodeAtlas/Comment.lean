import CodeAtlas.Grammar.Tree
import CodeAtlas.Text.Blank

/-!
# The text of comments

`clean` takes the marks off a comment: two slashes or a hash before each line, or
the frame of a block with its column of asterisks. What documents a node is the
cleaned text of the comments directly above it (`docOf`).
-/

namespace CodeAtlas.Comment

open Text

/-- A line of a block without the asterisk in front and one space behind that. -/
def blockLine (line : List Char) : List Char :=
  trimEnd (dropLead [' '] (dropLead ['*'] (trim line)))

/-- A line comment without its mark and one space behind that. -/
def markedLine (line : List Char) : List Char :=
  let line := trim line
  let body := match strip? ['/', '/'] line with
    | some rest => rest
    | none => dropLead ['#'] line
  trimEnd (dropLead [' '] body)

/-- The lines, joined again, without white space around them. -/
def rejoin (ls : List (List Char)) : List Char :=
  trim (joinWith ['\n'] ls)

/-- The text of a comment without its marks. -/
def cleanChars (s : List Char) : List Char :=
  let s := trim s
  match strip? ['/', '*'] s with
  | some inner =>
    rejoin ((lines (dropLead ['*'] (dropTail ['*', '/'] inner))).map blockLine)
  | none => rejoin ((lines s).map markedLine)

/-- The text of a comment without its marks. -/
def clean (s : String) : String :=
  String.ofList (cleanChars s.toList)

open Grammar in
/-- The documentation of a node: what the comments directly above it say. -/
def docOf {κ : Type} (isComment : ParseTree κ → Bool) (source : Source) (s : Sited κ) : String :=
  trimString (joinStrings "\n" ((leadingComments isComment s).map fun c => clean (c.text source)))

end CodeAtlas.Comment
