import CodeAtlas.Markdown.Margin

/-!
# Tables

A table is a line with pipes over a line of hyphens and pipes that has as many
columns.
-/

namespace CodeAtlas.Markdown

open Text

/-- What stands behind each pipe of a line that no backslash escapes. -/
def pipeTails : List Char → List (List Char)
  | [] => []
  | '\\' :: c :: s => if isAsciiPunctuation c then pipeTails s else pipeTails (c :: s)
  | c :: s => if c == '|' then s :: pipeTails s else pipeTails s

/-- What stands behind each pipe of a line that does not follow a backslash. -/
def barePipeTails (escaped : Bool) : List Char → List (List Char)
  | [] => []
  | c :: s =>
    if c == '|' && !escaped then s :: barePipeTails false s else barePipeTails (c == '\\') s

/-- The number of columns of the header of a table, given what stands behind each
    pipe of its line. Pipes at the ends of the line divide no columns. -/
def headerColumns (line : List Char) (tails : List (List Char)) : Nat :=
  let leading := (line.dropWhile isGap).head? == some '|'
  let trailing := tails.getLast?.any fun tail => (blankLine? tail).isSome
  (if leading then tails.length - 1 else tails.length) + if trailing then 0 else 1

/-- Counts the columns of the line below the header of a table: `found` tells
    whether a hyphen stands in the current one, and `fresh` that nothing does. -/
def delimiterColumns? (columns : Nat) (found fresh : Bool) : List Char → Option Nat
  | [] => some (if fresh then columns else columns + 1)
  | c :: s =>
    if c == ' ' then delimiterColumns? columns found fresh s
    else if c == ':' then delimiterColumns? columns found false s
    else if c == '-' then delimiterColumns? columns true false s
    else if c == '|' && found then delimiterColumns? (columns + 1) false true s
    else none

/-- The line that a text starts with, without its end. -/
def lineOf (s : List Char) : List Char :=
  s.takeWhile fun c => c != '\n' && c != '\r'

/-- The number of columns that the line below the header of a table has. -/
def delimiterRow? (s : List Char) : Option Nat :=
  let (indent, m) := (Margin.ofLine s).spacesUpTo 4
  let line := lineOf m.rest
  if indent > 3 || m.rest.isEmpty || !line.contains '|' || !line.contains '-' then none
  else delimiterColumns? 0 false true (dropLead ['|'] line)

end CodeAtlas.Markdown
