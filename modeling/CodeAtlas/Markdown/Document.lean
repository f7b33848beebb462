import CodeAtlas.Markdown.Block
import CodeAtlas.Markdown.Inline
import CodeAtlas.Outline
import CodeAtlas.Path

/-!
# Documents

A document is cut at its headings. The section of a heading reaches to the line before
the next heading, without the blank lines at its end, and is summarised by its first
paragraph that shows any text (`sectionsOf`). The titles of the headings around it
lead to a section: the last ones before it of every lower level (`breadcrumbs`). The
first such paragraph before all headings describes the whole document.
-/

namespace CodeAtlas.Markdown

open Text

/-- A heading with the first line of the text below it. -/
structure Heading where
  level : Nat
  /-- The line that the heading starts on. -/
  line : Nat
  title : String
  summary : String := ""

/-- What a document shows: its headings, last one first, and the paragraph before
    them. -/
structure Content where
  headings : List Heading := []
  preamble : String := ""
  preambleSpan : Span := {}

namespace Content

/-- Adds a block, given how its text reads. -/
def add (read : List Char → List Char) (c : Content) : Block → Content
  | .heading level line text tail =>
    let title := String.ofList (trim (read text ++ tail))
    { c with headings := { level, line, title } :: c.headings }
  | .paragraph first last _ text =>
    let shown := String.ofList (trim (read text))
    match c.headings with
    | [] =>
      if c.preamble.isEmpty then { c with preamble := shown, preambleSpan := Span.lines first last }
      else c
    | h :: rest =>
      if h.summary.isEmpty then { c with headings := { h with summary := shown } :: rest } else c

/-- The content of a document. -/
def ofText (s : List Char) : Content :=
  let (blocks, labels) := blocksOf s
  blocks.foldl (add (inlineText labels)) {}

end Content

/-! ## Sections -/

/-- The headings around a new one of the given level, innermost first, given those
    around the text before it. -/
def enclosing (level : Nat) (stack : List Heading) : List Heading :=
  stack.dropWhile fun h => level ≤ h.level

/-- The titles that lead to each heading and its own; `stack` are the headings around
    the text before, innermost first. -/
def breadcrumbs (stack : List Heading) : List Heading → List (List String)
  | [] => []
  | h :: rest =>
    let stack := h :: enclosing h.level stack
    (stack.map Heading.title).reverse :: breadcrumbs stack rest

/-- The last line of a section that starts on line `first` and ends no later than on
    line `last`: the blank lines at its end do not belong to it. -/
def trimBlankLines (lines : List (List Char)) (first : Nat) : Nat → Nat
  | 0 => 0
  | last + 1 =>
    if first < last + 1 && lines[last]?.any (fun l => (trim l).isEmpty) then
      trimBlankLines lines first last
    else last + 1

/-- The last line of the section of `h`, given the heading that follows it. -/
def lastLine (lines : List (List Char)) (h : Heading) (next? : Option Heading) : Nat :=
  let last := match next? with
    | some next => next.line - 1
    | none => lines.length
  trimBlankLines lines h.line (max last h.line)

/-- The section of a heading, given the titles that lead to it and the heading that
    follows it. -/
def sectionOf (filePath : String) (lines : List (List Char)) (h : Heading) (path : List String)
    (next? : Option Heading) : Section :=
  let last := lastLine lines h next?
  { title := h.title
    level := h.level
    path
    filePath
    span := Span.lines h.line last
    summary := h.summary
    code := String.ofList (joinWith ['\n'] ((lines.take last).drop (h.line - 1))) }

/-- The sections of headings, given the titles that lead to each. -/
def sectionsWith (filePath : String) (lines : List (List Char)) :
    List Heading → List (List String) → List Section
  | h :: rest, path :: paths =>
    sectionOf filePath lines h path rest.head? :: sectionsWith filePath lines rest paths
  | _, _ => []

/-- The sections of a document with the given lines and headings. -/
def sectionsOf (filePath : String) (lines : List (List Char)) (headings : List Heading) :
    List Section :=
  sectionsWith filePath lines headings (breadcrumbs [] headings)

/-- The outline of a document with the given text. -/
def outline (path : String) (text : List Char) : Outline :=
  let filePath := Path.slashed path
  let content := Content.ofText text
  let described := !content.preamble.isEmpty
  { language := .markdown
    path := filePath
    package := (Path.stem? path).getD ""
    doc := content.preamble
    docFile := if described then filePath else ""
    docSpan := if described then content.preambleSpan else {}
    sections := sectionsOf filePath (lines text) content.headings.reverse }

end CodeAtlas.Markdown
