import CodeAtlas.Markdown.Html
import CodeAtlas.Markdown.Link
import CodeAtlas.Markdown.Mark
import CodeAtlas.Markdown.Table

/-!
# Blocks

A document is a sequence of blocks: headings, paragraphs, code, tables and so on, some
of them within quotations and lists. Of these only headings and paragraphs are kept
(`Block`), and the labels of link definitions (`blocksOf`).

A block is read where a line starts. The quotations and list items that are open
(`Container`) first take their share of the margin; those the line does not belong to
end there. Then come the marks of new containers, and behind them the block itself. A
paragraph in a list item counts as one only if there is a blank line somewhere between
the parts of the list, which is known at the end of the list; until then it carries
the number of its list.
-/

namespace CodeAtlas.Markdown

open Text

/-! ## Containers -/

/-- What holds blocks: a quotation, a list, or an item of a list. -/
inductive Container
  | quote
  | list (number : Nat) (mark : Char)
  | item (indent : Nat)

/-- Lets a container take its share of the margin of a line, if the line belongs to
    it. -/
def Container.take? (m : Margin) : Container → Option Margin
  | .quote => (m.eat 3).2.quote?
  | .list _ _ => some m
  | .item indent =>
    let (missing, m) := m.eat indent
    if missing = 0 || m.atEnd then some m else none

/-- Lets the containers, outermost first, take their shares of the margin. The first
    component is how many of them the line belongs to. -/
def takeMargins : List Container → Margin → Nat × Margin
  | [], m => (0, m)
  | c :: rest, m =>
    match c.take? m with
    | some m =>
      let (n, m) := takeMargins rest m
      (n + 1, m)
    | none => (0, m)

/-- The margin of a line behind the shares of `spine`, the containers outermost first,
    and whether the line belongs to all of them. -/
def marginIn (spine : List Container) (s : List Char) : Bool × Margin :=
  let (n, m) := takeMargins spine (.ofLine s)
  (n == spine.length, m)

/-! ## Where paragraphs end -/

/-- Whether a block starts here that ends a paragraph before it. -/
def startsBlock (anyItem : Bool) (s : List Char) : Bool :=
  (lineEnd? s).isSome || (rule? s).isSome || (headingLevel? s).isSome || (fence? s).isSome ||
    s.head? == some '>' || interruptsAsItem anyItem s ||
    (match s with
      | '<' :: rest => (htmlCloser? rest).isSome || opensBlockElement rest
      | _ => false)

/-- Whether a table starts here, given the line and what stands behind its pipes. -/
def startsTable (spine : List Container) (tails : List (List Char)) (s : List Char) : Bool :=
  let line := lineOf s
  let below := s.drop line.length
  let below := below.drop ((lineEnd? below).getD 0)
  let (belongs, m) := marginIn spine below
  !tails.isEmpty && !below.isEmpty && belongs &&
    delimiterRow? m.rest == some (headerColumns line tails)

/-- Whether a line, behind its margin, ends the paragraph before it. -/
def endsParagraph (spine : List Container) (belongs : Bool) (s : List Char) : Bool :=
  startsBlock (!belongs) s ||
    (s.head? == some '|' && startsTable spine (barePipeTails false (lineOf s)) s)

/-! ## Paragraphs -/

/-- How the lines of a paragraph end. -/
inductive ParagraphEnd
  | plain
  | heading (level : Nat)

/-- The lines behind the first of a paragraph: their text behind the margins, how many
    characters they take, and how the paragraph ends. -/
def paragraphLines (spine : List Container) : Nat → List Char → List Char × Nat × ParagraphEnd
  | 0, _ => ([], 0, .plain)
  | fuel + 1, s =>
    let (belongs, m) := marginIn spine s
    let (indent, inner) := m.spacesUpTo 4
    let heading? := if indent < 4 && belongs then underline? inner.rest else none
    match heading? with
    | some (length, level) => ([], inner.passed + length, .heading level)
    | none =>
      if indent < 4 && endsParagraph spine belongs inner.rest then ([], 0, .plain)
      else
        let gap := runOf (fun c => c == ' ' || c == '\t') inner.rest
        let text := inner.rest.drop gap
        if (lineEnd? text).isSome then ([], 0, .plain)
        else
          let line := lineOf text
          let ending := (lineEnd? (text.drop line.length)).getD 0
          let length := inner.passed + gap + line.length + ending
          let (more, n, finish) := paragraphLines spine fuel (s.drop length)
          (m.rest.take (length - m.passed) ++ more, length + n, finish)

/-- How many characters the rows of a table take. -/
def tableRows (spine : List Container) : Nat → List Char → Nat
  | 0, _ => 0
  | fuel + 1, s =>
    let (belongs, m) := marginIn spine s
    let gap := runOf (fun c => c == ' ' || c == '\t') m.rest
    let text := m.rest.drop gap
    if s.isEmpty || !belongs || startsBlock true text then 0
    else
      let line := lineOf text
      let length := m.passed + gap + line.length + (lineEnd? (text.drop line.length)).getD 0
      length + tableRows spine fuel (s.drop length)

/-! ## Code and HTML -/

/-- How many characters indented code takes, from behind its first margin on, and
    whether its last line is blank. -/
def indentedCode (spine : List Container) : Nat → List Char → Nat × Bool
  | 0, _ => (0, false)
  | fuel + 1, s =>
    let length := throughLine s
    let next := s.drop length
    let (belongs, m) := marginIn spine next
    let (missing, m) := m.eat 4
    if !belongs || !(missing = 0 || m.atEnd) || m.rest.isEmpty then (length, (blankLine? s).isSome)
    else
      let (n, blank) := indentedCode spine fuel m.rest
      (length + m.passed + n, blank)

/-- How many characters the lines of fenced code take, with the closing fence. -/
def fencedCode (spine : List Container) (mark : Char) (marks indent : Nat) :
    Nat → List Char → Nat
  | 0, _ => 0
  | fuel + 1, s =>
    let (belongs, m) := marginIn spine s
    if !belongs then 0
    else
      let m := (m.eat indent).2
      let (missing, inner) := m.eat (4 - indent)
      match if missing = 0 then none else closingFence? mark marks inner.rest with
      | some n => inner.passed + n + (blankLine? (inner.rest.drop n)).getD 0
      | none =>
        let length := m.passed + throughLine m.rest
        length + fencedCode spine mark marks indent fuel (s.drop length)

/-- How many characters metadata takes behind its first line. -/
def metadataLines : Nat → List Char → Nat
  | 0, _ => 0
  | fuel + 1, s =>
    match closingMetadata? s with
    | some n => n + (blankLine? (s.drop n)).getD 0
    | none => throughLine s + metadataLines fuel (s.drop (throughLine s))

/-- How many characters a block of HTML takes. It ends with the line that holds
    `closer?`, or before a blank line if there is none. -/
def htmlLines (spine : List Container) (closer? : Option String) : Nat → List Char → Nat
  | 0, _ => 0
  | fuel + 1, s =>
    let length := throughLine s
    let next := s.drop length
    let (belongs, m) := marginIn spine next
    let closed := match closer? with
      | some closer => (cutAt? closer.toList (s.take length)).isSome || m.rest.isEmpty
      | none => m.atEnd || (blankLine? m.rest).isSome
    if !belongs || closed then length
    else length + m.passed + htmlLines spine closer? fuel m.rest

/-! ## Link definitions -/

/-- The rest behind white space with at most one line end, unless the paragraph ends
    there; whether there was a line end goes along. -/
def definitionGap? (spine : List Container) (s : List Char) : Option (List Char × Bool) :=
  let rest := s.dropWhile isGap
  match lineEnd? rest with
  | none => some (rest, false)
  | some n =>
    let next := rest.drop n
    let (belongs, m) := marginIn spine next
    let (indent, inner) := m.spacesUpTo 4
    let text := inner.rest.dropWhile isGap
    if (indent < 4 && endsParagraph spine belongs inner.rest) || (lineEnd? text).isSome then none
    else some (text, true)

/-- The rest behind the title of a definition, which holds no blank line and does not
    run into another block. -/
def definitionTitle? (spine : List Container) (close : Char) : Nat → List Char → Option (List Char)
  | 0, _ => none
  | fuel + 1, s =>
    match s with
    | [] => none
    | '\\' :: _ :: rest => definitionTitle? spine close fuel rest
    | c :: rest =>
      if c == close then some rest
      else if c == '(' && close == ')' then none
      else if c == '\n' then
        let (belongs, m) := marginIn spine rest
        let text := m.rest.dropWhile isGap
        if endsParagraph spine belongs text then none else definitionTitle? spine close fuel text
      else definitionTitle? spine close fuel rest

/-- Whether a label, with the brackets around it, runs into another block. -/
def labelInterrupted (spine : List Container) : List Char → List Char → Bool
  | '\n' :: label, _ :: s =>
    let (belongs, m) := marginIn spine s
    endsParagraph spine belongs m.rest || labelInterrupted spine label s
  | _ :: label, _ :: s => labelInterrupted spine label s
  | _, _ => false

/-- The label without the margins of its second line. -/
def bareLabel (spine : List Container) (label : List Char) : List Char :=
  match cutAt? ['\n'] label with
  | some (first, second) => first ++ ' ' :: (marginIn spine second).2.rest
  | none => label

/-- The link definition that a text starts with: its label and what follows it. -/
def definition? (spine : List Container) (s : List Char) : Option (List Char × List Char) := do
  let inner ← strip? ['['] s
  let (label, rest) ← label? inner
  let rest ← strip? [':'] rest
  if labelInterrupted spine label inner then none
  else
    let (target, _) ← definitionGap? spine rest
    let after ← targetEnd? target
    if after.length = target.length then none
    else
      let found := (foldLabel (bareLabel spine label), after)
      match definitionGap? spine after with
      | none => return found
      | some (title, lines) =>
        if title.length = after.length then none
        else
          let end? := match title with
            | c :: body =>
              (titleCloser? c).bind fun close => definitionTitle? spine close body.length body
            | [] => none
          match end? with
          | some rest =>
            if (blankLine? rest).isSome then return (found.1, rest)
            else if lines then return found
            else none
          | none => if lines then return found else none

/-! ## Headings -/

/-- The text of a heading without the attributes in braces it ends with. -/
def dropAttributes (s : List Char) : List Char :=
  match s.reverse.dropWhile fun c => c == '\n' || c == '\r' || c == ' ' || c == '\t' with
  | '\x7d' :: before =>
    let rest := before.dropWhile fun c => !("\x7b\x7d\\<>\n\r".toList.contains c)
    match rest with
    | '\x7b' :: content => content.reverse
    | _ => s
  | _ => s

/-- The text of a heading without the number signs it ends with. -/
def dropClosingMarks (s : List Char) : List Char :=
  let kept := s.reverse.dropWhile fun c => c == '\n' || c == '\r' || c == ' '
  match kept.dropWhile (· == '#') with
  | [] => []
  | c :: rest =>
    if c == ' ' then (rest.dropWhile (· == ' ')).reverse else kept.reverse

/-! ## The document -/

/-- A heading or a paragraph with its text as it is written, the margins apart. -/
inductive Block
  /-- A heading that starts on `line`. What follows a carriage return in it is `tail`,
      which is taken as it stands. -/
  | heading (level line : Nat) (text tail : List Char)
  /-- A paragraph on the lines from `first` to `last`. One that stands directly in an
      item of a list has the number of the list. -/
  | paragraph (first last : Nat) (list? : Option Nat) (text : List Char)

/-- What was read of a document. -/
structure Blocks where
  /-- The line that comes next. -/
  line : Nat := 1
  /-- The containers that are open, innermost first. -/
  spine : List Container := []
  /-- The line before is blank. -/
  afterBlank : Bool := false
  /-- An item was started whose first line is blank. -/
  emptyItem : Bool := false
  /-- How many lists there are. -/
  lists : Nat := 0
  /-- The lists with a blank line between their parts. -/
  loose : List Nat := []
  /-- The labels that are defined. -/
  labels : List (List Char) := []
  /-- The blocks, last one first. -/
  blocks : List Block := []

namespace Blocks

/-- Closes the innermost container. -/
def pop (b : Blocks) : Blocks :=
  match b.spine with
  | .list n _ :: rest =>
    { b with spine := rest, emptyItem := b.emptyItem && b.loose.contains n }
  | _ :: rest => { b with spine := rest }
  | [] => b

/-- Closes an item with nothing in it if a second blank line follows. -/
def finishEmptyItem (b : Blocks) : Blocks :=
  let closed := match b.spine with
    | .item _ :: _ => if b.emptyItem && b.afterBlank then b.pop else b
    | _ => b
  { closed with emptyItem := false }

/-- A blank line stands in the innermost item: its list is a loose one. -/
def loosen (b : Blocks) : Blocks :=
  match b.spine with
  | _ :: .list n _ :: _ => { b with loose := n :: b.loose }
  | _ => b

/-- Closes the innermost container if it is a list: what comes next is no item. -/
def finishList (b : Blocks) : Blocks :=
  let b := b.finishEmptyItem
  let b := match b.spine with
    | .list _ _ :: _ => b.pop
    | _ => b
  if b.afterBlank then { b.loosen with afterBlank := false } else b

/-- Opens a new list. -/
def openList (b : Blocks) (mark : Char) : Blocks :=
  { b with spine := .list b.lists mark :: b.spine, lists := b.lists + 1, afterBlank := false }

/-- Starts an item: in the list that is open if the mark is the same. -/
def startItem (b : Blocks) (mark : Char) (indent : Nat) : Blocks :=
  let b := b.finishEmptyItem
  let b := match b.spine with
    | .list n m :: _ =>
      if m == mark then
        if b.afterBlank then { b with loose := n :: b.loose, afterBlank := false } else b
      else b.finishList.openList mark
    | [] => b.openList mark
    | _ => b.finishList.openList mark
  { b with spine := .item indent :: b.spine }

/-- Opens the containers whose marks stand at a place. The last component tells
    whether an item was opened whose line is blank from there on. -/
def openContainers : Nat → Blocks → Margin → Blocks × Margin × Bool
  | 0, b, m => (b, m, false)
  | fuel + 1, b, m =>
    let (indent, inner) := m.spacesUpTo 4
    if indent ≥ 4 then (b, m, false)
    else
      match inner.item? indent with
      | some (mark, width, behind) =>
        let b := b.startItem mark.char width
        if (blankLine? behind.rest).isSome then ({ b with emptyItem := true }, behind, true)
        else openContainers fuel b behind
      | none =>
        match inner.quote? with
        | some behind =>
          let b := b.finishList
          openContainers fuel { b with spine := .quote :: b.spine } behind
        | none => (b, m, false)

/-- Takes note of a blank line. -/
def blank (b : Blocks) : Blocks :=
  match b.spine with
  | .quote :: _ => b
  | .item n :: rest =>
    { b with afterBlank := true, spine := .item (if b.emptyItem then 0 else n) :: rest }
  | _ => { b with afterBlank := true }

/-- The number of the list whose item the next block stands in directly. -/
def currentList? (b : Blocks) : Option Nat :=
  match b.spine with
  | .item _ :: .list n _ :: _ => some n
  | _ => none

/-- Adds a block. -/
def add (b : Blocks) (block : Block) : Blocks :=
  { b with blocks := block :: b.blocks }

/-- Reads a paragraph, which may turn out to be a table or a heading. `passed` is how
    long the margin of its first line is; the second component is how many characters
    were read. -/
def readParagraph (fuel : Nat) (b : Blocks) (passed : Nat) (s : List Char) : Blocks × Nat :=
  let spine := b.spine.reverse
  let line := lineOf s
  let first := line.length + (lineEnd? (s.drop line.length)).getD 0
  let rest := s.drop first
  if startsTable spine (pipeTails line) s then
    let head := lineOf rest
    let length := first + head.length + (lineEnd? (rest.drop head.length)).getD 0
    (b, passed + length + tableRows spine fuel (s.drop length))
  else
    let (more, n, finish) := paragraphLines spine fuel rest
    let text := s.take first ++ more
    let all := s.take (first + n)
    match finish with
    | .heading level =>
      (b.add (.heading level b.line (dropAttributes (trimEnd text)) []), passed + first + n)
    | .plain =>
      let last := b.line + (all.dropLast.filter (· == '\n')).length
      (b.add (.paragraph b.line last b.currentList? (dropEnd isWhite text)), passed + first + n)

/-- Reads the block that starts at a line; the second component is how many
    characters were read. -/
def readBlock (fuel : Nat) (b : Blocks) (s : List Char) : Blocks × Nat :=
  let (n, m) := takeMargins b.spine.reverse (.ofLine s)
  let b := (List.replicate (b.spine.length - n) ()).foldl (fun b _ => b.pop) b
  let (b, m, isEmptyItem) := openContainers fuel b m
  match blankLine? m.rest with
  | some n => (if isEmptyItem then b else b.blank, m.passed + n)
  | none =>
    let (indent, inner) := m.spacesUpTo 4
    if indent = 4 then
      let b := b.finishList
      let (n, blank) := indentedCode b.spine.reverse fuel inner.rest
      ({ b with afterBlank := blank }, inner.passed + n)
    else
      let b := b.finishList
      let spine := b.spine.reverse
      let text := inner.rest
      if indent = 0 && opensMetadata text then
        let first := throughLine text
        (b, inner.passed + first + metadataLines fuel (text.drop first))
      else
        let html? : Option (Option String) := match text with
          | '<' :: rest =>
            match htmlCloser? rest with
            | some closer => some (some closer)
            | none => if opensBlockElement rest || isLoneTag text then some none else none
          | _ => none
        match html? with
        | some closer? => (b, inner.passed + htmlLines spine closer? fuel text)
        | none =>
          match rule? text, headingLevel? text, fence? text with
          | some n, _, _ => (b, inner.passed + n)
          | none, some level, _ =>
            let body := text.drop level
            let length := match lineEnd? body with
              | some n => n
              | none => throughLine body
            let title := dropClosingMarks (dropAttributes ((body.take length).dropWhile isGap))
            let (text, tail) := title.span (· != '\r')
            (b.add (.heading level b.line text tail), inner.passed + level + length)
          | none, none, some (marks, mark) =>
            let first := marks + throughLine (text.drop marks)
            (b, inner.passed + first + fencedCode spine mark marks indent fuel (text.drop first))
          | none, none, none =>
            match definition? spine text with
            | some (label, rest) =>
              let rest := rest.drop ((blankLine? rest).getD 0)
              ({ b with labels := label :: b.labels }, inner.passed + (text.length - rest.length))
            | none => readParagraph fuel b inner.passed text

/-- Reads all blocks from a line on. -/
def read : Nat → Blocks → List Char → Blocks
  | 0, b, _ => b
  | fuel + 1, b, s =>
    if s.isEmpty then b
    else
      let (b, n) := readBlock (fuel + 1) b s
      let lines := ((s.take n).filter (· == '\n')).length
      read fuel { b with line := b.line + lines } (s.drop n)

/-- Whether a block counts: all but the paragraphs of lists without blank lines. -/
def counts (b : Blocks) : Block → Bool
  | .paragraph _ _ (some n) _ => b.loose.contains n
  | _ => true

end Blocks

/-- The headings and paragraphs of a document, and the labels it defines. -/
def blocksOf (s : List Char) : List Block × List (List Char) :=
  let b := Blocks.read s.length {} s
  (b.blocks.reverse.filter b.counts, b.labels)

end CodeAtlas.Markdown
