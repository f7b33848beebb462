import CodeAtlas.Markdown.Emphasis
import CodeAtlas.Markdown.Entity
import CodeAtlas.Markdown.Html
import CodeAtlas.Markdown.Link

/-!
# The text of headings and paragraphs

What a reader sees of a heading or a paragraph: escapes and character references stand
for their characters, code spans and links for their text, emphasis and HTML leave no
marks, and a line end is a space. `inlineText` reads from left to right. An opening
bracket starts a new level of the text; the closing bracket ends it, as a link if a
target or a label that is defined says so, and as plain text otherwise.
-/

namespace CodeAtlas.Markdown

open Text

/-! ## Code spans -/

/-- The code before the next run of exactly `n` backquotes, and what follows that
    run. `code` is the code so far, last character first, and `run` how many
    backquotes it ends with. -/
def codeEnd? (n : Nat) (code : List Char) (run : Nat) : List Char → Option (List Char × List Char)
  | [] => if run = n then some ((code.drop n).reverse, []) else none
  | c :: s =>
    if c == '\x60' then codeEnd? n (c :: code) (run + 1) s
    else if run = n then some ((code.drop n).reverse, c :: s)
    else codeEnd? n (c :: code) 0 s

/-- The text of a code span. Line ends are spaces, and one space at either end is
    left out if there is one at both and the code is not blank. -/
def codeText (code : List Char) : List Char :=
  let code := code.map fun c => if c == '\n' || c == '\r' then ' ' else c
  if code.head? == some ' ' && code.getLast? == some ' ' && !code.all (· == ' ') then
    (code.drop 1).dropLast
  else code

/-! ## Brackets -/

/-- The part of the text behind an opening bracket that is not closed yet. -/
structure Level where
  /-- The bracket belongs to an image. -/
  isImage : Bool
  /-- A link may still end here: none was found within. -/
  isActive : Bool
  /-- What follows the bracket. -/
  source : List Char
  /-- The pieces read, last one first. -/
  pieces : List Piece

/-- What the bracket of a level looks like. -/
def Level.opening (l : Level) : List Char :=
  if l.isImage then ['!', '['] else ['[']

/-- What was read so far: the open levels, innermost first, and the pieces before the
    outermost, last one first. -/
structure Transcript where
  levels : List Level := []
  pieces : List Piece := []

namespace Transcript

/-- Adds pieces, given last one first. -/
def addAll (r : Transcript) (pieces : List Piece) : Transcript :=
  match r.levels with
  | [] => { r with pieces := pieces ++ r.pieces }
  | l :: rest => { r with levels := { l with pieces := pieces ++ l.pieces } :: rest }

/-- Adds a piece of text. -/
def add (r : Transcript) (s : List Char) : Transcript :=
  r.addAll [.text s]

/-- Ends the innermost level as plain text. -/
def abandon (r : Transcript) : Transcript :=
  match r.levels with
  | [] => r
  | l :: rest =>
    addAll { r with levels := rest } (l.pieces ++ [.text l.opening])

/-- Ends the innermost level as a link or an image. Around a link there is no other
    link. -/
def link (r : Transcript) : Transcript :=
  match r.levels with
  | [] => r
  | l :: rest =>
    let rest :=
      if l.isImage then rest
      else rest.map fun outer => { outer with isActive := outer.isActive && outer.isImage }
    add { r with levels := rest } (emphasised l.pieces.reverse)

/-- Ends all levels as plain text. -/
def finish (r : Transcript) : List Char :=
  let pieces := r.levels.foldr (fun l before => l.pieces ++ .text l.opening :: before) r.pieces
  emphasised pieces.reverse

end Transcript

/-- What follows the link that ends at a closing bracket, given the text behind that
    bracket. `defined` tells the labels that are defined. -/
def linkEnd? (defined : List Char → Bool) (l : Level) (s : List Char) : Option (List Char) :=
  if !l.isActive then none
  else
    match resource? s with
    | some rest => some rest
    | none =>
      let own? : Option (List Char) := (label? l.source).bind fun (label, rest) =>
        if rest.length = s.length then some label else none
      let (label?, rest) : Option (List Char) × List Char :=
        match s with
        | '[' :: ']' :: rest => (own?, rest)
        | '[' :: inner =>
          match label? inner with
          | some (label, rest) => (some label, rest)
          | none => (own?, s)
        | _ => (own?, s)
      if label?.any (fun label => defined (foldLabel label)) then some rest else none

/-! ## The whole text -/

/-- The last character of what was passed to get from `s` to `rest`. -/
def lastPassed (s rest : List Char) : Option Char :=
  (s.take (s.length - rest.length)).getLast?

/-- The text behind a line end and the white space the next line starts with. -/
def nextLine (s : List Char) : List Char :=
  (s.drop ((lineEnd? s).getD 0)).dropWhile fun c => c == ' ' || c == '\t'

/-- Reads on behind the character `prev`, of which there is none at the start of a
    line. -/
def readInline (defined : List Char → Bool) :
    Nat → Transcript → Option Char → List Char → Transcript
  | 0, r, _, _ => r
  | fuel + 1, r, prev, s =>
    let go (r : Transcript) (rest : List Char) : Transcript :=
      readInline defined fuel r (lastPassed s rest) rest
    match s with
    | [] => r
    | c :: rest =>
      if c == '\n' || c == '\r' then readInline defined fuel (r.add [' ']) none (nextLine s)
      else if isGap c then
        let after := rest.dropWhile isGap
        match after with
        | [] => r
        | d :: _ =>
          if d == '\n' || d == '\r' then go r after
          else go (r.add (c :: rest.takeWhile isGap)) after
      else if c == '\\' then
        match rest with
        | d :: after =>
          if d == '\n' || d == '\r' then go r rest
          else if d == '\x60' then
            let n := runOf (· == '\x60') after
            match if n = 0 then none else codeEnd? n [] 0 (after.drop n) with
            | some (code, behind) => go (r.add ('\x60' :: codeText code)) behind
            | none => go (r.add (List.replicate (n + 1) '\x60')) (after.drop n)
          else if isAsciiPunctuation d then go (r.add [d]) after
          else go (r.add [c]) rest
        | [] => r.add [c]
      else if c == '\x60' then
        let n := runOf (· == '\x60') s
        match codeEnd? n [] 0 (s.drop n) with
        | some (code, behind) => go (r.add (codeText code)) behind
        | none => go (r.add (List.replicate n '\x60')) (s.drop n)
      else if c == '<' && rest.head? != some '\\' then
        match address? s with
        | some (address, behind) => go (r.add address) behind
        | none =>
          match inlineHtml? s with
          | some behind => go r behind
          | none => go (r.add [c]) rest
      else if c == '&' then
        match entity? s with
        | some (chars, behind) => go (r.add chars) behind
        | none => go (r.add [c]) rest
      else if c == '!' && rest.head? == some '[' then
        let behind := rest.drop 1
        go { r with levels := ⟨true, true, behind, []⟩ :: r.levels } behind
      else if c == '[' then go { r with levels := ⟨false, true, rest, []⟩ :: r.levels } rest
      else if c == ']' then
        match r.levels with
        | [] => go (r.add [c]) rest
        | l :: _ =>
          match linkEnd? defined l rest with
          | some behind => go r.link behind
          | none => go (r.abandon.add [c]) rest
      else if c == '*' || c == '_' || c == '~' then
        let n := runOf (· == c) s
        let next := (s.drop n).head?
        let opens := canOpen c n prev next
        let closes := canClose c n prev next
        if (opens || closes) && !(c == '~' && n > 2) then
          go (r.addAll [.run ⟨c, n, n, opens, closes⟩]) (s.drop n)
        else go (r.add (List.replicate n c)) (s.drop n)
      else readInline defined fuel (r.add [c]) (some c) rest

/-- The text that a reader sees of a heading or a paragraph, given the labels of
    links that are defined. -/
def inlineText (labels : List (List Char)) (s : List Char) : List Char :=
  (readInline labels.contains (s.length + 1) {} none s).finish

end CodeAtlas.Markdown
