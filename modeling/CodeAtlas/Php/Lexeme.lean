import CodeAtlas.Grammar.Lexer

/-!
# Lexemes of PHP

A PHP file is text with code in it. The code is between an opening tag and `?>`;
such an end, with the text up to the next opening tag, is an aside in the code, as
comments are. Strings in double quotes, backquotes and heredocs hold expressions,
so what is cut off next depends on what was opened before: the state of the lexer
is the stack of open modes, innermost first.

Words count in any letter case, so their lexemes are written in lower case. Only
`self` and `parent` are words of the language in lower case alone, and names
otherwise.
-/

namespace CodeAtlas.Php

open Grammar Source

/-- The sorts of solid lexemes. -/
inductive Token where
  | html | tag | word | sign | number | variable | string | content | nowdoc
  | heredocOpen | heredocClose | junk
  deriving DecidableEq, Repr

/-- What the lexer stands in. -/
inductive Mode where
  /-- The text around the code. -/
  | html
  /-- Code, at the outside or in braces. -/
  | code
  /-- A string up to the given quote. -/
  | quoted (quote : Char)
  /-- A heredoc with the given name. -/
  | heredoc (name : List Char)
  /-- Directly behind a variable in a string. -/
  | behindVariable
  /-- Behind the arrow that follows a variable in a string. -/
  | behindArrow
  /-- In the brackets that follow a variable in a string. -/
  | offset
  deriving DecidableEq, Repr

/-- A character that names start with: a letter of ASCII, an underscore, or any
    character outside ASCII but four kinds of space. -/
def isNameStart (c : Char) : Bool :=
  c.isAlpha || c == '_' ||
    (0x80 ≤ c.toNat && !([0xA0, 0x200B, 0x2060, 0xFEFF].contains c.toNat))

/-- A character that names go on with. -/
def isNamePart (c : Char) : Bool :=
  isNameStart c || c.isDigit

/-- White space in code. -/
def isSpace (c : Char) : Bool :=
  c == ' ' || ('\t' ≤ c && c ≤ '\r') || [0xA0, 0x200B, 0x2060, 0xFEFF].contains c.toNat

/-- The signs of more than one character, longer ones first. -/
def longSigns : List (List Char) :=
  ["<=>", "**=", "...", "<<=", ">>=", "===", "!==", "??=", "?->",
   "->", "=>", "::", "++", "--", "+=", "-=", "*=", "/=", ".=", "%=", "&=", "|=", "^=", "<<", ">>",
   "**", "==", "!=", "<>", "<=", ">=", "&&", "||", "??", "#[", "|>"].map String.toList

/-- The signs of one character. -/
def shortSigns : List Char :=
  ";,()[]<>=+-*/.%&|^!~?:@$\\\x7b\x7d".toList

/-- The length of an opening tag at the start of the source; zero if there is
    none. -/
def tagRun (s : Source) : Nat :=
  if startsWith ['<', '?', '='] s then 3
  else if startsWith ['<', '?'] s && headIs (fun c => c.toLower == 'p') (s.drop 2) &&
      headIs (fun c => c.toLower == 'h') (s.drop 3) &&
      headIs (fun c => c.toLower == 'p') (s.drop 4) then 5
  else 0

/-- How many glyphs stand before the next opening tag, or before the end. -/
def htmlRun : Source → Nat
  | [] => 0
  | g :: s => if tagRun (g :: s) > 0 then 0 else htmlRun s + 1

/-- The length of a line comment, which ends before its line does or before a
    closing tag. A question mark at the end of the line takes the line's end with
    it. -/
def commentRun : Source → Nat
  | [] => 0
  | g :: s =>
    if g.is '\n' || g.is '\r' then 0
    else if g.is '?' then
      match s with
      | [] => 0
      | h :: rest =>
        if h.is '>' then 0
        else if h.is '\n' then 2
        else if h.is '\r' then if headIs (· == '\n') rest then 3 else 0
        else commentRun rest + 2
    else commentRun s + 1

/-- The length of a string in single quotes up to its end, the opening quote being
    read. -/
def singleRun? : Source → Option Nat
  | [] => none
  | g :: s =>
    if g.is '\x27' then some 1
    else if g.is '\\' then
      match s with
      | [] => none
      | _ :: rest => (singleRun? rest).map (· + 2)
    else (singleRun? s).map (· + 1)

/-- Digits with single underscores between them. -/
def digitRun (isDigit : Char → Bool) : Source → Nat
  | [] => 0
  | g :: s =>
    if g.satisfies isDigit then digitRun isDigit s + 1
    else if g.is '_' && headIs isDigit s then digitRun isDigit s + 1
    else 0

/-- The length of the number that the source starts with. A whole number that
    starts with a zero is octal. -/
def numberRun (s : Source) : Nat :=
  let based (marks : List Char) (isDigit : Char → Bool) : Option Nat :=
    if headIs (· == '0') s && headIs marks.contains (s.drop 1) && headIs isDigit (s.drop 2) then
      some (2 + digitRun isDigit (s.drop 2))
    else none
  match based ['x', 'X'] isHex, based ['b', 'B'] (fun c => c == '0' || c == '1'),
      based ['o', 'O'] isOctal with
  | some n, _, _ => n
  | none, some n, _ => n
  | none, none, some n => n
  | none, none, none =>
    let whole := digitRun Char.isDigit s
    let rest := s.drop whole
    let fraction :=
      if headIs (· == '.') rest && !startsWith ['.', '.', '.'] rest then
        1 + digitRun Char.isDigit (rest.drop 1)
      else 0
    let rest := s.drop (whole + fraction)
    let power :=
      if headIs (fun c => c == 'e' || c == 'E') rest then
        let sign := if headIs (fun c => c == '+' || c == '-') (rest.drop 1) then 1 else 0
        let n := digitRun Char.isDigit (rest.drop (1 + sign))
        if n = 0 then 0 else 1 + sign + n
      else 0
    if fraction + power = 0 && headIs (· == '0') s then digitRun isOctal s
    else whole + fraction + power

/-- A space within a line. -/
def isGap (c : Char) : Bool :=
  c == ' ' || c == '\t'

/-- The length of the line that closes the heredoc `name`, from the end of the
    line before on; zero if there is none here. -/
def closingRun (name : List Char) (s : Source) : Nat :=
  let ending := if startsWith ['\r', '\n'] s then 2 else if headIs (· == '\n') s then 1 else 0
  if ending = 0 then 0
  else
    let gap := countWhile isGap (s.drop ending)
    let rest := s.drop (ending + gap)
    if startsWith name rest && !headIs isNamePart (rest.drop name.length) then
      ending + gap + name.length
    else 0

/-- Whether a part of a string starts here that is no plain text. -/
def startsPart (s : Source) : Bool :=
  (headIs (· == '$') s && (headIs isNameStart (s.drop 1) || headIs (· == '\x7b') (s.drop 1))) ||
    startsWith ['\x7b', '$'] s

/-- The length of plain text in a string; `closes` tells where it is over. -/
def contentRun (closes : Source → Bool) : Source → Nat
  | [] => 0
  | g :: s =>
    if closes (g :: s) || startsPart (g :: s) then 0
    else if g.is '\\' then
      match s with
      | [] => 1
      | h :: rest =>
        if h.is '\n' || h.is '\r' then contentRun closes (h :: rest) + 1
        else contentRun closes rest + 2
    else contentRun closes s + 1

/-- What follows `<<<`: the length up to the end of the opening, the name, and
    whether the text is raw. -/
def heredocAt? (s : Source) : Option (Nat × List Char × Bool) :=
  let gap := countWhile isGap s
  let rest := s.drop gap
  let quote? : Option Char := match rest with
    | .char c :: _ => if c == '"' || c == '\x27' then some c else none
    | _ => none
  let skip := if quote?.isSome then 1 else 0
  let afterQuote := rest.drop skip
  let length := countWhile isNamePart afterQuote
  if !headIs isNameStart afterQuote then none
  else
    match chars? (afterQuote.take length) with
    | none => none
    | some name =>
      let close := afterQuote.drop length
      match quote? with
      | none => some (gap + length, name, false)
      | some c =>
        if headIs (· == c) close then some (gap + length + 2, name, c == '\x27') else none

/-- The length of a raw heredoc from the end of its first line on. -/
def nowdocRun? (name : List Char) : Source → Option Nat
  | [] => none
  | g :: s =>
    let n := closingRun name (g :: s)
    if n > 0 then some n else (nowdocRun? name s).map (· + 1)

variable {κ : Type}

/-- Whether the letter case of a word at the start of the source does not count. -/
def foldsCase (s : Source) : Bool :=
  match chars? (s.take (countWhile isNamePart s)) with
  | some cs => !(["self", "parent"].contains (foldCase (String.ofList cs)))
  | none => true

/-- A word. -/
def cutWord (modes : List Mode) (s : Source) : Cut κ Token (List Mode) :=
  ⟨some (.solid .word), countWhile isNamePart s, modes, foldsCase s⟩

/-- A solid lexeme. -/
def solid (sort : Token) (count : Nat) (modes : List Mode) : Cut κ Token (List Mode) :=
  ⟨some (.solid sort), count, modes, false⟩

/-- What is cut off next in the text around the code. -/
def cutHtml (s : Source) : Cut κ Token (List Mode) :=
  let tag := tagRun s
  if tag > 0 then solid .tag tag [.code]
  else
    let blank := countWhile (fun c => c == ' ' || ('\t' ≤ c && c ≤ '\r')) s
    if blank > 0 then ⟨none, blank, [.html], false⟩
    else solid .html (htmlRun s) [.html]

/-- What is cut off next in a string; `closing` is the length of its end if it is
    over here. -/
def cutString (modes : List Mode) (closing : Nat) (closer : Token) (closes : Source → Bool)
    (s : Source) : Cut κ Token (List Mode) :=
  if closing > 0 then solid closer closing (modes.drop 1)
  else if headIs (· == '$') s && headIs isNameStart (s.drop 1) then
    solid .variable (1 + countWhile isNamePart (s.drop 1)) (.behindVariable :: modes)
  else if startsWith ['$', '\x7b'] s then solid .sign 2 (.code :: modes)
  else if startsWith ['\x7b', '$'] s then solid .sign 1 (.code :: modes)
  else
    let n := contentRun closes s
    if n > 0 then solid .content n modes else solid .junk 1 modes

/-- What is cut off next in a string of the mode `mode`, the innermost of
    `modes`. -/
def cutText (mode : Mode) (modes : List Mode) (s : Source) : Cut κ Token (List Mode) :=
  match mode with
  | .quoted quote =>
    let ends := headIs (· == quote)
    cutString modes (if ends s then 1 else 0) .sign ends s
  | .heredoc name =>
    cutString modes (closingRun name s) .heredocClose (fun s => closingRun name s > 0) s
  | _ => solid .junk 1 modes

/-- What is cut off next in code. -/
def cutCode (aside comment : κ) (modes : List Mode) (s : Source) : Cut κ Token (List Mode) :=
  match s with
  | [] => solid .junk 1 modes
  | g :: rest =>
    if g.satisfies isSpace then ⟨none, countWhile isSpace s, modes, false⟩
    else if startsWith ['?', '>'] s then
      let text := htmlRun (s.drop 2)
      ⟨some (.aside aside), 2 + text + tagRun (s.drop (2 + text)), modes, false⟩
    else if startsWith ['#', '?'] s then ⟨some (.aside comment), 1, modes, false⟩
    else if startsWith ['/', '/'] s || (g.is '#' && !headIs (· == '[') rest) then
      ⟨some (.aside comment), max 1 (commentRun s), modes, false⟩
    else if startsWith ['/', '*'] s then
      match countThrough? ['*', '/'] (s.drop 2) with
      | some n => ⟨some (.aside comment), n + 2, modes, false⟩
      | none => solid .junk 1 modes
    else if g.is '$' && headIs isNameStart rest then
      solid .variable (1 + countWhile isNamePart rest) modes
    else if g.satisfies (fun c => c == 'b' || c == 'B') && headIs (· == '"') rest then
      solid .sign 2 (.quoted '"' :: modes)
    else if g.satisfies (fun c => c == 'b' || c == 'B') && headIs (· == '\x27') rest then
      match singleRun? (s.drop 2) with
      | some n => solid .string (n + 2) modes
      | none => solid .junk 1 modes
    else if g.satisfies isNameStart then cutWord modes s
    else if g.satisfies Char.isDigit || (g.is '.' && headIs Char.isDigit rest) then
      solid .number (numberRun s) modes
    else if g.is '\x27' then
      match singleRun? rest with
      | some n => solid .string (n + 1) modes
      | none => solid .junk 1 modes
    else if g.is '"' then solid .sign 1 (.quoted '"' :: modes)
    else if g.is '\x60' then solid .sign 1 (.quoted '\x60' :: modes)
    else if startsWith ['<', '<', '<'] s && (heredocAt? (s.drop 3)).isSome then
      match heredocAt? (s.drop 3) with
      | some (n, name, true) =>
        match nowdocRun? name (s.drop (3 + n)) with
        | some m => solid .nowdoc (3 + n + m) modes
        | none => solid .junk 1 modes
      | some (n, name, false) => solid .heredocOpen (3 + n) (.heredoc name :: modes)
      | none => solid .junk 1 modes
    else if g.is '\x7b' then solid .sign 1 (.code :: modes)
    else if g.is '\x7d' then
      solid .sign 1 (if modes.length > 1 then modes.drop 1 else modes)
    else
      match longSigns.find? (startsWith · s) with
      | some chars => solid .sign chars.length modes
      | none => if g.satisfies shortSigns.contains then solid .sign 1 modes else solid .junk 1 modes

/-- What is cut off next behind a variable in a string, the string being the
    innermost of `modes`. -/
def cutBehind (modes : List Mode) (s : Source) : Cut κ Token (List Mode) :=
  if headIs (· == '[') s then solid .sign 1 (.offset :: modes)
  else if startsWith ['-', '>'] s && headIs isNameStart (s.drop 2) then
    solid .sign 2 (.behindArrow :: modes)
  else if startsWith ['?', '-', '>'] s && headIs isNameStart (s.drop 3) then
    solid .sign 3 (.behindArrow :: modes)
  else cutText (modes.headD .code) modes s

/-- What is cut off next in the brackets behind a variable in a string. -/
def cutOffset (modes : List Mode) (s : Source) : Cut κ Token (List Mode) :=
  if headIs (· == ']') s then solid .sign 1 (modes.drop 1)
  else if headIs (· == '-') s then solid .sign 1 modes
  else if headIs Char.isDigit s then solid .number (countWhile isNamePart s) modes
  else if headIs isNameStart s then cutWord modes s
  else if headIs (· == '$') s && headIs isNameStart (s.drop 1) then
    solid .variable (1 + countWhile isNamePart (s.drop 1)) modes
  else solid .junk 1 modes

/-- What is cut off next. -/
def nextCut (aside comment : κ) (modes : List Mode) (s : Source) : Cut κ Token (List Mode) :=
  match modes with
  | [] => cutCode aside comment [.code] s
  | .html :: _ => cutHtml s
  | .code :: _ => cutCode aside comment modes s
  | .behindVariable :: outer => cutBehind outer s
  | .behindArrow :: outer => cutWord outer s
  | .offset :: _ => cutOffset modes s
  | mode :: _ => cutText mode modes s

/-- The lexemes of a PHP text. Text between pieces of code is an aside of the kind
    `aside`, a comment one of the kind `comment`. -/
def lexemes (aside comment : κ) (source : Source) : List (Lexeme κ Token) :=
  Grammar.lexemes (nextCut aside comment) [.html] source

end CodeAtlas.Php
