import CodeAtlas.Grammar.Lexer
import CodeAtlas.Text.Letter

/-!
# Lexemes of Go

Words, signs, numbers, runes and strings. Comments are asides. Line ends are
lexemes of their own, since they may end a statement. What fits nothing, an
unclosed string for instance, becomes a lexeme of the sort `junk`, which no
grammar accepts.
-/

namespace CodeAtlas.Go

open Grammar Source

/-- The sorts of solid lexemes. -/
inductive Token where
  | word | sign | int | float | imaginary | rune | text | rawText | junk
  deriving DecidableEq, Repr

/-- The signs of more than one character, longer ones first. -/
def longSigns : List (List Char) :=
  [['<', '<', '='], ['>', '>', '='], ['&', '^', '='], ['.', '.', '.'],
   ['&', '&'], ['|', '|'], ['<', '-'], ['+', '+'], ['-', '-'], ['=', '='], ['!', '='],
   ['<', '='], ['>', '='], [':', '='], ['+', '='], ['-', '='], ['*', '='], ['/', '='],
   ['%', '='], ['&', '='], ['|', '='], ['^', '='], ['<', '<'], ['>', '>'], ['&', '^']]

/-- The signs of one character. The null character ends a statement, like a
    semicolon. -/
def shortSigns : List Char :=
  ['(', ')', '[', ']', '\x7b', '\x7d', ',', ';', ':', '.', '=', '+', '-', '*', '/', '%', '&',
   '|', '^', '<', '>', '!', '~', '\x00']

/-- A character that words start with. -/
def isWordStart (c : Char) : Bool :=
  c == '_' || Text.isLetter c

/-- A character that words go on with. -/
def isWordPart (c : Char) : Bool :=
  isWordStart c || c.isDigit

/-- White space between lexemes, other than a line feed. -/
def isSpace (c : Char) : Bool :=
  c == ' ' || (c != '\n' && '\t' ≤ c && c ≤ '\r')

/-- How long a run of digits is in which single underscores may stand between
    digits. -/
def digitRun (isDigit : Char → Bool) : Source → Nat
  | [] => 0
  | g :: s =>
    if g.satisfies isDigit then digitRun isDigit s + 1
    else
      match s with
      | [] => 0
      | h :: _ =>
        if g.is '_' && h.satisfies isDigit then digitRun isDigit s + 1 else 0

/-- How long the digits are after an optional underscore, as behind `0x`. -/
def basedRun (isDigit : Char → Bool) (s : Source) : Nat :=
  match s with
  | g :: rest =>
    if g.is '_' then
      let n := digitRun isDigit rest
      if n = 0 then 0 else n + 1
    else digitRun isDigit s
  | [] => 0

/-- How long an exponent is that starts with one of the letters `marks`; zero if
    there is none. -/
def exponentRun (marks : List Char) (s : Source) : Nat :=
  match s with
  | g :: rest =>
    if g.satisfies marks.contains then
      let sign := if headIs (fun c => c == '+' || c == '-') rest then 1 else 0
      let n := digitRun Char.isDigit (rest.drop sign)
      if n = 0 then 0 else 1 + sign + n
    else 0
  | [] => 0

/-- The whole number with the mark of a base that a source starts with: its sort
    and length. -/
def basedAt? (s : Source) : Option (Token × Nat) :=
  let marked (marks : List Char) := headIs (· == '0') s && headIs marks.contains (s.drop 1)
  let digits := s.drop 2
  let whole (isDigit : Char → Bool) : Option (Token × Nat) :=
    let n := basedRun isDigit digits
    if n = 0 then none else some (.int, 2 + n)
  if marked ['x', 'X'] then
    let n := basedRun isHex digits
    let fraction :=
      if headIs (· == '.') (digits.drop n) then 1 + digitRun isHex (digits.drop (n + 1)) else 0
    let power := exponentRun ['p', 'P'] (digits.drop (n + fraction))
    if power = 0 then whole isHex else some (.float, 2 + n + fraction + power)
  else if marked ['b', 'B'] then whole fun c => c == '0' || c == '1'
  else if marked ['o', 'O'] then whole isOctal
  else none

/-- The number without a mark of its base that a source starts with. A zero makes
    it octal, unless it is a fraction or imaginary. -/
def decimalAt (s : Source) : Token × Nat :=
  let whole := digitRun Char.isDigit s
  let rest := s.drop whole
  let fraction := if headIs (· == '.') rest then 1 + digitRun Char.isDigit (rest.drop 1) else 0
  let power := exponentRun ['e', 'E'] (s.drop (whole + fraction))
  if fraction + power ≠ 0 then (.float, whole + fraction + power)
  else if headIs (· == '0') s && !headIs (· == 'i') rest then (.int, digitRun isOctal s)
  else (.int, whole)

/-- The number a source starts with: its sort and length. -/
def numberAt (s : Source) : Token × Nat :=
  let (sort, n) := (basedAt? s).getD (decimalAt s)
  if headIs (· == 'i') (s.drop n) then (.imaginary, n + 1) else (sort, n)

/-- Whether at least `n` hexadecimal digits stand at the start. -/
def hexAhead (n : Nat) (s : Source) : Bool :=
  n ≤ countWhile isHex s

/-- How many digits must follow the letter of a numeric escape. -/
def escapeDigits (c : Char) : Nat :=
  if c == 'x' then 2 else if c == 'u' then 4 else if c == 'U' then 8 else 0

/-- The length of an interpreted string up to its closing quote, the opening one
    being read; none if a line ends first or an escape is malformed. -/
def textRun? : Source → Option Nat
  | [] => none
  | g :: s =>
    if g.is '"' then some 1
    else if g.is '\n' then none
    else if g.is '\\' then
      match s with
      | .char c :: rest =>
        if hexAhead (escapeDigits c) rest then (textRun? rest).map (· + 2) else none
      | .stray _ :: rest => (textRun? rest).map (· + 2)
      | [] => none
    else (textRun? s).map (· + 1)

/-- The length of the character or escape between the quotes of a rune. -/
def runeRun? : Source → Option Nat
  | .char '\\' :: .char c :: rest =>
    if escapeDigits c > 0 then
      if hexAhead (escapeDigits c) rest then some (2 + escapeDigits c) else none
    else if '0' ≤ c && c ≤ '7' then
      if 2 ≤ countWhile (fun d => '0' ≤ d && d ≤ '7') rest then some 4 else none
    else if ['a', 'b', 'f', 'n', 'r', 't', 'v', '\\', '\x27', '"'].contains c then some 2
    else none
  | g :: _ => if g.is '\x27' || g.is '\\' then none else some 1
  | [] => none

/-- The length of a rune, quotes included. -/
def runeAt? (s : Source) : Option Nat :=
  match runeRun? (s.drop 1) with
  | some n => if headIs (· == '\x27') (s.drop (1 + n)) then some (n + 2) else none
  | none => none

/-- What is cut off next. -/
def nextCut {κ : Type} (comment : κ) (s : Source) : Cut κ Token Unit :=
  let solid (sort : Token) (count : Nat) : Cut κ Token Unit :=
    ⟨some (.solid sort), count, (), false⟩
  let junk := solid .junk 1
  match s with
  | [] => junk
  | g :: rest =>
    if g.is '\n' then ⟨some .lineEnd, 1, (), false⟩
    else if g.satisfies isSpace then ⟨none, countWhile isSpace s, (), false⟩
    else if startsWith ['/', '/'] s then
      ⟨some (.aside comment), (s.takeWhile fun h => !h.is '\n').length, (), false⟩
    else if startsWith ['/', '*'] s then
      match Source.countThrough? ['*', '/'] (s.drop 2) with
      | some n => ⟨some (.aside comment), n + 2, (), false⟩
      | none => junk
    else if g.satisfies isWordStart then solid .word (countWhile isWordPart s)
    else if g.satisfies Char.isDigit || (g.is '.' && headIs Char.isDigit rest) then
      let (sort, n) := numberAt s
      solid sort n
    else if g.is '"' then
      match textRun? rest with
      | some n => solid .text (n + 1)
      | none => junk
    else if g.is '\x60' then
      match Source.countThrough? ['\x60'] rest with
      | some n => solid .rawText (n + 1)
      | none => junk
    else if g.is '\x27' then
      match runeAt? s with
      | some n => solid .rune n
      | none => junk
    else
      match longSigns.find? (startsWith · s) with
      | some chars => solid .sign chars.length
      | none => if g.satisfies shortSigns.contains then solid .sign 1 else junk

/-- The lexemes of a Go text, with comments of the kind `comment`. -/
def lexemes {κ : Type} (comment : κ) (source : Source) : List (Lexeme κ Token) :=
  Grammar.lexemes (fun _ => nextCut comment) () source

end CodeAtlas.Go
