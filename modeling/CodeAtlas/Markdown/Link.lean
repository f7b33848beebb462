import CodeAtlas.Markdown.Margin
import CodeAtlas.Text.Case

/-!
# The parts of links

A link names its target in parentheses, `(target "title")`, or by a label,
`[label]`, that is defined elsewhere in the document. Labels are compared without
regard to letter case and to the kind of white space in them (`foldLabel`). A web
or mail address in angle brackets is a link as well (`address?`).
-/

namespace CodeAtlas.Markdown

open Text

/-! ## Labels -/

/-- How long a label may be. -/
def labelLimit : Nat := 1000

/-- A label behind its opening bracket: its text and what follows the closing
    bracket. `breaks` is how many line ends stand in the run of white space that was
    passed last; there is at most one. -/
def labelFrom? (fuel : Nat) (breaks : Nat) : List Char → Option (List Char × List Char)
  | [] => none
  | '\\' :: c :: s =>
    match fuel with
    | 0 => none
    | fuel + 1 => (labelFrom? fuel 0 s).map fun (l, rest) => ('\\' :: c :: l, rest)
  | c :: s =>
    match fuel with
    | 0 => none
    | fuel + 1 =>
      if c == '[' then none
      else if c == ']' then some ([], s)
      else
        let breaks := if !isWhite c then 0 else if c == '\n' then breaks + 1 else breaks
        if breaks > 1 then none
        else (labelFrom? fuel breaks s).map fun (l, rest) => (c :: l, rest)

/-- The label that a text starts with, behind the opening bracket: its text, which
    is not blank, and what follows it. -/
def label? (s : List Char) : Option (List Char × List Char) :=
  match labelFrom? labelLimit 0 s with
  | some (l, rest) => if l.all isWhite then none else some (l, rest)
  | none => none

/-- The form of a label that does not depend on letter case and on white space. -/
def foldLabel (l : List Char) : List Char :=
  let words := (splitOn isWhite l).filter (!·.isEmpty)
  let folded := (joinWith [' '] words).flatMap lower
  folded.flatMap fun c => if c == 'ß' then ['s', 's'] else [c]

/-! ## Targets and titles -/

/-- How deep parentheses may be nested in a target. -/
def parenLimit : Nat := 6

/-- The rest behind a target in angle brackets, behind the opening one. -/
def anglesEnd? : List Char → Option (List Char)
  | [] => none
  | '\\' :: c :: s => if isAsciiPunctuation c then anglesEnd? s else anglesEnd? (c :: s)
  | c :: s =>
    if c == '>' then some s
    else if c == '\n' || c == '\r' || c == '<' then none
    else anglesEnd? s

/-- The rest behind a bare target, within `nest` open parentheses. -/
def bareEnd? (nest : Nat) : List Char → Option (List Char)
  | [] => if nest = 0 then some [] else none
  | '\\' :: c :: s =>
    if isAsciiPunctuation c then bareEnd? nest s else bareEnd? nest (c :: s)
  | c :: s =>
    if c.toNat ≤ 0x20 then if nest = 0 then some (c :: s) else none
    else if c == '(' then if nest < parenLimit then bareEnd? (nest + 1) s else none
    else if c == ')' then if nest = 0 then some (c :: s) else bareEnd? (nest - 1) s
    else bareEnd? nest s

/-- The rest behind the target that a text starts with. -/
def targetEnd? (s : List Char) : Option (List Char) :=
  match s with
  | '<' :: rest => anglesEnd? rest
  | _ => bareEnd? 0 s

/-- What closes a title that starts with `c`. -/
def titleCloser? (c : Char) : Option Char :=
  if c == '"' || c == '\x27' then some c else if c == '(' then some ')' else none

/-- The rest behind a title that `close` ends. -/
def titleRest? (opening close : Char) : List Char → Option (List Char)
  | [] => none
  | '\\' :: c :: s =>
    if isAsciiPunctuation c then titleRest? opening close s
    else titleRest? opening close (c :: s)
  | c :: s =>
    if c == close then some s
    else if c == opening then none
    else titleRest? opening close s

/-- The rest behind the title that a text starts with. -/
def titleEnd? (s : List Char) : Option (List Char) :=
  match s with
  | c :: rest => (titleCloser? c).bind fun close => titleRest? c close rest
  | [] => none

/-- The rest behind white space with at most one line end in it. -/
def skipSeparator (s : List Char) : List Char :=
  let s := s.dropWhile isGap
  (s.drop ((lineEnd? s).getD 0)).dropWhile isGap

/-- The rest behind the target and title in parentheses that a text starts with. -/
def resource? (s : List Char) : Option (List Char) := do
  let s ← strip? ['('] s
  let s ← targetEnd? (skipSeparator s)
  let s := skipSeparator s
  let s := match titleEnd? s with
    | some rest => skipSeparator rest
    | none => s
  strip? [')'] s

/-! ## Addresses in angle brackets -/

/-- A web address behind an angle bracket, and what follows it. -/
def webAddress? (s : List Char) : Option (List Char × List Char) :=
  let scheme := s.takeWhile fun c => c.isAlphanum || c == '.' || c == '-' || c == '+'
  let starts := s.head?.any Char.isAlpha && 2 ≤ scheme.length && scheme.length ≤ 32
  let body := (s.drop scheme.length).takeWhile fun c =>
    !(c.toNat ≤ 0x20) && c != '<' && c != '>'
  let address := scheme ++ body
  match s.drop address.length with
  | '>' :: rest => if starts && body.head? == some ':' then some (address, rest) else none
  | _ => none

/-- A part of a host name: letters, digits and inner hyphens. -/
def isHostLabel (l : List Char) : Bool :=
  !l.isEmpty && l.length ≤ 63 && l.all (fun c => c.isAlphanum || c == '-') &&
    l.head? != some '-' && l.getLast? != some '-'

/-- A mail address behind an angle bracket, and what follows it. -/
def mailAddress? (s : List Char) : Option (List Char × List Char) :=
  let isUser (c : Char) : Bool :=
    c.isAlphanum || ".!#$%&\x27*+/=?^_\x60\x7b|\x7d~-".toList.contains c
  let user := s.takeWhile isUser
  match s.drop user.length with
  | '@' :: after =>
    let host := after.takeWhile fun c => c.isAlphanum || c == '-' || c == '.'
    match after.drop host.length with
    | '>' :: rest =>
      if !user.isEmpty && (splitOn (· == '.') host).all isHostLabel then
        some (user ++ '@' :: host, rest)
      else none
    | _ => none
  | _ => none

/-- The address in angle brackets that a text starts with, and what follows it. -/
def address? (s : List Char) : Option (List Char × List Char) :=
  match s with
  | '<' :: s => (webAddress? s).orElse fun _ => mailAddress? s
  | _ => none

end CodeAtlas.Markdown
