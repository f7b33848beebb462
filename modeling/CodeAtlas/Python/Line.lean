import CodeAtlas.Text.Blank

/-!
# Logical lines

A statement of Python may extend over several physical lines: as long as a bracket
or a string in triple quotes is open, or a line ends in a backslash. `logicalLines`
groups the physical lines accordingly. `scanLine` reads one of them: what it keeps
is the line up to its comment.

Strings in single or double quotes end with their line, whether they are closed or
not.
-/

namespace CodeAtlas.Python

open Text

/-- What is open at the end of a line: a string in triple quotes, and a number of
    brackets. -/
structure ScanState where
  triple : Option Char := none
  depth : Nat := 0
  deriving DecidableEq, Repr

/-- What a character of a line stands in: code, a string up to the given quote, or
    a string up to three of them. -/
inductive Mode where
  | code
  | string (quote : Char)
  | triple (quote : Char)
  deriving DecidableEq, Repr

/-- The mode that a line starts in. -/
def ScanState.mode (st : ScanState) : Mode :=
  match st.triple with
  | some q => .triple q
  | none => .code

/-- What is open after a line that ends in the given mode. -/
def ScanState.ofMode (mode : Mode) (depth : Nat) : ScanState :=
  match mode with
  | .triple q => ⟨some q, depth⟩
  | .code | .string _ => ⟨none, depth⟩

/-- An opening bracket. -/
def isOpening (c : Char) : Bool :=
  c == '(' || c == '[' || c == '\x7b'

/-- A closing bracket. -/
def isClosing (c : Char) : Bool :=
  c == ')' || c == ']' || c == '\x7d'

/-- A quote. -/
def isQuote (c : Char) : Bool :=
  c == '\x27' || c == '"'

/-- The number of open brackets after the character `c` of code. -/
def depthAfter (c : Char) (depth : Nat) : Nat :=
  if isOpening c then depth + 1 else if isClosing c then depth - 1 else depth

/-- Reads the rest of a line: what is kept of it, and what is open at its end. -/
def scanFrom (mode : Mode) (depth : Nat) : List Char → List Char × ScanState
  | [] => ([], .ofMode mode depth)
  | c :: rest =>
    let keep (taken : List Char) (r : List Char × ScanState) : List Char × ScanState :=
      (taken ++ r.1, r.2)
    match mode with
    | .triple q =>
      match rest with
      | [] => ([c], .ofMode mode depth)
      | d :: rest' =>
        if c == '\\' then keep [c, d] (scanFrom mode depth rest')
        else
          match rest' with
          | e :: rest'' =>
            if c == q && d == q && e == q then keep [c, d, e] (scanFrom .code depth rest'')
            else keep [c] (scanFrom mode depth (d :: e :: rest''))
          | [] => keep [c] (scanFrom mode depth [d])
    | .string q =>
      if c == '\\' then
        match rest with
        | [] => ([c], .ofMode mode depth)
        | d :: rest' => keep [c, d] (scanFrom mode depth rest')
      else keep [c] (scanFrom (if c == q then .code else mode) depth rest)
    | .code =>
      if c == '#' then ([], ⟨none, depth⟩)
      else if isQuote c then
        match rest with
        | d :: e :: rest' =>
          if d == c && e == c then keep [c, d, e] (scanFrom (.triple c) depth rest')
          else keep [c] (scanFrom (.string c) depth (d :: e :: rest'))
        | [d] => keep [c] (scanFrom (.string c) depth [d])
        | [] => keep [c] (scanFrom (.string c) depth [])
      else keep [c] (scanFrom .code (depthAfter c depth) rest)

/-- Reads one physical line: what is kept of it, and what is open at its end. -/
def scanLine (st : ScanState) (line : List Char) : List Char × ScanState :=
  scanFrom st.mode st.depth line

/-- Whether a line that was read goes on behind a backslash. -/
def continues (code : List Char) (st : ScanState) : Bool :=
  st.triple.isNone && (trimEnd code).getLast? == some '\\'

/-- The column at which a line starts. A tab goes to the next multiple of eight. -/
def indentFrom (width : Nat) : List Char → Nat
  | ' ' :: s => indentFrom (width + 1) s
  | '\t' :: s => indentFrom ((width / 8 + 1) * 8) s
  | _ => width

/-- The column at which a line starts. -/
def indentOf (line : List Char) : Nat :=
  indentFrom 0 line

/-- What a logical line is. -/
inductive LineKind where
  | blank | comment | decorator | code
  deriving DecidableEq, Repr

/-- A logical line: its physical lines, both ends included, its indentation, and its
    code on one line, without comments. -/
structure LogicalLine where
  first : Nat
  last : Nat
  indent : Nat
  kind : LineKind
  code : List Char
  deriving DecidableEq, Repr

/-- The line says something. -/
def LogicalLine.isCode (l : LogicalLine) : Bool :=
  l.kind = .code || l.kind = .decorator

/-- A logical line that is being read: its first physical line, and the pieces of
    code found so far. -/
structure OpenLine where
  first : Nat
  text : List Char
  pieces : List (List Char)

namespace OpenLine

/-- Adds the code of one more physical line. -/
def add (l : OpenLine) (code : List Char) (goesOn : Bool) : OpenLine :=
  let piece := trim code
  let piece := if goesOn then trimEnd (dropEnd (· == '\\') piece) else piece
  if piece.isEmpty then l else { l with pieces := l.pieces ++ [piece] }

/-- The logical line that ends with the physical line `last`. -/
def close (l : OpenLine) (last : Nat) : LogicalLine :=
  let code := joinWith [' '] l.pieces
  let kind := match code with
    | [] => if (trimStart l.text).head? == some '#' then .comment else .blank
    | c :: _ => if c == '@' then .decorator else .code
  ⟨l.first, last, indentOf l.text, kind, code⟩

end OpenLine

/-- Groups physical lines, the next of which has the number `n`; `current` is the
    logical line that is open. -/
def groupLines (st : ScanState) (n : Nat) (current : Option OpenLine) :
    List (List Char) → List LogicalLine
  | [] => []
  | line :: rest =>
    let (code, st') := scanLine st line
    let goesOn := continues code st'
    let current := (current.getD ⟨n, line, []⟩).add code goesOn
    if (st'.triple.isSome || st'.depth > 0 || goesOn) && !rest.isEmpty then
      groupLines st' (n + 1) (some current) rest
    else current.close n :: groupLines st' (n + 1) none rest

/-- The logical lines of some physical lines. -/
def logicalLines (physical : List (List Char)) : List LogicalLine :=
  groupLines {} 1 none physical

end CodeAtlas.Python
