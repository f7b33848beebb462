import CodeAtlas.Glob.Shape
import CodeAtlas.Text.Utf8

/-!
# Glob patterns

Patterns of paths. `?` stands for one byte and `*` for any number of them, `[a-z]` and
`[!a-z]` for a byte of a set or outside of it, `{a,b}` for either of two patterns, and
a backslash takes the next character as it is. `**` as a whole part of a path stands
for any number of parts. Whether the other marks match a slash is up to the rules
(`Glob.Rules`).
-/

namespace CodeAtlas.Glob

/-- Why a pattern is not well-formed. -/
inductive Flaw where
  | openSet
  | badRange (first last : Char)
  | strayBrace
  | openBrace
  | strayBackslash
  deriving DecidableEq, Repr

/-- What to tell of a flaw. -/
def Flaw.message : Flaw → String
  | .openSet => "unclosed character class; missing \x27]\x27"
  | .badRange first last =>
    "invalid range; \x27" ++ String.singleton first ++ "\x27 > \x27" ++ String.singleton last ++
      "\x27"
  | .strayBrace =>
    "unopened alternate group; missing \x27\x7b\x27 " ++
      "(maybe escape \x27\x7d\x27 with \x27[\x7d]\x27?)"
  | .openBrace =>
    "unclosed alternate group; missing \x27\x7d\x27 " ++
      "(maybe escape \x27\x7b\x27 with \x27[\x7b]\x27?)"
  | .strayBackslash => "dangling \x27\\\x27"

/-- How patterns are read. -/
structure Rules where
  /-- `?` and `*` match a slash. -/
  crossing : Bool
  /-- A set that is not closed is no flaw: its bracket stands for itself. -/
  openSets : Bool

/-- A part of a pattern. -/
inductive Token where
  | literal (c : Char)
  | any
  | star
  /-- Any parts of a path at the start. -/
  | leading
  /-- Any parts of a path at the end. -/
  | trailing
  /-- Any parts of a path between slashes. -/
  | between
  | set (negated : Bool) (ranges : List (Char × Char))
  | group (shape : Shape)
  deriving DecidableEq, Repr

/-! ## Shapes of patterns -/

/-- The bytes of a character. -/
def bytesOfChar (c : Char) : Bytes :=
  bytesOf (String.singleton c)

/-- A range of characters as ranges of bytes: those of its ends in a row, with a range
    between the last byte of the first and the first byte of the second. -/
def byteRanges (first last : Char) : List (UInt8 × UInt8) :=
  let ones (bytes : Bytes) := bytes.map fun b => (b, b)
  match (bytesOfChar first).reverse, bytesOfChar last with
  | lo :: before, hi :: behind =>
    if first = last then ones (bytesOfChar first)
    else ones before.reverse ++ [(lo, hi)] ++ ones behind
  | _, _ => []

/-- Any byte, or any but a slash. -/
def wildcard (rules : Rules) : Shape :=
  .byte (if rules.crossing then .all else ⟨true, [(0x2F, 0x2F)]⟩)

/-- A slash. -/
def slash : Shape := .byte (.single 0x2F)

/-- Any string. -/
def anything : Shape := .many (.byte .all)

/-- The shape of what a part of a pattern matches. -/
def Token.shape (rules : Rules) : Token → Shape
  | .literal c => .text (bytesOfChar c)
  | .any => wildcard rules
  | .star => .many (wildcard rules)
  | .leading => .either (.either .empty slash) (.both anything slash)
  | .trailing => .both slash anything
  | .between => .either slash (.both slash (.both anything slash))
  | .set negated ranges => .byte ⟨negated, ranges.flatMap fun (a, b) => byteRanges a b⟩
  | .group shape => shape

/-- The shape of the parts of a pattern in a row. -/
def shapeOf (rules : Rules) (tokens : List Token) : Shape :=
  .row (tokens.map (Token.shape rules))

/-! ## Reading patterns -/

/-- Reads a set behind its bracket and sign: the ranges, last one first, and the rest.
    None if the set is not closed. -/
def readSet? (first inRange : Bool) (ranges : List (Char × Char)) :
    List Char → Except Flaw (Option (List (Char × Char) × List Char))
  | [] => .ok none
  | c :: s =>
    if c == ']' && !first then
      .ok (some (if inRange then ('-', '-') :: ranges else ranges, s))
    else if c == '-' && !first && !inRange then readSet? false true ranges s
    else
      match inRange, ranges with
      | true, (a, _) :: others =>
        if c < a then .error (.badRange a c) else readSet? false false ((a, c) :: others) s
      | _, _ => readSet? false false ((c, c) :: ranges) s

/-- What was read of a pattern: the alternatives that are open, innermost first, with
    their parts, last one first, and at which of them each open brace stands. -/
structure Draft where
  branches : List (List Token) := [[]]
  braces : List Nat := []
  /-- A set was found that is not closed. -/
  openSet : Bool := false

namespace Draft

/-- Adds a part. -/
def push (d : Draft) (t : Token) : Draft :=
  match d.branches with
  | top :: rest => { d with branches := (t :: top) :: rest }
  | [] => d

/-- The parts of the innermost alternative, last one first. -/
def top (d : Draft) : List Token :=
  d.branches.headD []

/-- Opens a brace. -/
def openGroup (d : Draft) : Draft :=
  { d with branches := [] :: d.branches, braces := d.branches.length :: d.braces }

/-- Closes a brace. Alternatives without any shape do not count. -/
def closeGroup (rules : Rules) (d : Draft) : Except Flaw Draft :=
  match d.braces with
  | [] => .error .strayBrace
  | height :: braces =>
    let inner := d.branches.take (d.branches.length - height)
    let shapes := inner.reverse.map fun tokens => shapeOf rules tokens.reverse
    let outer : Draft := { d with branches := d.branches.drop inner.length, braces }
    .ok (outer.push (.group (.anyOf (shapes.filter (· ≠ .empty)))))

/-- Starts the next alternative, if a brace is open. -/
def comma (d : Draft) : Draft :=
  if d.braces.isEmpty then d.push (.literal ',') else { d with branches := [] :: d.branches }

/-- Replaces the last part by one for any parts of a path. -/
def widen (d : Draft) (isLast : Bool) : Draft :=
  match d.branches with
  | (t :: top) :: rest =>
    let wide := if t = .leading ∨ t = .trailing then t else if isLast then .trailing else .between
    { d with branches := (wide :: top) :: rest }
  | _ => d

/-- Two stars behind the character `prev` and before the text `s`; the second component
    is how many characters of it are used up. -/
def doubleStar (d : Draft) (prev : Option Char) (s : List Char) : Draft × Nat :=
  let plain := (d.push .star).push .star
  let nested := d.branches.length > 1
  match s.head?, d.top.isEmpty with
  | none, true => (d.push .leading, 0)
  | some '/', true => (d.push .leading, 1)
  | _, true => (plain, 0)
  | next, false =>
    if prev != some '/' && !(nested && (prev == some ',' || prev == some '\x7b')) then (plain, 0)
    else
      match next with
      | none => (d.widen true, 0)
      | some '/' => (d.widen false, 1)
      | some c => if nested && (c == ',' || c == '\x7d') then (d.widen true, 0) else (plain, 0)

end Draft

/-- Reads a pattern on behind the character `prev`. -/
def read (rules : Rules) : Nat → Draft → Option Char → List Char → Except Flaw Draft
  | 0, d, _, _ => .ok d
  | _, d, _, [] => .ok d
  | fuel + 1, d, prev, c :: s =>
    match c with
    | '?' => read rules fuel (d.push .any) (some c) s
    | '*' =>
      match s with
      | '*' :: s =>
        let (d, used) := d.doubleStar prev s
        read rules fuel d (if used = 0 then some '*' else some '/') (s.drop used)
      | _ => read rules fuel (d.push .star) (some c) s
    | '[' =>
      if d.openSet then read rules fuel (d.push (.literal c)) (some c) s
      else
        let negated := s.head? == some '!' || s.head? == some '^'
        match readSet? true false [] (if negated then s.drop 1 else s) with
        | .error flaw => .error flaw
        | .ok (some (ranges, rest)) =>
          read rules fuel (d.push (.set negated ranges.reverse)) (some ']') rest
        | .ok none =>
          if rules.openSets then
            read rules fuel { d.push (.literal c) with openSet := true } (some c) s
          else .error .openSet
    | '\x7b' => read rules fuel d.openGroup (some c) s
    | '\x7d' =>
      match d.closeGroup rules with
      | .error flaw => .error flaw
      | .ok d => read rules fuel d (some c) s
    | ',' => read rules fuel d.comma (some c) s
    | '\\' =>
      match s with
      | [] => .error .strayBackslash
      | e :: s => read rules fuel (d.push (.literal e)) (some e) s
    | _ => read rules fuel (d.push (.literal c)) (some c) s

end Glob

/-- A pattern of paths. -/
structure Glob where
  shape : Shape
  deriving DecidableEq, Repr

namespace Glob

/-- The rules for patterns of paths to leave out. -/
def Rules.plain : Rules := ⟨true, false⟩

/-- The rules for patterns in ignore files. -/
def Rules.ignoring : Rules := ⟨false, true⟩

/-- Reads a pattern. -/
def parse (rules : Rules) (pattern : String) : Except Flaw Glob :=
  match read rules pattern.length {} none pattern.toList with
  | .error flaw => .error flaw
  | .ok d =>
    if d.branches.length > 1 then .error .openBrace
    else if d.top = [.leading] then .ok ⟨anything⟩
    else .ok ⟨shapeOf rules d.top.reverse⟩

/-- Whether a path matches the pattern. -/
def isMatch (g : Glob) (path : String) : Bool :=
  g.shape.isMatch (bytesOf path)

end Glob

end CodeAtlas
