import CodeAtlas.Json.Basic
import CodeAtlas.Text.Digit

/-!
# Reading JSON

`Json.read?` takes exactly the texts that the standard allows, with nothing but
white space around the value, arrays and objects nested less than `depthLimit`
deep, and no half of a surrogate pair alone. An integer that does not fit in 64
bits is kept as a decimal, and so is a negative zero.
-/

namespace CodeAtlas.Json

/-- How deep arrays and objects may not be nested. -/
def depthLimit : Nat := 128

/-- One more than the largest number of 64 bits. -/
def wordLimit : Nat := 0x10000000000000000

/-- White space between the parts of a value. -/
def isSpace (c : Char) : Bool :=
  c == ' ' || c == '\n' || c == '\t' || c == '\r'

/-- The text from the next part on. -/
def skipSpace (s : List Char) : List Char :=
  s.dropWhile isSpace

/-- The number that four hexadecimal digits make, and what follows them. -/
def hexFour? : List Char → Option (Nat × List Char)
  | a :: b :: c :: d :: rest =>
    match Text.hexDigit? a, Text.hexDigit? b, Text.hexDigit? c, Text.hexDigit? d with
    | some a, some b, some c, some d => some (((a * 16 + b) * 16 + c) * 16 + d, rest)
    | _, _, _, _ => none
  | _ => none

/-- The character that an escape of one letter stands for. -/
def letterEscape? (c : Char) : Option Char :=
  if c == '"' || c == '\\' || c == '/' then some c
  else if c == 'b' then some (Char.ofNat 0x08)
  else if c == 'f' then some (Char.ofNat 0x0C)
  else if c == 'n' then some '\n'
  else if c == 'r' then some '\r'
  else if c == 't' then some '\t'
  else none

/-- The character that an escape with the code unit `high` stands for; a high
    surrogate needs the low one behind it. -/
def unitEscape? (high : Nat) (s : List Char) : Option (Char × List Char) :=
  if 0xD800 ≤ high && high < 0xDC00 then
    match s with
    | '\\' :: 'u' :: rest =>
      match hexFour? rest with
      | some (low, rest) =>
        if 0xDC00 ≤ low && low < 0xE000 then
          some (Char.ofNat (0x10000 + (high - 0xD800) * 0x400 + (low - 0xDC00)), rest)
        else none
      | none => none
    | _ => none
  else if 0xDC00 ≤ high && high < 0xE000 then none
  else some (Char.ofNat high, s)

/-- The characters of a string up to its closing quote, the opening one being
    read, and what follows. -/
def readString? : Nat → List Char → Option (List Char × List Char)
  | 0, _ => none
  | _ + 1, [] => none
  | n + 1, c :: s =>
    if c == '"' then some ([], s)
    else if c == '\\' then
      match s with
      | [] => none
      | e :: s =>
        let escaped :=
          if e == 'u' then (hexFour? s).bind fun (unit, rest) => unitEscape? unit rest
          else (letterEscape? e).map fun d => (d, s)
        match escaped with
        | none => none
        | some (d, rest) => (readString? n rest).map fun (ds, rest) => (d :: ds, rest)
    else if c.toNat < 0x20 then none
    else (readString? n s).map fun (cs, rest) => (c :: cs, rest)

/-- A number: its sign, the digits before and what stands behind the point and the
    exponent mark, and what follows it. -/
def readNumber? (s : List Char) : Option (Json × List Char) :=
  let (minus, s₁) := match s with
    | '-' :: rest => (true, rest)
    | _ => (false, s)
  let whole := s₁.takeWhile Char.isDigit
  let s₂ := s₁.dropWhile Char.isDigit
  if whole.isEmpty || (whole.length > 1 && whole.head? == some '0') then none
  else
    let fraction? : Option (List Char × List Char) := match s₂ with
      | '.' :: rest =>
        let ds := rest.takeWhile Char.isDigit
        if ds.isEmpty then none else some ('.' :: ds, rest.dropWhile Char.isDigit)
      | _ => some ([], s₂)
    match fraction? with
    | none => none
    | some (fraction, s₃) =>
      let power? : Option (List Char × List Char) := match s₃ with
        | e :: rest =>
          if e == 'e' || e == 'E' then
            let (sign, rest) := match rest with
              | c :: rest' => if c == '+' || c == '-' then ([c], rest') else ([], rest)
              | [] => ([], rest)
            let ds := rest.takeWhile Char.isDigit
            if ds.isEmpty then none else some (e :: sign ++ ds, rest.dropWhile Char.isDigit)
          else some ([], s₃)
        | [] => some ([], s₃)
      match power? with
      | none => none
      | some (power, s₄) =>
        let n := Text.decimalValue whole
        let text := (if minus then ['-'] else []) ++ whole ++ fraction ++ power
        let value : Json :=
          if fraction.isEmpty && power.isEmpty then
            if minus then
              if 0 < n && n ≤ wordLimit / 2 then .negative n else .decimal (String.ofList text)
            else if n < wordLimit then .nat n
            else .decimal (String.ofList text)
          else .decimal (String.ofList text)
        some (value, s₄)

/-- A fixed word, and what follows it. -/
def readWord? (word : List Char) (value : Json) (s : List Char) : Option (Json × List Char) :=
  if word.isPrefixOf s then some (value, s.drop word.length) else none

mutual

/-- A value at the start of the text, and what follows it. The depth says how
    many more levels may be opened. -/
def readValue? : Nat → Nat → List Char → Option (Json × List Char)
  | 0, _, _ => none
  | n + 1, depth, s =>
    match s with
    | [] => none
    | c :: rest =>
      if c == '"' then
        (readString? (rest.length + 1) rest).map fun (cs, rest) => (.str (String.ofList cs), rest)
      else if c == '[' then
        if depth ≤ 1 then none
        else
          match skipSpace rest with
          | ']' :: rest => some (.arr [], rest)
          | rest => (readItems? n (depth - 1) rest).map fun (items, rest) => (.arr items, rest)
      else if c == '\x7b' then
        if depth ≤ 1 then none
        else
          match skipSpace rest with
          | '\x7d' :: rest => some (.obj [], rest)
          | rest => (readMembers? n (depth - 1) rest).map fun (ms, rest) => (.obj ms, rest)
      else if c == 'n' then readWord? ['n', 'u', 'l', 'l'] .null s
      else if c == 't' then readWord? ['t', 'r', 'u', 'e'] (.bool true) s
      else if c == 'f' then readWord? ['f', 'a', 'l', 's', 'e'] (.bool false) s
      else readNumber? s

/-- The items of an array up to its closing bracket. -/
def readItems? : Nat → Nat → List Char → Option (List Json × List Char)
  | 0, _, _ => none
  | n + 1, depth, s =>
    match readValue? n depth s with
    | none => none
    | some (item, rest) =>
      match skipSpace rest with
      | ',' :: rest =>
        (readItems? n depth (skipSpace rest)).map fun (items, rest) => (item :: items, rest)
      | ']' :: rest => some ([item], rest)
      | _ => none

/-- The members of an object up to its closing brace. -/
def readMembers? : Nat → Nat → List Char → Option (List (String × Json) × List Char)
  | 0, _, _ => none
  | n + 1, depth, s =>
    match s with
    | '"' :: rest =>
      match readString? (rest.length + 1) rest with
      | none => none
      | some (key, rest) =>
        match skipSpace rest with
        | ':' :: rest =>
          match readValue? n depth (skipSpace rest) with
          | none => none
          | some (value, rest) =>
            match skipSpace rest with
            | ',' :: rest =>
              (readMembers? n depth (skipSpace rest)).map fun (ms, rest) =>
                ((String.ofList key, value) :: ms, rest)
            | '\x7d' :: rest => some ([(String.ofList key, value)], rest)
            | _ => none
        | _ => none
    | _ => none

end

/-- The value that a text is. -/
def readChars? (s : List Char) : Option Json :=
  match readValue? (2 * s.length + 2) depthLimit (skipSpace s) with
  | some (value, rest) => if (skipSpace rest).isEmpty then some value else none
  | none => none

/-- The value that a text is. -/
def read? (s : String) : Option Json :=
  readChars? s.toList

end CodeAtlas.Json
