import CodeAtlas.Grammar.Basic

/-!
# Cutting source into lexemes

A lexer looks at the rest of the source and says how many glyphs to cut off next
and what they are (`Cut`); it may carry a state from one cut to the next, such as
the quotes it stands in. `lexemes` repeats this to the end and keeps the places.
-/

namespace CodeAtlas

namespace Source

/-- How many glyphs at the start are characters satisfying `p`. -/
def countWhile (p : Char → Bool) : Source → Nat
  | [] => 0
  | g :: s => if g.satisfies p then countWhile p s + 1 else 0

/-- Whether the source starts with these characters. -/
def startsWith : List Char → Source → Bool
  | [], _ => true
  | _ :: _, [] => false
  | c :: cs, g :: s => g.is c && startsWith cs s

/-- The first glyph is a character satisfying `p`. -/
def headIs (p : Char → Bool) : Source → Bool
  | [] => false
  | g :: _ => g.satisfies p

/-- How many glyphs stand up to and including the first occurrence of `mark`. -/
def countThrough? (mark : List Char) : Source → Option Nat
  | [] => if mark.isEmpty then some 0 else none
  | g :: s =>
    if startsWith mark (g :: s) then some mark.length
    else (countThrough? mark s).map (· + 1)

end Source

namespace Grammar

/-- A hexadecimal digit. -/
def isHex (c : Char) : Bool :=
  c.isDigit || ('a' ≤ c && c ≤ 'f') || ('A' ≤ c && c ≤ 'F')

/-- An octal digit. -/
def isOctal (c : Char) : Bool :=
  '0' ≤ c && c ≤ '7'

/-- The characters of `s` with the letters of ASCII in lower case. -/
def foldCase (s : String) : String :=
  String.ofList (s.toList.map Char.toLower)

/-- What to cut off next: `count` glyphs, which are skipped if they have no form.
    With `fold` the letter case of the lexeme does not count. -/
structure Cut (κ φ σ : Type) where
  form : Option (Form κ φ)
  count : Nat
  state : σ
  fold : Bool := false

variable {κ φ σ : Type}

/-- Cuts the source that starts at `p` into lexemes, each at least one glyph
    long. -/
def lexemesFrom (next : σ → Source → Cut κ φ σ) :
    Nat → σ → Position → Source → List (Lexeme κ φ)
  | 0, _, _, _ => []
  | _ + 1, _, _, [] => []
  | n + 1, state, p, g :: s =>
    let cut := next state (g :: s)
    let taken := (g :: s).take (max cut.count 1)
    let stop := taken.foldl Position.advance p
    let rest := lexemesFrom next n cut.state stop ((g :: s).drop (max cut.count 1))
    match cut.form with
    | none => rest
    | some form =>
      let text := Source.text taken
      ⟨form, if cut.fold then foldCase text else text, ⟨p, stop⟩⟩ :: rest

/-- The lexemes of a source text. A byte order mark at its start is skipped. -/
def lexemes (next : σ → Source → Cut κ φ σ) (state : σ) (source : Source) :
    List (Lexeme κ φ) :=
  match source with
  | [] => []
  | g :: s =>
    if g.is (Char.ofNat 0xFEFF) then
      lexemesFrom next s.length state (Position.advance .origin g) s
    else lexemesFrom next (s.length + 1) state .origin (g :: s)

end Grammar

end CodeAtlas
