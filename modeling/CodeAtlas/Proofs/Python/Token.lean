import Mathlib.Data.List.Infix
import CodeAtlas.Proofs.Quoted
import CodeAtlas.Python.Line

/-!
# The lexical rules of Python

A text of Python is read as *tokens* (`Token`), as far as lines, brackets and strings are
concerned: line feeds, backslashes that join a line to the next one, comments, brackets,
string literals, and any other character. In a literal a backslash takes the character
behind it, be it a quote or a line feed. A literal in single quotes goes up to the next
quote, and holds no other line feed. One in triple quotes goes up to the next three of
them.

The rules say which tokens there are (`Token.isSound`), that each of them goes as far as it
can (`Token.endsBefore`), and that brackets are closed by brackets of their kind, the last
opened first (`Token.step`). A *reading* of physical lines (`Reading`) is a list of tokens
that follows the rules and has the text of the lines.

A logical line ends at those line feeds that are tokens of their own outside all brackets
(`EndsAt`); any other line feed is within a literal, behind a backslash or in brackets.
`lineEnds` tells the same line by line, up to the first literal in single quotes that holds
a line feed (`Token.runsOver`).

* `getElem?_lineEnds`: both tell the same;
* `count_le_length_lineEnds`: how many lines are told.
-/

namespace CodeAtlas.Python

open List Option Nat

/-! ## Tokens -/

inductive Bracket where
  | round | square | curly
  deriving DecidableEq, Repr

namespace Bracket

def openingChar : Bracket → Char
  | .round => '('
  | .square => '['
  | .curly => '\x7b'

def closingChar : Bracket → Char
  | .round => ')'
  | .square => ']'
  | .curly => '\x7d'

end Bracket

inductive Token where
  /-- A character that means nothing here. -/
  | plain (c : Char)
  | newline
  /-- A backslash and the line feed behind it. -/
  | joint
  /-- What stands behind the sign of a comment. -/
  | comment (text : List Char)
  | opening (b : Bracket)
  | closing (b : Bracket)
  /-- A string literal, in triple quotes if it is long. -/
  | literal (quote : Char) (long : Bool) (body : List Piece)
  deriving DecidableEq, Repr

/-- The characters with a meaning of their own. -/
def specials : List Char :=
  ['\n', '\\', '#', '\x27', '"', '(', ')', '[', ']', '\x7b', '\x7d']

namespace Token

def quotes (quote : Char) (long : Bool) : List Char :=
  if long then [quote, quote, quote] else [quote]

def text : Token → List Char
  | .plain c => [c]
  | .newline => ['\n']
  | .joint => ['\\', '\n']
  | .comment s => '#' :: s
  | .opening b => [b.openingChar]
  | .closing b => [b.closingChar]
  | .literal q long body => quotes q long ++ body.flatMap Piece.text ++ quotes q long

/-- The token can stand in a text. A literal in triple quotes holds no three quotes in a
    row, and none before those at its end. -/
def isSound : Token → Bool
  | .plain c => !specials.contains c
  | .comment s => !s.contains '\n'
  | .literal q false body =>
    ['\x27', '"'].contains q &&
      body.all fun p => p != .plain q && p != .plain '\\' && p != .plain '\n'
  | .literal q true body =>
    ['\x27', '"'].contains q && body.all (· != .plain '\\') &&
      body.getLast? != some (.plain q) && !decide ([.plain q, .plain q, .plain q] <:+: body)
  | .newline | .joint | .opening _ | .closing _ => true

/-- The token goes no further, given the text behind it: a comment goes to the end of its
    line, and two quotes are a literal unless a third one follows. -/
def endsBefore (rest : List Char) : Token → Bool
  | .comment _ => rest.head? == some '\n'
  | .literal q false [] => rest.head? != some q
  | _ => true

/-- The brackets that are open behind the token, innermost first; none if it closes one
    that is not. -/
def step (opened : List Bracket) : Token → Option (List Bracket)
  | .opening b => some (b :: opened)
  | .closing b => if opened.head? = some b then some opened.tail else none
  | _ => some opened

/-- The token is a literal in single quotes that goes on behind a line feed. -/
def runsOver : Token → Bool
  | .literal _ false body => body.contains (.escaped '\n')
  | _ => false

end Token

/-! ## Readings -/

def textOf (ts : List Token) : List Char :=
  ts.flatMap Token.text

/-- The tokens can stand in a text one behind the other. -/
def areSound : List Token → Bool
  | [] => true
  | t :: ts => t.isSound && t.endsBefore (textOf ts) && areSound ts

/-- The brackets that are open behind some tokens. -/
def openAfter (opened : List Bracket) : List Token → Option (List Bracket)
  | [] => some opened
  | t :: ts => (t.step opened).bind (openAfter · ts)

/-- The text of physical lines. -/
def linesText (physical : List (List Char)) : List Char :=
  physical.flatMap (· ++ ['\n'])

/-- The physical lines are a text that follows the rules, read as the given tokens. -/
structure Reading (physical : List (List Char)) (ts : List Token) : Prop where
  unbroken : ∀ line ∈ physical, '\n' ∉ line
  text_eq : textOf ts = linesText physical
  sound : areSound ts = true
  balanced : openAfter [] ts = some []
  ended : ts.getLast? ≠ some .joint

/-- A logical line ends with the physical line `n`: there is no open bracket, no open
    literal and no backslash at its end. -/
def EndsAt (ts : List Token) (n : Nat) : Prop :=
  ∃ before after, ts = before ++ .newline :: after ∧ (textOf before).count '\n' + 1 = n ∧
    openAfter [] before = some []

/-- Whether a logical line ends with each of the physical lines, up to the first literal
    that runs over. -/
def lineEnds (opened : List Bracket) : List Token → List Bool
  | [] => []
  | t :: ts =>
    if t = .newline then opened.isEmpty :: lineEnds opened ts
    else if t.runsOver then []
    else
      match t.step opened with
      | some opened' => List.replicate (t.text.count '\n') false ++ lineEnds opened' ts
      | none => []

variable {opened : List Bracket} {t : Token} {ts us vs : List Token} {physical : List (List Char)}
  {i : Nat}

theorem textOf_cons : textOf (t :: ts) = t.text ++ textOf ts := flatMap_cons

theorem count_textOf_cons :
    (textOf (t :: ts)).count '\n' = t.text.count '\n' + (textOf ts).count '\n' := by
  rw [textOf_cons, count_append]

theorem areSound_cons :
    areSound (t :: ts) ↔
      t.isSound ∧ t.endsBefore (textOf ts) ∧ areSound ts := by
  simp [areSound, and_assoc]

theorem Token.text_ne_nil : t.text ≠ [] := by
  cases t with
  | literal q long body => cases long <;> simp [text, quotes]
  | _ => simp [text]

theorem eq_nil_of_textOf (h : textOf ts = []) : ts = [] := by
  cases ts with
  | nil => rfl
  | cons t ts =>
    rw [textOf_cons, append_eq_nil_iff] at h
    exact absurd h.1 Token.text_ne_nil

theorem textOf_append : textOf (us ++ vs) = textOf us ++ textOf vs := flatMap_append

theorem openAfter_append :
    openAfter opened (us ++ vs) = (openAfter opened us).bind (openAfter · vs) := by
  induction us generalizing opened with
  | nil => rfl
  | cons t us ih =>
    rw [cons_append, openAfter, openAfter, bind_assoc]
    simp only [ih]

theorem isSound_of_mem (hsound : areSound ts) (ht : t ∈ ts) : t.isSound := by
  induction ts with
  | nil => cases ht
  | cons u ts ih =>
    obtain ⟨hu, -, hrest⟩ := areSound_cons.1 hsound
    rcases mem_cons.1 ht with rfl | ht
    · exact hu
    · exact ih hrest ht

/-- Only a line feed, alone or behind a backslash, ends with one. -/
theorem Token.eq_of_getLast?_text (hsound : t.isSound)
    (hlast : t.text.getLast? = some '\n') : t = .newline ∨ t = .joint := by
  cases t with
  | newline => exact .inl rfl
  | joint => exact .inr rfl
  | plain c =>
    obtain rfl : c = '\n' := by simpa [text] using hlast
    cases hsound
  | comment s =>
    have hmem : '\n' ∈ '#' :: s := mem_of_getLast? hlast
    simp [isSound] at hsound hmem
    exact absurd hmem hsound
  | opening b => cases b <;> cases hlast
  | closing b => cases b <;> cases hlast
  | literal q long body =>
    obtain ⟨s, hs⟩ : ∃ s, (literal q long body).text = s ++ [q] := by
      cases long
      · exact ⟨_, rfl⟩
      · exact ⟨quotes q true ++ body.flatMap Piece.text ++ [q, q], by simp [text, quotes]⟩
    obtain rfl : q = '\n' := by simpa [hs] using hlast
    cases long <;> simp [isSound] at hsound

theorem count_linesText (h : ∀ line ∈ physical, '\n' ∉ line) :
    (linesText physical).count '\n' = physical.length := by
  induction physical with
  | nil => rfl
  | cons line rest ih =>
    have hline : line.count '\n' = 0 := count_eq_zero.2 (h line mem_cons_self)
    have hrest := ih fun l hl => h l (mem_cons_of_mem _ hl)
    rw [linesText, flatMap_cons, count_append, count_append, hline]
    rw [linesText] at hrest
    simp [hrest, Nat.add_comm]

/-! ## Line ends -/

/-- A logical line ends at the line feed with the number `i`, counted from zero. -/
def EndsBehind (opened : List Bracket) (ts : List Token) (i : Nat) : Prop :=
  ∃ before after, ts = before ++ .newline :: after ∧ (textOf before).count '\n' = i ∧
    openAfter opened before = some []

theorem endsBehind_zero : EndsBehind opened (.newline :: ts) 0 ↔ opened = [] := by
  constructor
  · rintro ⟨before, after, hsplit, hcount, hopen⟩
    cases before with
    | nil => exact Option.some.inj hopen
    | cons t before =>
      -- A line feed further behind is not the first one.
      cases hsplit
      rw [count_textOf_cons] at hcount
      simp [Token.text] at hcount
  · rintro rfl
    exact ⟨[], ts, rfl, rfl, rfl⟩

theorem not_endsBehind_of_lt (hnew : t ≠ .newline) (hi : i < t.text.count '\n') :
    ¬ EndsBehind opened (t :: ts) i := by
  rintro ⟨before, after, hsplit, hcount, -⟩
  cases before with
  | nil =>
    cases hsplit
    exact hnew rfl
  | cons u before =>
    cases hsplit
    rw [count_textOf_cons] at hcount
    omega

theorem endsBehind_cons {opened' : List Bracket} (hstep : t.step opened = some opened') :
    EndsBehind opened (t :: ts) (t.text.count '\n' + i) ↔ EndsBehind opened' ts i := by
  constructor
  · rintro ⟨before, after, hsplit, hcount, hopen⟩
    cases before with
    | nil =>
      cases hsplit
      simp [textOf, Token.text] at hcount
      omega
    | cons u before =>
      cases hsplit
      rw [count_textOf_cons] at hcount
      rw [openAfter, hstep] at hopen
      exact ⟨before, after, rfl, Nat.add_left_cancel hcount, hopen⟩
  · rintro ⟨before, after, rfl, rfl, hopen⟩
    exact ⟨t :: before, after, rfl, count_textOf_cons, by rwa [openAfter, hstep]⟩

/-- Which line feeds end a logical line. -/
theorem getElem?_lineEnds (hi : i < (lineEnds opened ts).length) :
    (lineEnds opened ts)[i]? = some true ↔ EndsBehind opened ts i := by
  induction ts generalizing opened i with
  | nil => cases hi
  | cons t ts ih =>
    rw [lineEnds] at hi ⊢
    by_cases hnew : t = .newline
    · subst hnew
      rw [if_pos rfl]
      cases i with
      | zero => simp [endsBehind_zero]
      | succ i =>
        rw [getElem?_cons_succ, ih (Nat.lt_of_succ_lt_succ hi), Nat.add_comm]
        exact (endsBehind_cons rfl).symm
    · rw [if_neg hnew] at hi ⊢
      split at hi
      · cases hi
      · cases hstep : t.step opened with
        | none => simp [hstep] at hi
        | some opened' =>
          rw [if_neg ‹_›]
          simp only [hstep, length_append, length_replicate] at hi ⊢
          by_cases hlt : i < t.text.count '\n'
          · -- This line feed is within the token.
            simp [getElem?_append, hlt, not_endsBehind_of_lt hnew hlt]
          · obtain ⟨j, rfl⟩ := Nat.exists_eq_add_of_le (Nat.le_of_not_lt hlt)
            rw [endsBehind_cons hstep, ← ih (by omega)]
            simp [getElem?_append]

/-- Up to the first literal that runs over, all lines are told. -/
theorem count_le_length_lineEnds (hus : ∀ t ∈ us, t.runsOver = false)
    (hopen : (openAfter opened us).isSome) :
    (textOf us).count '\n' ≤ (lineEnds opened (us ++ vs)).length := by
  induction us generalizing opened with
  | nil => exact zero_le _
  | cons t us ih =>
    have hrest : ∀ t ∈ us, t.runsOver = false := fun t ht => hus t (mem_cons_of_mem _ ht)
    obtain ⟨s, hs⟩ := isSome_iff_exists.1 hopen
    obtain ⟨opened', hstep, hafter⟩ := bind_eq_some_iff.1 hs
    have hcount := ih hrest (isSome_of_eq_some hafter)
    rw [count_textOf_cons, cons_append, lineEnds]
    by_cases hnew : t = .newline
    · subst hnew
      cases hstep
      rw [Nat.add_comm]
      exact succ_le_succ hcount
    · rw [if_neg hnew, hus t mem_cons_self, hstep]
      simpa using hcount

theorem endsAt_iff {n : Nat} : EndsAt ts n ↔ ∃ i, n = i + 1 ∧ EndsBehind [] ts i := by
  constructor
  · rintro ⟨before, after, rfl, rfl, hopen⟩
    exact ⟨_, rfl, before, after, rfl, rfl, hopen⟩
  · rintro ⟨i, rfl, before, after, rfl, rfl, hopen⟩
    exact ⟨before, after, rfl, rfl, hopen⟩

/-- The last physical line ends a logical line. -/
theorem Reading.endsAt_length (h : Reading physical ts) (hne : physical ≠ []) :
    EndsAt ts physical.length := by
  obtain ⟨init, line, hphysical⟩ := (eq_nil_or_concat physical).resolve_left hne
  subst hphysical
  have htext : textOf ts = (linesText init ++ line) ++ ['\n'] := by
    rw [h.text_eq]
    simp [linesText]
  rcases eq_nil_or_concat ts with rfl | ⟨before, t, hts⟩
  · simp [textOf] at htext
  · rw [concat_eq_append] at hts
    subst hts
    have hsound := isSound_of_mem h.sound (mem_append_right _ mem_cons_self)
    have hlast : t.text.getLast? = some '\n' := by
      have hends : (textOf before ++ t.text).getLast? = some '\n' := by
        rw [show textOf before ++ t.text = textOf (before ++ [t]) by simp [textOf], htext]
        simp
      rw [getLast?_append] at hends
      cases ht : t.text.getLast? with
      | none => exact absurd (getLast?_eq_none_iff.1 ht) Token.text_ne_nil
      | some c => rwa [ht] at hends
    have hjoint : t ≠ .joint := by
      rintro rfl
      exact h.ended (by simp)
    obtain rfl := (Token.eq_of_getLast?_text hsound hlast).resolve_right hjoint
    refine ⟨before, [], rfl, ?_, ?_⟩
    · have hcount := congrArg (List.count '\n') h.text_eq
      rw [count_linesText h.unbroken, textOf_append, count_append] at hcount
      exact hcount
    · have hopen := h.balanced
      rw [openAfter_append] at hopen
      obtain ⟨opened, hbefore, hnew⟩ := bind_eq_some_iff.1 hopen
      cases hnew
      exact hbefore

end CodeAtlas.Python
