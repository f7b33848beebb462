import CodeAtlas.Php.Declaration
import CodeAtlas.Proofs.Php.Written
import CodeAtlas.Proofs.Python.FromImport
import CodeAtlas.Proofs.Python.Keyword

/-!
# Constants that are strings

A string that a name is declared as is told with the white space in it collapsed, as if it were
code over several lines. So it is told as it is written only if its white space is single blanks
(`Spaced`).

* `collapse_eq_self_iff`: which texts stay as they are;
* `Python.StringAssignment.values_eq`: the value on the line of an assignment, in any module;
* `Php.StringConstant.constants_eq`: the constant of a file that declares one;
* `string_constants_told`: both.
-/

namespace CodeAtlas

open Text List

variable {c : Char} {b : Binding}

/-! ## White space in a value -/

namespace Text

variable {s : List Char}

/-- White space stands in the text only between other characters, and is a single blank. -/
def Spaced (s : List Char) : Prop :=
  Neat s ∧ ∀ c ∈ s, isBlank c = true → c = ' '

/-- By induction on what is left, where `word` was read of a word before it, last character
    first. -/
theorem joinWith_wordsFrom {word : List Char}
    (hs : (word.headD ' ' :: (s ++ [' '])).IsChain fun a b => ¬(isBlank a ∧ isBlank b))
    (hblank : ∀ c ∈ s, isBlank c → c = ' ') :
    joinWith [' '] (wordsFrom word s) = word.reverse ++ s := by
  induction s generalizing word with
  | nil =>
    cases word with
    | nil => exact absurd ⟨rfl, rfl⟩ (isChain_cons_cons.1 hs).1
    | cons c word => simp [wordsFrom, joinWith]
  | cons c s ih =>
    obtain ⟨hc, hchain⟩ := isChain_cons_cons.1 hs
    obtain ⟨hfirst, hrest⟩ := forall_mem_cons.1 hblank
    rw [wordsFrom]
    split
    · next hb =>
      obtain rfl := hfirst hb
      have hjoin : joinWith [' '] (wordsFrom [] s) = s := @ih [] hchain hrest
      cases word with
      | nil => exact absurd ⟨rfl, rfl⟩ hc
      | cons d word =>
        cases hwords : wordsFrom [] s with
        | nil =>
          rw [hwords] at hjoin
          cases hjoin
          exact absurd ⟨rfl, rfl⟩ (isChain_cons_cons.1 hchain).1
        | cons w ws =>
          rw [hwords] at hjoin
          simp [joinWith, hjoin]
    · rw [@ih (c :: word) hchain hrest]
      simp

theorem blank_of_mem_collapse (hc : c ∈ collapse s) (hblank : isBlank c) : c = ' ' := by
  have hcount : (collapse s).countP (fun c => isBlank c && c != ' ') = 0 := by
    rw [collapse, countP_joinWith rfl, countP_eq_zero]
    intro d hd
    obtain ⟨w, hw, hd⟩ := mem_flatten.1 hd
    simp [(filled_of_mem_wordsFrom (by simp) hw).2 d hd]
  simpa [hblank] using countP_eq_zero.1 hcount c hc

theorem collapse_eq_self_iff (hs : s ≠ []) : collapse s = s ↔ Spaced s := by
  refine ⟨fun h => ⟨?_, fun c hc => ?_⟩, fun h => joinWith_wordsFrom h.1 h.2⟩
  · have hneat := neat_collapse s
    rw [h] at hneat
    exact hneat.resolve_left hs
  · exact blank_of_mem_collapse (h.symm ▸ hc)

end Text

/-! ## Python -/

namespace Python

variable {d : Declared}

/-- A statement that gives a name a string, which stands on one line. -/
structure StringAssignment where
  name : List Char
  marks : List Char
  quote : Char
  body : List Piece
  name_word : IsWord name
  name_free : String.ofList name ∉ reserved
  marks_letters : ∀ c ∈ marks, isStringMark c = true
  quote_sound : isQuote quote = true
  body_sound : ∀ p ∈ body, p ≠ .plain quote ∧ p ≠ .plain '\\'

namespace StringAssignment

variable (a : StringAssignment)

/-- The string as it is written. -/
def literal : List Char :=
  a.marks ++ (a.quote :: (a.body.flatMap Piece.text ++ [a.quote]))

def text : List Char :=
  a.name ++ (" = ".toList ++ a.literal)

theorem text_eq : a.text = (a.name ++ (" = ".toList ++ a.marks)) ++
    (a.quote :: (a.body.flatMap Piece.text ++ [a.quote])) := by
  simp [text, literal]

/-- No character of the string is taken for one that starts a comment. -/
theorem scanFrom_text : scanFrom .code 0 a.text = (a.text, ⟨none, 0⟩) := by
  have hspecial : ∀ c ∈ specials,
      isWordChar c = false ∧ isStringMark c = false ∧ c ∉ " = ".toList :=
    forall_mem_of_all (by decide +kernel)
  have hplain : ∀ c ∈ a.name ++ (" = ".toList ++ a.marks), c ∉ specials := by
    intro c hc h
    obtain ⟨hword, hmark, hequals⟩ := hspecial c h
    simp only [mem_append] at hc
    rcases hc with hc | hc | hc
    · simp [a.name_word.2 c hc] at hword
    · exact hequals hc
    · simp [a.marks_letters c hc] at hmark
  have hshort : resume [] .code 0 (a.quote :: (a.body.flatMap Piece.text ++ [a.quote])) [] = _ :=
    resume_short a.quote_sound a.body_sound (by simp)
  have hquoted : kept [] (scanFrom .code 0 _) = _ := (cons.inj hshort).1
  rw [text_eq, scanFrom_append hplain]
  refine (congrArg _ hquoted).trans ?_
  simp [kept, scanFrom, ScanState.ofMode]

theorem isBlank_quote : isBlank a.quote = false := by
  have hquote := a.quote_sound
  rw [isQuote, Bool.or_eq_true, beq_iff_eq, beq_iff_eq] at hquote
  rcases hquote with h | h <;> rw [h] <;> rfl

theorem exists_text : ∃ s, a.text = s ++ [a.quote] :=
  ⟨a.name ++ (" = ".toList ++ a.marks) ++ a.quote :: a.body.flatMap Piece.text, by simp [text_eq]⟩

theorem trimEnd_text : trimEnd a.text = a.text := by
  obtain ⟨s, hs⟩ := a.exists_text
  rw [hs, trimEnd, dropEnd_concat, a.isBlank_quote]
  rfl

/-- The logical line that the statement is. -/
def line (n : Nat) : LogicalLine :=
  ⟨n, n, 0, .code, a.text⟩

theorem groupLines_text (n : Nat) (rest : List (List Char)) :
    groupLines {} n none (a.text :: rest) = a.line n :: groupLines {} (n + 1) none rest := by
  have hscan : scanLine {} a.text = (a.text, ⟨none, 0⟩) := a.scanFrom_text
  have hcontinues : continues a.text ⟨none, 0⟩ = false := by
    obtain ⟨s, hs⟩ := a.exists_text
    have hslash := ne_backslash_of_isQuote a.quote_sound
    rw [continues, trimEnd_text, hs]
    simpa using hslash
  obtain ⟨c, s, hname⟩ := exists_cons_of_ne_nil a.name_word.1
  have hc : isWordChar c := a.name_word.2 c (hname ▸ mem_cons_self)
  have htext : a.text = c :: (s ++ (" = ".toList ++ a.literal)) := by rw [text, hname, cons_append]
  have hadd : OpenLine.add ⟨n, a.text, []⟩ a.text false = ⟨n, a.text, [a.text]⟩ := by
    have htrim : trim a.text = a.text := by
      rw [trim, trimStart_of_starts (s := a.text) (a.name_word.starts _), trimEnd_text]
    have hne : a.text ≠ [] := htext ▸ cons_ne_nil _ _
    simp [OpenLine.add, htrim, hne]
  have hclose : OpenLine.close ⟨n, a.text, [a.text]⟩ n = a.line n := by
    have hother : c ≠ '@' ∧ c ≠ ' ' ∧ c ≠ '\t' := by
      refine ⟨?_, ?_, ?_⟩ <;> rintro rfl <;> cases hc
    have hindent : indentOf a.text = 0 := by
      rw [htext, indentOf, indentFrom]
      · exact fun s h => hother.2.1 (cons.inj h).1
      · exact fun s h => hother.2.2 (cons.inj h).1
    rw [OpenLine.close, joinWith, hindent, line]
    simp [htext, hother]
  rw [groupLines, hscan]
  simp [hcontinues, hadd, hclose]

theorem head_literal : ∃ c s, a.literal = c :: s ∧ isBlank c = false ∧ c ≠ '=' := by
  cases hmarks : a.marks with
  | nil =>
    refine ⟨a.quote, _, by rw [literal, hmarks]; rfl, a.isBlank_quote, ?_⟩
    rintro h
    have hquote := a.quote_sound
    rw [h] at hquote
    cases hquote
  | cons c marks =>
    have hall : ∀ c ∈ ['r', 'R', 'u', 'U', 'b', 'B', 'f', 'F'], isBlank c = false ∧ c ≠ '=' :=
      forall_mem_of_all (by decide +kernel)
    have hc := a.marks_letters c (hmarks ▸ mem_cons_self)
    exact ⟨c, _, by rw [literal, hmarks]; rfl, hall c (by simpa [isStringMark] using hc)⟩

theorem assigned?_text : assigned? a.text =
    if a.name.head?.any isNameStart then some ⟨a.name, [], collapse a.literal⟩ else none := by
  have hread : name? a.text = if a.name.head?.any isNameStart then
      some (a.name, " = ".toList ++ a.literal) else none :=
    name?_append a.name_word (by simp [show isWordChar ' ' = false from rfl])
  cases hstart : a.name.head?.any isNameStart with
  | false =>
    rw [hstart] at hread
    simp [assigned?, assignment?, typed?, hread]
  | true =>
    rw [hstart] at hread
    have hkeyword : keywords ⊆ reserved := by decide +kernel
    have hname : String.ofList a.name ∉ keywords := fun h => a.name_free (hkeyword h)
    obtain ⟨c, s, hliteral, hblank, hequals⟩ := a.head_literal
    have hstarts : Starts a.literal := by
      rw [hliteral]
      simpa [Starts] using hblank
    have hgap : ∀ c ∈ [' '], isBlank c := all_eq_true.1 rfl
    have hvalue : trimStart (' ' :: a.literal) = a.literal := trimStart_gap hgap hstarts
    have htrim : trimStart (" = ".toList ++ a.literal) = '=' :: ' ' :: a.literal := rfl
    have hassignment : assignment? a.text = some ⟨a.name, [], a.literal⟩ := by
      simp only [assignment?, hread, if_true, Option.bind_eq_bind, Option.bind_some, htrim, hvalue]
      rfl
    rw [assigned?, hassignment]
    simp [hname, hliteral, hequals]
    rfl

/-- The name is no other word, so the statement is none that such a word starts. -/
theorem passed :
    classHeader? a.text = none ∧ defHeader? a.text = none ∧ imports? a.text = none := by
  have hafter : ∀ word ∈ reserved, afterWord? word a.text = none := by
    intro word hword
    cases hstrip : strip? word.toList a.text with
    | none => rw [afterWord?, hstrip]; rfl
    | some t =>
      rw [afterWord?, hstrip]
      cases t with
      | nil => rfl
      | cons c t =>
        refine if_neg fun hc => a.name_free ?_
        -- Both words end before the first blank of the line.
        have hletters := (isWord_of_mem_reserved hword).1.2
        have htake {w : List Char} {b : Char} (hw : ∀ c ∈ w, isWordChar c)
            (hb : isBlank b) (s : List Char) :
            (w ++ b :: s).takeWhile (!isBlank ·) = w := by
          rw [takeWhile_append_of_pos fun c hc => by simp [isBlank_of_isWordChar (hw c hc)]]
          simp [hb]
        have hline := strip?_eq_some_iff.1 hstrip
        have hname : a.name = word.toList := by
          have hblank : isBlank ' ' := rfl
          rw [← htake a.name_word.2 hblank ('=' :: ' ' :: a.literal), ← htake hletters hc t,
            ← hline]
          rfl
        rw [hname, String.ofList_toList]
        exact hword
  have hclass := hafter "class" (by decide)
  have hasync := hafter "async" (by decide)
  have hdef := hafter "def" (by decide)
  have hfrom := hafter "from" (by decide)
  have himport := hafter "import" (by decide)
  simp [classHeader?, defHeader?, imports?, fromImports?, moduleImports?, hclass, hasync, hdef,
    hfrom, himport]

/-- What the statement makes. -/
theorem value?_of_head {n : Nat} (hd : d.head = a.line n) (s : Script) :
    (d.value? s).map (fun b => (b.name, b.value)) =
      if a.name.head?.any isNameStart then
        some (String.ofList a.name, String.ofList (collapse a.literal))
      else none := by
  obtain ⟨hclass, hdef, himports⟩ := a.passed
  have hcode : d.head.code = a.text := congrArg LogicalLine.code hd
  rw [Declared.value?, LogicalLine.opensBlock, bindingOf?, hcode, hclass, hdef, himports,
    a.assigned?_text]
  cases a.name.head?.any isNameStart <;> rfl

end StringAssignment

theorem startLine_of_value? {s : Script} (h : d.value? s = some b) :
    b.span.startLine = d.head.first := by
  rw [Declared.value?] at h
  split at h
  · cases h
  · obtain ⟨a, -, ⟨⟩⟩ := Option.bind_eq_some_iff.1 h
    rfl

/-- The values on the line of the statement. -/
theorem StringAssignment.values_eq (a : StringAssignment) (path : String)
    {text above below : List Char} (htext : lines text = lines above ++ a.text :: lines below)
    (habove : EndsClosed {} (lines above)) :
    let o := outline path text
    let values := (o.constants ++ o.vars).filter (·.span.startLine = (lines above).length + 1)
    ((∃ b, b ∈ values) ↔ a.name.head?.any isNameStart) ∧
      ∀ b ∈ values, b.name = String.ofList a.name ∧
        b.value = String.ofList (collapse a.literal) := by
  intro o values
  let n := (lines above).length + 1
  have hlines : logicalLines (lines text) =
      logicalLines (lines above) ++ a.line n :: groupLines {} (n + 1) none (lines below) := by
    rw [htext, logicalLines_append habove, a.groupLines_text]
  have hunique : ∀ l ∈ logicalLines (lines text), l.first = n → l = a.line n := by
    intro l hl hfirst
    rw [hlines, mem_append, mem_cons] at hl
    rcases hl with hl | rfl | hl
    · have := (le_of_mem_above hl).1
      omega
    · rfl
    · have := (lt_of_mem_below hl).1
      omega
  have hvalues : ∀ b, b ∈ values ↔ ∃ d ∈ statementsOf (lines text), d.head = a.line n ∧
      d.value? ⟨Path.slashed path, lines text⟩ = some b := by
    intro b
    rw [mem_filter, mem_values_outline, decide_eq_true_eq]
    constructor
    · rintro ⟨⟨d, hd, hb⟩, hstart⟩
      refine ⟨d, hd, hunique _ (subset_of_mem_statementsIn d hd mem_cons_self) ?_, hb⟩
      rw [← startLine_of_value? hb, hstart]
    · rintro ⟨d, hd, hhead, hb⟩
      exact ⟨⟨d, hd, hb⟩, by rw [startLine_of_value? hb, hhead]; rfl⟩
  have hmade (d : Declared) (hhead : d.head = a.line n) :=
    a.value?_of_head hhead ⟨Path.slashed path, lines text⟩
  have hread : ∀ b ∈ values, a.name.head?.any isNameStart ∧
      b.name = String.ofList a.name ∧ b.value = String.ofList (collapse a.literal) := by
    intro b hb
    obtain ⟨d, -, hhead, hb⟩ := (hvalues b).1 hb
    have hmap := hmade d hhead
    rw [hb] at hmap
    split at hmap
    · next hstart => exact ⟨hstart, Prod.mk.inj (Option.some.inj hmap)⟩
    · cases hmap
  refine ⟨⟨fun ⟨b, hb⟩ => (hread b hb).1, fun hstart => ?_⟩, fun b hb => (hread b hb).2⟩
  have hp : ∀ l : LogicalLine, l.isTop → l.isCode ∧ l.indent = 0 := fun l hl => by
    simpa [LogicalLine.isTop] using hl
  have hmem : a.line n ∈ logicalLines (lines text) := by simp [hlines]
  obtain ⟨d, hd, hhead⟩ : ∃ d ∈ statementsOf (lines text), d.head = a.line n :=
    exists_mem_statementsIn hp hmem rfl (by simp [line])
  have hmap := hmade d hhead
  rw [if_pos hstart] at hmap
  obtain ⟨b, hb, -⟩ := Option.map_eq_some_iff.1 hmap
  exact ⟨b, (hvalues b).2 ⟨d, hd, hhead, hb⟩⟩

end Python

/-! ## PHP -/

namespace Php

open Grammar Source

variable {rest : Source}

theorem singleRun?_append {body : List Piece}
    (hbody : ∀ p ∈ body, p ≠ .plain '\x27' ∧ p ≠ .plain '\\') (rest : Source) :
    singleRun? (glyphs (body.flatMap Piece.text) ++ .char '\x27' :: rest) =
      some ((body.flatMap Piece.text).length + 1) := by
  induction body with
  | nil => exact singleRun?.eq_def _
  | cons p body ih =>
    obtain ⟨hp, hbody⟩ := forall_mem_cons.1 hbody
    have ih := ih hbody
    cases p with
    | plain c =>
      have hquote : (Glyph.char c).is '\x27' = false := beq_false_of_ne fun h => hp.1 (h ▸ rfl)
      have hslash : (Glyph.char c).is '\\' = false := beq_false_of_ne fun h => hp.2 (h ▸ rfl)
      refine (singleRun?.eq_def (.char c :: (glyphs _ ++ _))).trans ?_
      simp only [hquote, hslash]
      exact congrArg (Option.map (· + 1)) ih
    | escaped c =>
      refine (singleRun?.eq_def (.char '\\' :: .char c :: (glyphs _ ++ _))).trans ?_
      exact congrArg (Option.map (· + 2)) ih

theorem isSpace_of_isNameStart (hc : isNameStart c) : isSpace c = false := by
  rw [isNameStart] at hc
  rw [isSpace]
  by_cases hblank : c = ' '
  · subst hblank
    cases hc
  · by_cases hline : c = '_'
    · subst hline
      rfl
    · delta Char.isAlpha Char.isUpper Char.isLower at hc
      simp [Char.le_def, UInt32.le_iff_toNat_le, hblank, hline] at hc ⊢
      omega

theorem cutCode_word (hc : isNameStart c) (hdouble : headIs (· == '"') rest = false)
    (hsingle : headIs (· == '\x27') rest = false) :
    cutCode Kind.pause .comment [.code] (.char c :: rest) = cutWord [.code] (.char c :: rest) := by
  have hother : c ≠ '?' ∧ c ≠ '#' ∧ c ≠ '/' ∧ c ≠ '$' := by
    refine ⟨?_, ?_, ?_, ?_⟩ <;> rintro rfl <;> cases hc
  rw [cutCode]
  simp [startsWith, Glyph.satisfies, Glyph.is, Ne.symm hother.1, Ne.symm hother.2.1,
    Ne.symm hother.2.2.1, Ne.symm hother.2.2.2, isSpace_of_isNameStart hc, hc, hdouble, hsingle]

theorem cutCode_single {n : Nat} (h : singleRun? rest = some n) :
    cutCode Kind.pause .comment [.code] (.char '\x27' :: rest) = solid .string (n + 1) [.code] := by
  have hspace : isSpace '\x27' = false := rfl
  have hname : isNameStart '\x27' = false := rfl
  rw [cutCode]
  simp [startsWith, Glyph.satisfies, Glyph.is, hspace, hname, h]

/-- A declaration of a constant as a string in single quotes. -/
structure StringConstant where
  name : List Char
  body : List Piece
  name_ne : name ≠ []
  name_head : ∀ c ∈ name.head?, isNameStart c = true
  name_tail : ∀ c ∈ name, isNamePart c = true
  body_sound : ∀ p ∈ body, p ≠ .plain '\x27' ∧ p ≠ .plain '\\'

namespace StringConstant

variable (k : StringConstant)

/-- The string as it is written. -/
def literal : List Char :=
  '\x27' :: (k.body.flatMap Piece.text ++ ['\x27'])

/-- The constant in a file. -/
def source : Source :=
  ofString (String.ofList ("<?php\nconst ".toList ++ (k.name ++ (" = ".toList ++
    (k.literal ++ ";\n".toList)))))

theorem nextCut_literal (rest : Source) :
    nextCut Kind.pause .comment [.code] (glyphs k.literal ++ rest) =
      solid .string (glyphs k.literal).length [.code] := by
  have hrun := singleRun?_append k.body_sound rest
  rw [literal]
  simp only [nextCut, glyphs, map_cons, map_append, cons_append, append_assoc, map_nil,
    nil_append] at hrun ⊢
  rw [cutCode_single hrun]
  simp

theorem nextCut_name (rest : Source) : ∃ fold,
    nextCut Kind.pause .comment [.code] (glyphs k.name ++ (glyphs " = ".toList ++ rest)) =
      ⟨some (.solid .word), (glyphs k.name).length, [.code], fold⟩ := by
  have hrun : countWhile isNamePart (glyphs k.name ++ (glyphs " = ".toList ++ rest)) =
      (glyphs k.name).length :=
    countWhile_append (by simpa [glyphs, Glyph.satisfies] using k.name_tail) rfl
  obtain ⟨c, s, hname⟩ := exists_cons_of_ne_nil k.name_ne
  have hnext : ∀ d, isNamePart d = false → d ≠ ' ' →
      headIs (· == d) (glyphs s ++ (glyphs " = ".toList ++ rest)) = false := by
    intro d hd hblank
    cases s with
    | nil => simpa [glyphs, headIs, Glyph.satisfies] using hblank.symm
    | cons e s =>
      have he : isNamePart e := k.name_tail e (by simp [hname])
      simp [glyphs, headIs, Glyph.satisfies]
      rintro rfl
      simp [hd] at he
  rw [hname] at hrun ⊢
  exact ⟨_, (cutCode_word (k.name_head c (by simp [hname])) (hnext _ rfl (by decide))
    (hnext _ rfl (by decide))).trans (congrArg (Cut.mk _ · _ _) hrun)⟩

end StringConstant

theorem constants_of_parse (path : String) (source : Source) (name s : String)
    (e₁ e₂ e₃ e₄ e₅ e₆ : Extent) :
    ((dialect.parse? isAside .file .file [⟨.solid .tag, "<?php", e₁⟩,
      ⟨.solid .word, "const", e₂⟩, ⟨.solid .word, name, e₃⟩, ⟨.solid .sign, "=", e₄⟩,
      ⟨.solid .string, s, e₅⟩, ⟨.solid .sign, ";", e₆⟩]).map (outlineOf path source)).map
      (fun o => o.constants.map fun b => (b.name, b.value)) =
    some [(source.excerpt e₃.start.byte e₃.stop.byte,
      collapseString (source.excerpt e₅.start.byte e₅.stop.byte))] := by
  rfl

namespace StringConstant

variable (k : StringConstant)

/-- The constant that is read of the file. -/
theorem constants_eq (path : String) : ∃ o, outline? path k.source = some o ∧
    o.constants.map (fun b => (b.name, b.value)) =
      [(String.ofList k.name, String.ofList (collapse k.literal))] := by
  let behind := glyphs " = ".toList ++ (glyphs k.literal ++ glyphs ";\n".toList)
  let pre := glyphs "<?php\n".toList ++ glyphs "const".toList ++ glyphs [' ']
  have hsource : k.source = glyphs "<?php\n".toList ++ (glyphs "const".toList ++ (glyphs [' '] ++
      (glyphs k.name ++ behind))) := by
    simp [source, ofString, glyphs, behind]
  obtain ⟨c, t, hname⟩ := exists_cons_of_ne_nil k.name_ne
  have hspace : headIs isSpace (glyphs k.name ++ behind) = false := by
    rw [hname]
    exact isSpace_of_isNameStart (k.name_head c (by simp [hname]))
  obtain ⟨fold, hcut⟩ := k.nextCut_name (glyphs k.literal ++ glyphs ";\n".toList)
  obtain ⟨e₁, htag⟩ := lexemes_tag (s := glyphs "const".toList ++ (glyphs [' '] ++
    (glyphs k.name ++ behind))) rfl
  rw [← hsource] at htag
  have hfirst : nextCut Kind.pause .comment [.code] (glyphs "const".toList ++ (glyphs [' '] ++
      (glyphs k.name ++ behind))) = ⟨some (.solid .word), 5, [.code], true⟩ := rfl
  have hconst : codeBehind (glyphs "<?php\n".toList) _ = ⟨.solid .word, "const", _⟩ :: _ :=
    codeBehind_cons (by simp [glyphs]) hfirst _
  have hblank : codeBehind _ (glyphs [' '] ++ (glyphs k.name ++ behind)) = codeBehind pre _ :=
    codeBehind_blank hspace rfl
  have hword : codeBehind pre (glyphs k.name ++ behind) = ⟨.solid .word, _, _⟩ :: _ :=
    codeBehind_cons (by simp [glyphs, hname]) hcut pre
  obtain ⟨e₄, hequals⟩ := codeBehind_equals (s := glyphs k.literal ++ glyphs ";\n".toList)
    (pre ++ glyphs k.name) rfl
  have hstring : codeBehind (pre ++ glyphs k.name ++ glyphs " = ".toList)
      (glyphs k.literal ++ glyphs ";\n".toList) = ⟨.solid .string, _, _⟩ :: _ :=
    codeBehind_cons (by simp [glyphs, literal]) (k.nextCut_literal _) _
  obtain ⟨e₆, hend⟩ :=
    codeBehind_end (pre ++ glyphs k.name ++ glyphs " = ".toList ++ glyphs k.literal)
  have hlexemes := htag.trans (congrArg _ (hconst.trans (congrArg _ (hblank.trans (hword.trans
    (congrArg _ (hequals.trans (congrArg _ (hstring.trans (congrArg _ hend))))))))))
  have hnameText := excerpt_extentBehind pre (glyphs k.name) behind
  have hliteralText := excerpt_extentBehind (pre ++ glyphs k.name ++ glyphs " = ".toList)
    (glyphs k.literal) (glyphs ";\n".toList)
  simp only [pre, append_assoc] at hnameText hliteralText
  rw [← hsource] at hnameText hliteralText
  apply Option.map_eq_some_iff.1
  rw [outline?, parse?, hlexemes, constants_of_parse]
  simp only [pre, append_assoc, hnameText, hliteralText]
  rw [glyphs, glyphs, text_map_char, text_map_char, collapseString, String.toList_ofList]

end StringConstant

end Php

/-- The value has the literal with its white space collapsed, which is the literal as it is
    written if its white space is single blanks. -/
structure Collapsed (name literal : List Char) (b : Binding) : Prop where
  name : b.name = String.ofList name
  value : b.value = String.ofList (collapse literal)
  as_written : b.value = String.ofList literal ↔ Spaced literal

theorem collapsed_of_value {name literal : List Char} (hne : literal ≠ [])
    (hname : b.name = String.ofList name) (hvalue : b.value = String.ofList (collapse literal)) :
    Collapsed name literal b where
  name := hname
  value := hvalue
  as_written := by rw [hvalue, String.ofList_inj, collapse_eq_self_iff hne]

/-- A string is told as it is written only if the white space in it is single blanks. In Python
    it is told at all if the name starts with a letter of ASCII or an underscore. -/
theorem string_constants_told (path : String) (a : Python.StringAssignment)
    (k : Php.StringConstant) :
    (∀ text above below : List Char,
      lines text = lines above ++ a.text :: lines below → Python.EndsClosed {} (lines above) →
      let o := Python.outline path text
      let values := (o.constants ++ o.vars).filter (·.span.startLine = (lines above).length + 1)
      ((∃ b, b ∈ values) ↔ a.name.head?.any isNameStart = true) ∧
        ∀ b ∈ values, Collapsed a.name a.literal b) ∧
    ∃ o b, Php.outline? path k.source = some o ∧ o.constants = [b] ∧
      Collapsed k.name k.literal b := by
  refine ⟨fun text above below htext habove => ?_, ?_⟩
  · obtain ⟨hexists, hvalues⟩ := a.values_eq path htext habove
    refine ⟨hexists, fun b hb => ?_⟩
    have hne : a.literal ≠ [] := by simp [Python.StringAssignment.literal]
    exact collapsed_of_value hne (hvalues b hb).1 (hvalues b hb).2
  · obtain ⟨o, ho, hconstants⟩ := k.constants_eq path
    obtain ⟨b, hb, hpair⟩ := map_eq_singleton_iff.1 hconstants
    obtain ⟨hname, hvalue⟩ := Prod.mk.inj hpair
    exact ⟨o, b, ho, hb, collapsed_of_value (cons_ne_nil _ _) hname hvalue⟩

/-- The statement `A = 'x  y'` with two blanks. -/
def twoBlanks : Python.StringAssignment where
  name := ['A']
  marks := []
  quote := '\x27'
  body := [.plain 'x', .plain ' ', .plain ' ', .plain 'y']
  name_word := ⟨by decide, forall_mem_of_all rfl⟩
  name_free := by decide
  marks_letters := by simp
  quote_sound := rfl
  body_sound := forall_mem_of_all (by decide +kernel)

/-- A declaration with single blanks around a quote. -/
def escapedQuote : Php.StringConstant where
  name := ['A']
  body := [.plain 'x', .plain ' ', .escaped '\x27', .plain ' ', .plain 'y']
  name_ne := by decide
  name_head := by simp; rfl
  name_tail := forall_mem_of_all (by decide +kernel)
  body_sound := forall_mem_of_all (by decide +kernel)

theorem string_constants_told_twoBlanks :
    (∃ b ∈ (Python.outline "m.py" "import os\nA = 'x  y'".toList).constants ++
        (Python.outline "m.py" "import os\nA = 'x  y'".toList).vars,
      b.span.startLine = 2 ∧ b.name = "A" ∧ b.value = "'x y'") ∧
    ∃ o b, Php.outline? "m.py" escapedQuote.source = some o ∧ o.constants = [b] ∧
      b.name = "A" ∧ b.value = "'x \\' y'" := by
  obtain ⟨hpython, o, b, ho, hb, hphp⟩ := string_constants_told "m.py" twoBlanks escapedQuote
  have hclosed : Python.EndsClosed {} (lines "import os".toList) := by
    rw [Python.EndsClosed]
    decide +kernel
  obtain ⟨hexists, hvalues⟩ :=
    hpython "import os\nA = 'x  y'".toList "import os".toList [] rfl hclosed
  obtain ⟨c, hc⟩ := hexists.2 rfl
  have hcollapsed := hvalues c hc
  obtain ⟨hmem, hline⟩ := mem_filter.1 hc
  exact ⟨⟨c, hmem, of_decide_eq_true hline, hcollapsed.name, hcollapsed.value⟩, o, b, ho, hb,
    hphp.name, hphp.value⟩

/-- A name that starts with an accented letter, and a string with two blanks. -/
theorem blanks_lost :
    (Python.outline "m.py" "A = 'x  y'\né = 'x'".toList).constants.map (·.value) = ["'x y'"] ∧
      (Python.outline "m.py" "A = 'x  y'\né = 'x'".toList).vars.map (·.value) = [] ∧
      (Php.outline? "a.php" (Source.ofString "<?php\nconst A = 'x  y';\n")).map
        (·.constants.map (·.value)) = some ["'x y'"] := by
  exact ⟨by decide +kernel, by decide +kernel, by decide +kernel⟩

end CodeAtlas
