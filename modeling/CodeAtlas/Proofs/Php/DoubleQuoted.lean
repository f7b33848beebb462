import CodeAtlas.Php.Value
import CodeAtlas.Proofs.Encoding
import CodeAtlas.Proofs.Php.Written
import CodeAtlas.Proofs.Spacing
import CodeAtlas.Text.Digit
import Mathlib.Tactic.SplitIfs

/-!
# Strings in double quotes

A string in double quotes stands for the text between them, with its escapes resolved
(`valueFrom`). Some of the escapes are: those of line ends, tabs, quotes, dollar signs and
backslashes. The others stay as they are written, and so the string that is read is longer than
it should be (`Reads`).

* `unescapeDouble_cases`: what becomes of a backslash;
* `reads_unescapeDouble`: what becomes of a text, by induction on it;
* `contentRun_of_isBare`: a text without other parts is one lexeme;
* `double_quoted_value_iff`: when a string is read as what it stands for.
-/

namespace CodeAtlas.Php

open Grammar Source List Text

/-! ## What a text in double quotes stands for -/

/-- What is written of an escape behind the backslash, and the bytes that it stands for. -/
abbrev Escape := List Char × Bytes

/-- The escapes of one character. -/
def plainEscapes : List (Char × UInt8) :=
  [('n', 10), ('t', 9), ('r', 13), ('v', 11), ('e', 27), ('f', 12), ('\\', 92), ('$', 36),
   ('"', 34)]

def plainEscape? : List Char → Option Escape
  | c :: _ => (plainEscapes.lookup c).map fun b => ([c], [b])
  | [] => none

/-- Up to three octal digits. What is more than a byte of their number is lost. -/
def octalEscape? (s : List Char) : Option Escape :=
  let digits := (s.takeWhile isOctal).take 3
  if digits = [] then none
  else some (digits, [.ofNat (digits.foldl (fun n d => n * 8 + (d.toNat - 0x30)) 0)])

/-- Up to two hexadecimal digits. -/
def hexEscape? : List Char → Option Escape
  | 'x' :: s =>
    let digits := (s.takeWhile isHex).take 2
    if digits = [] then none else some ('x' :: digits, [.ofNat (hexValue digits)])
  | _ => none

/-- The encoding of a code point. -/
def codePointBytes (n : Nat) : Bytes :=
  if n < 0x80 then [.ofNat n]
  else if n < 0x800 then [.ofNat (0xC0 + n / 0x40), .ofNat (0x80 + n % 0x40)]
  else if n < 0x10000 then
    [.ofNat (0xE0 + n / 0x1000), .ofNat (0x80 + n / 0x40 % 0x40), .ofNat (0x80 + n % 0x40)]
  else
    [.ofNat (0xF0 + n / 0x40000), .ofNat (0x80 + n / 0x1000 % 0x40),
      .ofNat (0x80 + n / 0x40 % 0x40), .ofNat (0x80 + n % 0x40)]

/-- A code point in braces. -/
def codePointEscape? : List Char → Option Escape
  | 'u' :: '\x7b' :: s =>
    let digits := s.takeWhile isHex
    if digits ≠ [] ∧ hexValue digits ≤ 0x10FFFF ∧ (s.dropWhile isHex).head? = some '\x7d' then
      some ('u' :: '\x7b' :: (digits ++ ['\x7d']), codePointBytes (hexValue digits))
    else none
  | _ => none

/-- The escape that the text behind a backslash starts with. -/
def escape? (s : List Char) : Option Escape :=
  (plainEscape? s).or ((octalEscape? s).or ((hexEscape? s).or (codePointEscape? s)))

/-- The bytes that a text in double quotes stands for; `skip` characters belong to the escape
    read last. A backslash before anything else stands for itself. -/
def valueFrom (skip : Nat) : List Char → Bytes
  | [] => []
  | c :: s =>
    match skip with
    | k + 1 => valueFrom k s
    | 0 =>
      match if c = '\\' then escape? s else none with
      | some (written, bytes) => bytes ++ valueFrom written.length s
      | none => String.utf8EncodeChar c ++ valueFrom 0 s

/-- The first characters of the escapes in a text. -/
def escapesFrom (skip : Nat) : List Char → List Char
  | [] => []
  | c :: s =>
    match skip with
    | k + 1 => escapesFrom k s
    | 0 =>
      match if c = '\\' then escape? s else none with
      | some (written, _) => written.take 1 ++ escapesFrom written.length s
      | none => escapesFrom 0 s

/-- The escapes that are resolved. -/
def resolved : List Char :=
  ['n', 't', 'r', '\\', '$', '"']

variable {c : Char} {s body : List Char} {e : Escape} {closes : Source → Bool}

/-! ## Escapes -/

/-- The text starts with an escape that is not resolved. It is longer than its value. -/
structure Kept (s : List Char) (e : Escape) : Prop where
  starts : e.1 <+: s
  head : ∀ c ∈ e.1.head?, c ∉ resolved
  ne_nil : e.1 ≠ []
  plain : '\\' ∉ e.1
  length_le : e.2.length ≤ e.1.length

theorem not_mem_singleton (hc : c ∉ resolved) : '\\' ∉ [c] := by
  rw [mem_singleton]
  rintro rfl
  exact hc (by decide)

theorem kept_of_plainEscape? (hc : c ∉ resolved) (h : plainEscape? (c :: s) = some e) :
    Kept (c :: s) e := by
  obtain ⟨b, -, rfl⟩ := Option.map_eq_some_iff.1 h
  exact ⟨⟨s, rfl⟩, by simpa using hc, by simp, not_mem_singleton hc, Nat.le_refl 1⟩

theorem not_mem_resolved_of_digit (hc : isOctal c) : c ∉ resolved := by
  have hall : resolved.all (!isOctal ·) := rfl
  intro h
  have hnot := all_eq_true.1 hall c h
  rw [hc] at hnot
  cases hnot

theorem kept_of_octalEscape? (h : octalEscape? s = some e) : Kept s e := by
  rw [octalEscape?] at h
  split at h
  · cases h
  · next hne =>
    cases h
    have hmem : ∀ c ∈ (s.takeWhile isOctal).take 3, c ∈ s.takeWhile isOctal :=
      fun c => mem_of_mem_take
    exact {
      starts := (List.take_prefix 3 _).trans (List.takeWhile_prefix _)
      head := fun c hc =>
        not_mem_resolved_of_digit (mem_takeWhile_imp (hmem c (mem_of_mem_head? hc)))
      ne_nil := hne
      plain := fun hc => not_mem_takeWhile (by decide) s (hmem _ hc)
      length_le := length_pos_iff.2 hne }

theorem kept_of_hexEscape? (h : hexEscape? s = some e) : Kept s e := by
  rw [hexEscape?.eq_def] at h
  split at h
  · next s =>
    dsimp only at h
    split at h
    · cases h
    · cases h
      exact {
        starts := (prefix_cons_inj 'x').2 ((List.take_prefix 2 _).trans (List.takeWhile_prefix _))
        head := by simp [resolved]
        ne_nil := by simp
        plain := by
          rw [mem_cons, not_or]
          exact ⟨by decide, fun hc => not_mem_takeWhile (by decide) s (mem_of_mem_take hc)⟩
        length_le := by simp }
  · cases h

theorem length_codePointBytes_le (n : Nat) : (codePointBytes n).length ≤ 4 := by
  rw [codePointBytes]
  split_ifs <;> simp

theorem kept_of_codePointEscape? (h : codePointEscape? s = some e) : Kept s e := by
  rw [codePointEscape?.eq_def] at h
  split at h
  · next s =>
    dsimp only at h
    split at h
    · next hdigits =>
      cases h
      obtain ⟨rest, hrest⟩ := head?_eq_some_iff.1 hdigits.2.2
      exact {
        starts := by
          refine (prefix_cons_inj 'u').2 ((prefix_cons_inj '\x7b').2 ⟨rest, ?_⟩)
          rw [append_assoc, singleton_append, ← hrest, takeWhile_append_dropWhile]
        head := by simp [resolved]
        ne_nil := by simp
        plain := by
          have hbackslash : '\\' ∉ s.takeWhile isHex := not_mem_takeWhile (by decide) s
          simp [hbackslash]
        length_le := by
          have hbytes := length_codePointBytes_le (hexValue (s.takeWhile isHex))
          have hpos := length_pos_iff.2 hdigits.1
          rw [length_cons, length_cons, length_append, length_singleton]
          dsimp only
          omega }
    · cases h
  · cases h

/-! ## Resolving -/

theorem unescapeDouble_append (hs : '\\' ∉ s) (t : List Char) :
    unescapeDouble (s ++ t) = s ++ unescapeDouble t := by
  induction s with
  | nil => rfl
  | cons c s ih =>
    rw [mem_cons, not_or] at hs
    rw [cons_append, unescapeDouble, ih hs.2, cons_append]
    exact fun d t h _ => hs.1 h.symm

/-- A backslash before another character stays. -/
theorem unescapeDouble_kept (hc : c ∉ resolved) (s : List Char) :
    unescapeDouble ('\\' :: c :: s) = '\\' :: c :: unescapeDouble s := by
  simp only [resolved, mem_cons, not_or] at hc
  rw [unescapeDouble] <;> simp [hc]

theorem unescapeDouble_resolved (hc : c ∈ resolved) (s : List Char) :
    ∃ d, unescapeDouble ('\\' :: c :: s) = d :: unescapeDouble s ∧
      escape? (c :: s) = some ([c], String.utf8EncodeChar d) := by
  simp only [resolved, mem_cons, not_mem_nil, or_false] at hc
  rcases hc with rfl | rfl | rfl | rfl | rfl | rfl <;> exact ⟨_, rfl, rfl⟩

/-- A backslash is resolved as the escape behind it says, or stays. -/
theorem unescapeDouble_cases (s : List Char) :
    (∃ c t d, s = c :: t ∧ c ∈ resolved ∧ escape? s = some ([c], String.utf8EncodeChar d) ∧
        unescapeDouble ('\\' :: s) = d :: unescapeDouble t) ∨
      (∀ e, escape? s = some e → Kept s e) ∧
        unescapeDouble ('\\' :: s) = '\\' :: unescapeDouble s := by
  cases s with
  | nil => exact .inr ⟨by rintro e ⟨⟩, rfl⟩
  | cons c s =>
    by_cases hc : c ∈ resolved
    · obtain ⟨d, hout, hescape⟩ := unescapeDouble_resolved hc s
      exact .inl ⟨c, s, d, rfl, hc, hescape, hout⟩
    · refine .inr ⟨fun e he => ?_, ?_⟩
      · simp only [escape?, Option.or_eq_some_iff] at he
        rcases he with he | ⟨-, he | ⟨-, he | ⟨-, he⟩⟩⟩
        · exact kept_of_plainEscape? hc he
        · exact kept_of_octalEscape? he
        · exact kept_of_hexEscape? he
        · exact kept_of_codePointEscape? he
      · have hout : unescapeDouble ([c] ++ s) = _ := unescapeDouble_append (not_mem_singleton hc) s
        rw [unescapeDouble_kept hc]
        exact congrArg _ hout.symm

/-- The encoding of some characters. -/
def encoded (s : List Char) : Bytes :=
  s.flatMap String.utf8EncodeChar

theorem length_le_encoded (s : List Char) : s.length ≤ (encoded s).length := by
  induction s with
  | nil => exact Nat.le_refl 0
  | cons c s ih =>
    have hc := c.utf8Size_pos
    rw [encoded, flatMap_cons, length_append, String.length_utf8EncodeChar, length_cons]
    rw [encoded] at ih
    omega

/-- All escapes are resolved and the characters are the value, or an escape is not and the
    characters are too many. -/
def Reads (out : List Char) (value : Bytes) (escapes : List Char) : Prop :=
  (∀ c ∈ escapes, c ∈ resolved) ∧ encoded out = value ∨
    (∃ c ∈ escapes, c ∉ resolved) ∧ value.length < (encoded out).length

namespace Reads

variable {out escapes : List Char} {value : Bytes}

theorem length_le (h : Reads out value escapes) : value.length ≤ (encoded out).length :=
  h.elim (fun h => (congrArg length h.2).ge) fun h => h.2.le

theorem cons (h : Reads out value escapes) (c : Char) :
    Reads (c :: out) (String.utf8EncodeChar c ++ value) escapes := by
  refine h.imp (And.imp_right fun h => ?_) (And.imp_right fun h => ?_)
  · rw [← h]
    rfl
  · rw [encoded, flatMap_cons, length_append, length_append]
    exact Nat.add_lt_add_left h _

theorem resolve (h : Reads out value escapes) (hc : c ∈ resolved) :
    Reads out value (c :: escapes) :=
  h.imp (And.imp_left fun h => forall_mem_cons.2 ⟨hc, h⟩)
    (And.imp_left fun ⟨d, hd, h⟩ => ⟨d, mem_cons_of_mem c hd, h⟩)

theorem keep (h : Reads out value escapes) (he : Kept s e) :
    Reads ('\\' :: (e.1 ++ out)) (e.2 ++ value) (e.1.take 1 ++ escapes) := by
  refine .inr ⟨?_, ?_⟩
  · obtain ⟨c, more, hwritten⟩ := exists_cons_of_ne_nil he.ne_nil
    rw [hwritten]
    exact ⟨c, mem_cons_self, he.head c (by simp [hwritten])⟩
  · have hwritten := he.length_le.trans (length_le_encoded e.1)
    have hout := h.length_le
    have hbackslash : (String.utf8EncodeChar '\\').length = 1 := rfl
    rw [encoded] at hwritten hout
    rw [encoded, flatMap_cons, flatMap_append, length_append, length_append, length_append]
    omega

end Reads

theorem valueFrom_append (e s : List Char) : valueFrom e.length (e ++ s) = valueFrom 0 s := by
  induction e with
  | nil => rfl
  | cons c e ih => exact ih

theorem escapesFrom_append (e s : List Char) :
    escapesFrom e.length (e ++ s) = escapesFrom 0 s := by
  induction e with
  | nil => rfl
  | cons c e ih => exact ih

theorem reads_unescapeDouble (s : List Char) :
    Reads (unescapeDouble s) (valueFrom 0 s) (escapesFrom 0 s) := by
  induction hn : s.length using Nat.strong_induction_on generalizing s with
  | _ n ih =>
    subst hn
    cases s with
    | nil => exact .inl ⟨by simp [escapesFrom], rfl⟩
    | cons c s =>
      have hrest := ih s.length (Nat.lt_succ_self _) s rfl
      by_cases hc : c = '\\'
      · subst hc
        rw [valueFrom, escapesFrom, if_pos rfl]
        rcases unescapeDouble_cases s with ⟨c, t, d, rfl, hc, hescape, hout⟩ | ⟨hkept, hout⟩
        · rw [hescape, hout]
          exact ((ih t.length (by simp only [length_cons]; omega) t rfl).cons d).resolve hc
        · rw [hout]
          cases hescape : escape? s with
          | none => exact hrest.cons _
          | some e =>
            obtain ⟨t, rfl⟩ := (hkept e hescape).starts
            have ht := ih t.length (by simp only [length_cons, length_append]; omega) t rfl
            rw [unescapeDouble_append (hkept e hescape).plain]
            simp only [valueFrom_append, escapesFrom_append]
            exact ht.keep (hkept e hescape)
      · have hout : unescapeDouble (c :: s) = c :: unescapeDouble s :=
          unescapeDouble_append (s := [c]) (by simpa [eq_comm] using hc) s
        rw [valueFrom, escapesFrom, if_neg hc, hout]
        exact hrest.cons c

/-! ## Lexemes -/

/-- A part that is no plain text starts here. -/
def opensPart : List Char → Bool
  | '$' :: c :: _ => c.isAlpha || c == '_' || 0x80 ≤ c.toNat || c == '\x7b'
  | '\x7b' :: c :: _ => c == '$'
  | _ => false

/-- The text holds no quote and no other part, except behind backslashes. -/
def isBare : List Char → Bool
  | [] => true
  | ['\\'] => false
  | '\\' :: _ :: s => isBare s
  | c :: s => c != '"' && !opensPart (c :: s) && isBare s

theorem startsPart_glyphs (h : opensPart body = false) (hne : body ≠ []) (rest : Source) :
    startsPart (glyphs body ++ .char '"' :: rest) = false := by
  obtain ⟨c, s, rfl⟩ := exists_cons_of_ne_nil hne
  -- A part needs a second character, and the quote at the end is none that it may have.
  cases s with
  | nil => simp [startsPart, glyphs, headIs, startsWith, Glyph.satisfies, Glyph.is, isNameStart]
  | cons d s =>
    simp only [startsPart, glyphs, map_cons, cons_append, headIs, startsWith, Glyph.satisfies,
      Glyph.is, isNameStart]
    by_cases hdollar : c = '$'
    · subst hdollar
      simp only [opensPart, Bool.or_eq_false_iff] at h
      simp [h]
    · by_cases hbrace : c = '\x7b'
      · subst hbrace
        have hd : ('$' == d) = false := beq_eq_false_iff_ne.2 fun hd => by cases hd; cases h
        simp [hd]
      · simp [hdollar, Ne.symm hbrace]

theorem startsPart_of_isBare (h : isBare body) (hne : body ≠ []) (rest : Source) :
    headIs (· == '"') (glyphs body ++ .char '"' :: rest) = false ∧
      startsPart (glyphs body ++ .char '"' :: rest) = false := by
  rw [isBare.eq_def] at h
  split at h
  · exact absurd rfl hne
  · cases h
  · exact ⟨rfl, rfl⟩
  · next c s hlast hescaped =>
    simp only [Bool.and_eq_true, Bool.not_eq_true'] at h
    exact ⟨by simpa [glyphs, headIs, Glyph.satisfies] using h.1.1, startsPart_glyphs h.1.2 hne rest⟩

/-- A backslash takes the next character with it. -/
theorem contentRun_escaped {g h : Glyph} {s : Source}
    (hg : (closes (g :: h :: s) || startsPart (g :: h :: s)) = false) (hbackslash : g.is '\\')
    (hbreak : h.is '\n' ∨ h.is '\r' → contentRun closes (h :: s) = contentRun closes s + 1) :
    contentRun closes (g :: h :: s) = contentRun closes s + 2 := by
  rw [contentRun.eq_def]
  simp only [hg, hbackslash, if_true, Bool.false_eq_true, if_false]
  split
  · next h => rw [hbreak (by simpa using h)]
  · rfl

theorem contentRun_plain {g : Glyph} {s : Source}
    (hg : (closes (g :: s) || startsPart (g :: s)) = false) (hbackslash : g.is '\\' = false) :
    contentRun closes (g :: s) = contentRun closes s + 1 := by
  rw [contentRun.eq_def]
  simp [hg, hbackslash]

theorem contentRun_of_isBare (h : isBare body) (rest : Source) :
    contentRun (headIs (· == '"')) (glyphs body ++ .char '"' :: rest) = body.length := by
  fun_induction isBare body with
  | case1 =>
    rw [contentRun.eq_def]
    rfl
  | case2 => cases h
  | case3 d s ih =>
    refine (contentRun_escaped rfl rfl fun hbreak => ?_).trans (congrArg (· + 2) (ih h))
    rcases hbreak with hbreak | hbreak
    all_goals
      obtain rfl : _ = d := beq_iff_eq.1 hbreak
      exact contentRun_plain rfl rfl
  | case4 c s hlast hescaped ih =>
    have hbare : isBare (c :: s) := by rw [isBare] <;> assumption
    obtain ⟨hquote, hpart⟩ := startsPart_of_isBare hbare (by simp) rest
    have hc : c ≠ '\\' := by
      rintro rfl
      cases s with
      | nil => exact hlast rfl rfl
      | cons d s => exact hescaped d s rfl rfl
    simp only [Bool.and_eq_true] at h
    refine (contentRun_plain (Bool.or_eq_false_iff.2 ⟨hquote, hpart⟩) ?_).trans
      (congrArg (· + 1) (ih h.2))
    exact beq_eq_false_iff_ne.2 hc.symm

theorem is_eq_satisfies (g : Glyph) (c : Char) : g.is c = g.satisfies (· == c) := by
  cases g with
  | char d => exact BEq.comm
  | stray b => rfl

theorem startsWith_pair (c d : Char) (s : Source) :
    startsWith [c, d] s = (headIs (· == c) s && headIs (· == d) (s.drop 1)) := by
  rcases s with _ | ⟨g, _ | ⟨h, s⟩⟩ <;> simp [startsWith, headIs, is_eq_satisfies]

/-- Text without other parts is one lexeme. -/
theorem nextCut_content {modes : List Mode} (h : isBare body) (hne : body ≠ [])
    (rest : Source) :
    nextCut Kind.pause .comment (.quoted '"' :: modes) (glyphs body ++ .char '"' :: rest) =
      solid .content (glyphs body).length (.quoted '"' :: modes) := by
  obtain ⟨hquote, hpart⟩ := startsPart_of_isBare h hne rest
  have hrun := contentRun_of_isBare h rest
  have hpos := length_pos_iff.2 hne
  rw [startsPart, Bool.or_eq_false_iff, Bool.and_or_distrib_left, Bool.or_eq_false_iff,
    ← startsWith_pair] at hpart
  have hcut : nextCut Kind.pause .comment (.quoted '"' :: modes)
      (glyphs body ++ .char '"' :: rest) =
      cutString (.quoted '"' :: modes) _ .sign (headIs (· == '"')) _ := rfl
  have hlength : (glyphs body).length = body.length := length_map ..
  rw [hcut, cutString, hlength]
  simp only [hquote, hpart, hrun, hpos, Bool.false_eq_true, if_true, if_false, Nat.lt_irrefl]

/-! ## A string in an assignment -/

/-- A string in double quotes without other parts. It may be marked as binary. -/
structure DoubleQuoted where
  mark : List Char
  body : List Char
  mark_cases : mark = [] ∨ mark = ['b'] ∨ mark = ['B']
  body_bare : isBare body = true

namespace DoubleQuoted

variable (d : DoubleQuoted)

def text : List Char :=
  (d.mark ++ ['"']) ++ (d.body ++ ['"'])

/-- The string that is read. -/
def string : String :=
  String.ofList (unescapeDouble d.body)

theorem stringLiteral_text :
    stringLiteral '"' unescapeDouble (String.ofList d.text) = .text d.string := by
  have hunquote : unquote? '"' d.text = some d.body := by
    rw [text]
    rcases d.mark_cases with hmark | hmark | hmark
    all_goals
      rw [hmark]
      exact stripEnd?_append d.body ['"']
  rw [stringLiteral, String.toList_ofList, hunquote]
  rfl

/-- The bytes of the string are those that it should have if all escapes are resolved. -/
theorem bytesOf_string_iff :
    bytesOf d.string = valueFrom 0 d.body ↔ ∀ c ∈ escapesFrom 0 d.body, c ∈ resolved := by
  rw [bytesOf_eq, string, String.toList_ofList]
  refine ⟨fun heq => ?_, fun hall => ?_⟩
  · rcases reads_unescapeDouble d.body with ⟨hall, -⟩ | ⟨-, hlt⟩
    · exact hall
    · exact absurd (congrArg length heq) hlt.ne'
  · rcases reads_unescapeDouble d.body with ⟨-, heq⟩ | ⟨⟨c, hc, hnot⟩, -⟩
    · exact heq
    · exact absurd (hall c hc) hnot

theorem nextCut_opening (rest : Source) :
    nextCut Kind.pause .comment [.code] (glyphs (d.mark ++ ['"']) ++ rest) =
      solid .sign (glyphs (d.mark ++ ['"'])).length [.quoted '"', .code] := by
  rcases d.mark_cases with hmark | hmark | hmark
  all_goals
    rw [hmark]
    rfl

/-- The text between the quotes is one lexeme, or none if there is no text. -/
theorem exists_content (pre rest : Source) : ∃ content : Option (String × Extent),
    lexemesBehind (nextCut Kind.pause .comment) [.quoted '"', .code] pre
        (glyphs d.body ++ .char '"' :: rest) =
      (content.map fun x => ⟨.solid .content, x.1, x.2⟩).toList ++
        lexemesBehind (nextCut .pause .comment) [.quoted '"', .code] (pre ++ glyphs d.body)
          (.char '"' :: rest) := by
  by_cases hbody : d.body = []
  · exact ⟨none, by simp [hbody, glyphs]⟩
  · exact ⟨some (Source.text (glyphs d.body), _),
      lexemesBehind_append (by simpa [glyphs] using hbody)
      (nextCut_content d.body_bare hbody rest) pre⟩

theorem codeBehind_text (pre post : Source) :
    ∃ (e e' : Extent) (content : Option (String × Extent)),
      codeBehind pre (glyphs d.text ++ post) =
        ⟨.solid .sign, String.ofList (d.mark ++ ['"']), e⟩ ::
          ((content.map fun x => ⟨.solid .content, x.1, x.2⟩).toList ++
            ⟨.solid .sign, "\"", e'⟩ :: codeBehind (pre ++ glyphs d.text) post) ∧
      (⟨e.start, e'.stop⟩ : Extent) = extentBehind pre (glyphs d.text) := by
  have htext : glyphs d.text = glyphs (d.mark ++ ['"']) ++ (glyphs d.body ++ glyphs ['"']) := by
    simp [glyphs, text]
  obtain ⟨content, hcontent⟩ := d.exists_content (pre ++ glyphs (d.mark ++ ['"'])) post
  have hopening := lexemesBehind_append (by simp [glyphs])
    (d.nextCut_opening (glyphs d.body ++ .char '"' :: post)) pre
  have hcut : nextCut Kind.pause .comment [.quoted '"', .code] (glyphs ['"'] ++ post) =
      solid .sign 1 [.code] := rfl
  have hclosing := lexemesBehind_append (cons_ne_nil _ _) hcut
    (pre ++ glyphs (d.mark ++ ['"']) ++ glyphs d.body)
  refine ⟨extentBehind pre (glyphs (d.mark ++ ['"'])),
    extentBehind (pre ++ glyphs (d.mark ++ ['"']) ++ glyphs d.body) (glyphs ['"']), content, ?_, ?_⟩
  · rw [htext, append_assoc, append_assoc]
    refine hopening.trans ?_
    rw [show Source.text (glyphs (d.mark ++ ['"'])) = _ from text_map_char _]
    refine congrArg _ (hcontent.trans (congrArg _ (hclosing.trans ?_)))
    simp only [append_assoc]
    rfl
  · rw [htext, extentBehind, extentBehind, extentBehind]
    simp only [append_assoc]

end DoubleQuoted

/-- The value that is assigned to a variable. -/
theorem parse_assigned (source : Source) {opening : String}
    (hopening : opening ∈ ["\"", "b\"", "B\""]) (e₁ e₂ e₃ e₄ e₅ e₆ : Extent)
    (content : Option (String × Extent)) :
    (dialect.parse? isAside .file .file (⟨.solid .tag, "<?php", e₁⟩ ::
      ⟨.solid .variable, "$x", e₂⟩ :: ⟨.solid .sign, "=", e₃⟩ :: ⟨.solid .sign, opening, e₄⟩ ::
      ((content.map fun x => ⟨.solid .content, x.1, x.2⟩).toList ++
        [⟨.solid .sign, "\"", e₅⟩, ⟨.solid .sign, ";", e₆⟩]))).bind (assignedValue? source) =
    some (literalOf source (.node .encapsed (some .right) ⟨e₄.start, e₅.stop⟩
      (.sign opening none e₄ :: ((content.map fun x => .node .content none x.2 []).toList ++
        [.sign "\"" none e₅])))) := by
  simp only [mem_cons, not_mem_nil, or_false] at hopening
  rcases hopening with rfl | rfl | rfl <;> cases content <;> rfl

/-- The value that a statement assigns to a variable. -/
def assigned? (value : List Char) : Option Literal :=
  let source := ofString (String.ofList ("<?php\n$x = ".toList ++ value ++ ";\n".toList))
  (parse? source).bind (assignedValue? source)

namespace DoubleQuoted

variable (d : DoubleQuoted)

theorem literalOf_eq {source : Source} {r : Option Role} {extent : Extent}
    {parts : List (ParseTree Kind)}
    (htext : ParseTree.text source (.node .encapsed r extent parts) = String.ofList d.text)
    (hparts : ∀ p ∈ parts, p.isNode → p.isKind .content) :
    literalOf source (.node .encapsed r extent parts) = .text d.string := by
  have hall : parts.all (fun p => !p.isNode || p.isKind .content) := by
    rw [all_eq_true]
    intro p hp
    cases hnode : p.isNode with
    | false => rfl
    | true => exact hparts p hp hnode
  rw [literalOf]
  simp only [hall]
  rw [← d.stringLiteral_text, ← htext]
  rfl

theorem assigned?_text : assigned? d.text = some (.text d.string) := by
  let source := ofString (String.ofList ("<?php\n$x = ".toList ++ d.text ++ ";\n".toList))
  let pre := glyphs "<?php\n".toList ++ glyphs "$x".toList
  have hblank : headIs isSpace (glyphs d.text ++ glyphs ";\n".toList) = false := by
    rw [text]
    rcases d.mark_cases with hmark | hmark | hmark <;> rw [hmark] <;> rfl
  have hopening : String.ofList (d.mark ++ ['"']) ∈ ["\"", "b\"", "B\""] := by
    rcases d.mark_cases with hmark | hmark | hmark <;> rw [hmark] <;> decide
  have hsource : source = glyphs "<?php\n".toList ++ (glyphs "$x".toList ++
      (glyphs " = ".toList ++ (glyphs d.text ++ glyphs ";\n".toList))) := by
    simp [source, ofString, glyphs]
  obtain ⟨e₁, htag⟩ := lexemes_tag (s := glyphs "$x".toList ++
    (glyphs " = ".toList ++ (glyphs d.text ++ glyphs ";\n".toList))) rfl
  have hvariable : codeBehind (glyphs "<?php\n".toList) (glyphs "$x".toList ++
      (glyphs " = ".toList ++ (glyphs d.text ++ glyphs ";\n".toList))) = _ :=
    lexemesBehind_append (cons_ne_nil _ _) rfl _
  obtain ⟨e₃, hequals⟩ := codeBehind_equals pre hblank
  obtain ⟨e₄, e₅, content, hquoted, hextent⟩ :=
    d.codeBehind_text (pre ++ glyphs " = ".toList) (glyphs ";\n".toList)
  obtain ⟨e₆, hend⟩ := codeBehind_end (pre ++ glyphs " = ".toList ++ glyphs d.text)
  have hlexemes := htag.trans (congrArg _ (hvariable.trans (congrArg _ hequals)))
  rw [← hsource, hquoted] at hlexemes
  have hassigned : assigned? d.text = (parse? source).bind (assignedValue? source) := rfl
  rw [hassigned, parse?, hlexemes]
  refine (parse_assigned source hopening ..).trans (congrArg some (d.literalOf_eq ?_ ?_))
  · have hexcerpt := excerpt_extentBehind (pre ++ glyphs " = ".toList) (glyphs d.text)
      (glyphs ";\n".toList)
    rw [append_assoc, append_assoc, ← hsource] at hexcerpt
    rw [hextent]
    exact hexcerpt.trans (text_map_char d.text)
  · cases content <;> simp [ParseTree.isNode, ParseTree.isKind]

end DoubleQuoted

/-- A string in double quotes is read as the one that it stands for, byte for byte, if all of its
    escapes are resolved. Otherwise it is read as another string. -/
theorem double_quoted_value_iff (d : DoubleQuoted) : ∃ v : String,
    assigned? d.text = some (.text v) ∧
    (∀ source r extent parts,
      ParseTree.text source (.node .encapsed r extent parts) = String.ofList d.text →
      (∀ p ∈ parts, p.isNode = true → p.isKind .content = true) →
      literalOf source (.node .encapsed r extent parts) = .text v) ∧
    (bytesOf v = valueFrom 0 d.body ↔ ∀ c ∈ escapesFrom 0 d.body, c ∈ resolved) :=
  ⟨d.string, d.assigned?_text, fun _ _ _ _ => d.literalOf_eq, d.bytesOf_string_iff⟩

/-- A marked string with two escapes that are resolved. -/
theorem double_quoted_value_iff_line : ∃ v,
    assigned? ['b', '"', 'a', '\\', 'n', '\\', '$', '"'] = some (.text v) ∧
      bytesOf v = bytesOf "a\n$" := by
  let d : DoubleQuoted := ⟨['b'], ['a', '\\', 'n', '\\', '$'], .inr (.inl rfl), by decide⟩
  obtain ⟨v, hv, -, hiff⟩ := double_quoted_value_iff d
  exact ⟨v, hv, hiff.2 (forall_mem_of_all rfl)⟩

/-- An escape with hexadecimal digits stays as it is written. -/
theorem hex_escape_kept :
    assigned? ['"', '\\', 'x', '4', '1', '"'] = some (.text "\\x41") ∧
      valueFrom 0 ['\\', 'x', '4', '1'] = bytesOf "A" := by
  let d : DoubleQuoted := ⟨[], ['\\', 'x', '4', '1'], .inl rfl, by decide⟩
  exact ⟨d.assigned?_text, by decide⟩

end CodeAtlas.Php
