import CodeAtlas.Go.Lexeme
import CodeAtlas.Proofs.Grammar.Lexeme

/-!
# Words and signs of Go

What stands at the place of a word is made of letters, digits and underscores, of at least one
of them (`isWord_of_word`): a word is cut off where the source starts with a character that words
start with, as far as characters go that words go on with (`SoundCut`).
What stands at the place of a sign is one of the signs (`toList_mem_signs`). Lexemes keep
the letter case, so that their texts are what stands at their places (`text_of_mem`).
-/

namespace CodeAtlas.Go

open Grammar Source List

variable {κ : Type} {comment : κ} {s : Source} {count : Nat} {chars : List Char} {sort : Token}

/-- The signs, of one character or more. -/
def signs : List (List Char) :=
  longSigns ++ shortSigns.map ([·])

/-- A cut is sound: if it is an aside, it is a comment; if it is a word, it is as long
    as the word that the source starts with, and likewise for a sign. -/
structure SoundCut (comment : κ) (s : Source) (cut : Cut κ Token Unit) : Prop where
  aside : ∀ k, cut.form = some (.aside k) → k = comment
  word : cut.form = some (.solid .word) →
    cut.count = countWhile isWordPart s ∧ headIs isWordStart s = true
  sign : cut.form = some (.solid .sign) →
    ∃ chars ∈ signs, cut.count = chars.length ∧ Source.startsWith chars s = true

theorem soundCut_solid (hsort : sort ≠ .word ∧ sort ≠ .sign) :
    SoundCut comment s ⟨some (.solid sort), count, (), false⟩ where
  aside _ h := nomatch h
  word h := by
    cases h
    exact absurd rfl hsort.1
  sign h := by
    cases h
    exact absurd rfl hsort.2

theorem soundCut_sign (hchars : chars ∈ signs) (hs : Source.startsWith chars s) :
    SoundCut comment s ⟨some (.solid .sign), chars.length, (), false⟩ where
  aside _ h := nomatch h
  word h := nomatch h
  sign _ := ⟨chars, hchars, rfl, hs⟩

theorem soundCut_comment :
    SoundCut comment s ⟨some (.aside comment), count, (), false⟩ where
  aside _ h := by
    cases h
    rfl
  word h := nomatch h
  sign h := nomatch h

/-- White space and line ends say nothing. -/
theorem soundCut_of_form {cut : Cut κ Token Unit}
    (h : ∀ form, cut.form = some form → form = .lineEnd) : SoundCut comment s cut where
  aside _ hform := nomatch h _ hform
  word hform := nomatch h _ hform
  sign hform := nomatch h _ hform

/-- The sort that was found is that of some numbers. -/
def Numeric (found : Option (Token × Nat)) : Prop :=
  ∀ p, found = some p → p.1 ∈ [.int, .float, .imaginary]

theorem numeric_some (h : sort ∈ [.int, .float, .imaginary]) : Numeric (some (sort, count)) := by
  rintro p ⟨⟩
  exact h

theorem numeric_based (s : Source) : Numeric (basedAt? s) := by
  have hnone : Numeric none := fun _ h => nomatch h
  have hwhole : ∀ n, Numeric (if n = 0 then none else some (.int, 2 + n)) := fun _ =>
    iteInduction (fun _ => hnone) fun _ => numeric_some (by decide)
  rw [basedAt?]
  refine iteInduction (fun _ => iteInduction (fun _ => hwhole _) fun _ =>
    numeric_some (by decide)) fun _ => ?_
  exact iteInduction (fun _ => hwhole _) fun _ => iteInduction (fun _ => hwhole _) fun _ => hnone

/-- No number is a word or a sign. -/
theorem numberAt_ne (s : Source) : (numberAt s).1 ≠ .word ∧ (numberAt s).1 ≠ .sign := by
  have hdecimal : Numeric (some (decimalAt s)) := by
    rw [decimalAt, apply_ite some, apply_ite some]
    exact iteInduction (fun _ => numeric_some (by decide)) fun _ =>
      iteInduction (fun _ => numeric_some (by decide)) fun _ => numeric_some (by decide)
  have hfound : ((basedAt? s).getD (decimalAt s)).1 ∈ [.int, .float, .imaginary] := by
    cases h : basedAt? s with
    | none => exact hdecimal _ rfl
    | some p => exact numeric_based s p h
  have hnumber : Numeric (some (numberAt s)) := by
    rw [numberAt, apply_ite some]
    exact iteInduction (fun _ => numeric_some (by decide)) fun _ => numeric_some hfound
  have hsort := hnumber _ rfl
  constructor
  all_goals
    intro h
    rw [h] at hsort
    exact absurd hsort (by decide)

/-- Every cut is sound. -/
theorem soundCut_next (s : Source) : SoundCut comment s (nextCut comment s) := by
  cases s with
  | nil => exact soundCut_solid (by decide)
  | cons g rest =>
    have junk : SoundCut comment (g :: rest) ⟨some (.solid .junk), 1, (), false⟩ :=
      soundCut_solid (by decide)
    rw [nextCut]
    refine iteInduction (fun _ => soundCut_of_form fun _ h => (Option.some.inj h).symm) fun _ => ?_
    refine iteInduction (fun _ => soundCut_of_form fun _ h => nomatch h) fun _ => ?_
    refine iteInduction (fun _ => soundCut_comment) fun _ => ?_
    refine iteInduction (fun _ => ?_) fun _ => ?_
    · split
      · exact soundCut_comment
      · exact junk
    -- The only cut of a word, made behind a look at its first character.
    refine iteInduction (fun hg => ⟨fun _ h => (nomatch h), fun _ => ⟨rfl, hg⟩,
      fun h => (nomatch h)⟩) fun _ => ?_
    refine iteInduction (fun _ => soundCut_solid (numberAt_ne _)) fun _ => ?_
    -- Strings and runes that are not closed are junk.
    refine iteInduction (fun _ => ?_) fun _ => ?_
    · split
      · exact soundCut_solid (by decide)
      · exact junk
    refine iteInduction (fun _ => ?_) fun _ => ?_
    · split
      · exact soundCut_solid (by decide)
      · exact junk
    refine iteInduction (fun _ => ?_) fun _ => ?_
    · split
      · exact soundCut_solid (by decide)
      · exact junk
    -- The cuts of signs, behind a look at all of their characters.
    split
    · next chars hfind =>
      have hstarts := find?_some hfind
      exact soundCut_sign (mem_append_left _ (mem_of_find?_eq_some hfind)) hstarts
    · refine iteInduction (fun hg => ?_) fun _ => junk
      cases g with
      | char c =>
        have hstarts : Source.startsWith [c] (.char c :: rest) := by
          simp [Source.startsWith, Glyph.is]
        exact soundCut_sign (mem_append_right _
          (mem_map_of_mem (contains_iff_mem.1 hg))) hstarts
      | stray b => cases hg

/-! ## Lexemes of a source -/

/-- Whether a text is a word: it has characters, and all are such as words go on with. -/
def isWord (s : String) : Bool :=
  !s.isEmpty && s.toList.all isWordPart

/-- A text that is a word. -/
abbrev Word := { s : String // isWord s = true }

theorem take_of_startsWith (h : Source.startsWith chars s) :
    s.take chars.length = chars.map .char := by
  induction chars generalizing s with
  | nil => rfl
  | cons c chars ih =>
    cases s with
    | nil => cases h
    | cons g s =>
      rw [Source.startsWith, Bool.and_eq_true] at h
      have hg : g = .char c := by
        cases g with
        | char d => rw [eq_of_beq h.1]
        | stray b => cases h.1
      rw [length_cons, take_succ_cons, ih h.2, hg, map_cons]

theorem fold_nextCut (s : Source) : (nextCut comment s).fold = false := by
  cases s with
  | nil => rfl
  | cons g rest =>
    rw [nextCut]
    repeat' split
    all_goals rfl

variable {source : Source} {l : Lexeme κ Token} (hl : l ∈ lexemes comment source)

include hl

theorem stands_of_mem : Stands (fun _ => nextCut comment) (fun _ _ => True) source l :=
  stands_of_mem_lexemes (fun _ => trivial) (fun _ _ _ _ => trivial) hl

theorem aside_of_form {k : κ} (hk : l.form = .aside k) : k = comment := by
  obtain ⟨_, rest, _, _, hform, _⟩ := (stands_of_mem hl).excerpt
  rw [hk] at hform
  exact (soundCut_next rest).aside k hform

/-- What stands at the place of a word is a word. -/
theorem isWord_of_word (hword : l.form = .solid .word) :
    isWord (source.excerpt l.extent.start.byte l.extent.stop.byte) := by
  obtain ⟨_, rest, _, _, hform, htext, -⟩ := (stands_of_mem hl).excerpt
  rw [hword] at hform
  obtain ⟨hcount, hhead⟩ := (soundCut_next rest).word hform
  obtain ⟨chars, hchars, hne, hall⟩ := exists_text_of_countWhile (q := isWordPart)
    (fun c hc => by rw [isWordPart, hc, Bool.true_or]) hhead
  rw [htext, cutLength, hcount, hchars]
  simpa [isWord, hne] using hall

/-- The text of a lexeme is what stands at its place. -/
theorem text_of_mem : source.excerpt l.extent.start.byte l.extent.stop.byte = l.text :=
  text_of_mem_lexemes (fun _ => fold_nextCut) hl

/-- A sign is one of the signs. -/
theorem toList_mem_signs (hsign : l.form = .solid .sign) :
    (source.excerpt l.extent.start.byte l.extent.stop.byte).toList ∈ signs := by
  obtain ⟨_, rest, _, _, hform, htext, -⟩ := (stands_of_mem hl).excerpt
  rw [hsign] at hform
  obtain ⟨chars, hchars, hcount, hstarts⟩ := (soundCut_next rest).sign hform
  have hpos : ∀ chars ∈ signs, 1 ≤ chars.length := by decide
  rw [htext, cutLength, hcount, Nat.max_eq_left (hpos chars hchars), take_of_startsWith hstarts,
    text_map_char, String.toList_ofList]
  exact hchars

end CodeAtlas.Go
