import CodeAtlas.Php.Lexeme
import CodeAtlas.Proofs.Grammar.Lexeme

/-!
# Words of PHP

What stands at the place of a word is made of the characters of names
(`all_isNamePart_of_word`). The lexer looks at the first character before it cuts off
a word, but for one case: behind an arrow in a string, where it looked before it cut
off the arrow. So a mode behind an arrow stands only at the top of the modes, and
before a character that a name starts with (`Settled`).
-/

namespace CodeAtlas.Php

open Grammar Source

variable {s : Source} {count : Nat} {sort : Token} {mode : Mode} {modes : List Mode}

/-- A mode behind an arrow is the innermost one, and a name follows. -/
def Settled (modes : List Mode) (s : Source) : Prop :=
  .behindArrow ∉ modes.tail ∧ (modes.head? = some .behindArrow → headIs isNameStart s = true)

theorem settled_of_not_mem (h : .behindArrow ∉ modes) (s : Source) : Settled modes s := by
  refine ⟨fun hmem => h (List.mem_of_mem_tail hmem), fun hhead => absurd ?_ h⟩
  exact List.mem_of_head? hhead

theorem not_mem_of_settled (h : Settled (mode :: modes) s) (hmode : mode ≠ .behindArrow) :
    .behindArrow ∉ mode :: modes := by
  rw [List.mem_cons, not_or]
  exact ⟨hmode.symm, h.1⟩

variable {κ : Type} {aside comment : κ}

/-- A cut is sound: if it is an aside, it is of one of two kinds; if it is a word, it
    is as long as the name that the source starts with; and the modes are settled
    behind it. -/
structure SoundCut (aside comment : κ) (s : Source) (cut : Cut κ Token (List Mode)) : Prop where
  aside : ∀ k, cut.form = some (.aside k) → k = aside ∨ k = comment
  word : cut.form = some (.solid .word) →
    cut.count = countWhile isNamePart s ∧ headIs isNameStart s = true
  settled : Settled cut.state (s.drop (max cut.count 1))

theorem soundCut_solid (hsort : sort ≠ .word) (hmodes : .behindArrow ∉ modes) :
    SoundCut aside comment s (solid sort count modes) where
  aside _ h := nomatch h
  word h := by
    cases h
    exact absurd rfl hsort
  settled := settled_of_not_mem hmodes _

theorem soundCut_skip (hmodes : .behindArrow ∉ modes) :
    SoundCut aside comment s ⟨none, count, modes, false⟩ where
  aside _ h := nomatch h
  word h := nomatch h
  settled := settled_of_not_mem hmodes _

theorem soundCut_aside {k : κ} (hk : k = aside ∨ k = comment) (hmodes : .behindArrow ∉ modes) :
    SoundCut aside comment s ⟨some (.aside k), count, modes, false⟩ where
  aside _ h := by
    cases h
    exact hk
  word h := nomatch h
  settled := settled_of_not_mem hmodes _

theorem soundCut_word (hs : headIs isNameStart s) (hmodes : .behindArrow ∉ modes) :
    SoundCut aside comment s (cutWord modes s) where
  aside _ h := nomatch h
  word _ := ⟨rfl, hs⟩
  settled := settled_of_not_mem hmodes _

/-! ## The modes one by one -/

theorem soundCut_html (s : Source) : SoundCut aside comment s (cutHtml s) := by
  rw [cutHtml]
  refine iteInduction (fun _ => soundCut_solid (by decide) (by decide)) fun _ => ?_
  exact iteInduction (fun _ => soundCut_skip (by decide))
    fun _ => soundCut_solid (by decide) (by decide)

variable (hmodes : .behindArrow ∉ modes)

include hmodes

theorem soundCut_push (hsort : sort ≠ .word) (hmode : mode ≠ .behindArrow) :
    SoundCut aside comment s (solid sort count (mode :: modes)) := by
  refine soundCut_solid hsort ?_
  rw [List.mem_cons, not_or]
  exact ⟨hmode.symm, hmodes⟩

theorem not_mem_pop : .behindArrow ∉ modes.drop 1 :=
  fun h => hmodes (List.mem_of_mem_drop h)

theorem soundCut_string {closing : Nat} {closer : Token} {closes : Source → Bool}
    (hcloser : closer ≠ .word) :
    SoundCut aside comment s (cutString modes closing closer closes s) := by
  rw [cutString]
  refine iteInduction (fun _ => soundCut_solid hcloser (not_mem_pop hmodes)) fun _ => ?_
  refine iteInduction (fun _ => soundCut_push hmodes (by decide) (by decide)) fun _ => ?_
  refine iteInduction (fun _ => soundCut_push hmodes (by decide) (by decide)) fun _ => ?_
  refine iteInduction (fun _ => soundCut_push hmodes (by decide) (by decide)) fun _ => ?_
  refine iteInduction (fun _ => soundCut_solid (by decide) hmodes) fun _ => ?_
  exact soundCut_solid (by decide) hmodes

theorem soundCut_text (mode : Mode) (s : Source) :
    SoundCut aside comment s (cutText mode modes s) := by
  cases mode with
  | quoted quote => exact soundCut_string hmodes (by decide)
  | heredoc name => exact soundCut_string hmodes (by decide)
  | _ => exact soundCut_solid (by decide) hmodes

theorem soundCut_offset (s : Source) :
    SoundCut aside comment s (cutOffset modes s) := by
  rw [cutOffset]
  refine iteInduction (fun _ => soundCut_solid (by decide) (not_mem_pop hmodes)) fun _ => ?_
  refine iteInduction (fun _ => soundCut_solid (by decide) hmodes) fun _ => ?_
  refine iteInduction (fun _ => soundCut_solid (by decide) hmodes) fun _ => ?_
  refine iteInduction (fun hs => soundCut_word hs hmodes) fun _ => ?_
  refine iteInduction (fun _ => soundCut_solid (by decide) hmodes) fun _ => ?_
  exact soundCut_solid (by decide) hmodes

/-- The lexer pushes a mode behind an arrow when it sees the name that follows. -/
theorem soundCut_behind (s : Source) :
    SoundCut aside comment s (cutBehind modes s) := by
  have harrow : ∀ count, headIs isNameStart (s.drop (max count 1)) →
      SoundCut aside comment s (solid .sign count (.behindArrow :: modes)) :=
    fun _ hs => ⟨fun _ h => (nomatch h), fun h => (nomatch h), hmodes, fun _ => hs⟩
  rw [cutBehind]
  refine iteInduction (fun _ => soundCut_push hmodes (by decide) (by decide)) fun _ => ?_
  refine iteInduction (fun h => harrow 2 (Bool.and_eq_true_iff.1 h).2) fun _ => ?_
  exact iteInduction (fun h => harrow 3 (Bool.and_eq_true_iff.1 h).2)
    fun _ => soundCut_text hmodes _ s

theorem soundCut_code (s : Source) :
    SoundCut aside comment s (cutCode aside comment modes s) := by
  cases s with
  | nil => exact soundCut_solid (by decide) hmodes
  | cons g rest =>
    have junk : SoundCut aside comment (g :: rest) (solid .junk 1 modes) :=
      soundCut_solid (by decide) hmodes
    rw [cutCode]
    refine iteInduction (fun _ => soundCut_skip hmodes) fun _ => ?_
    refine iteInduction (fun _ => soundCut_aside (.inl rfl) hmodes) fun _ => ?_
    refine iteInduction (fun _ => soundCut_aside (.inr rfl) hmodes) fun _ => ?_
    refine iteInduction (fun _ => soundCut_aside (.inr rfl) hmodes) fun _ => ?_
    refine iteInduction (fun _ => ?_) fun _ => ?_
    · split
      · exact soundCut_aside (.inr rfl) hmodes
      · exact junk
    refine iteInduction (fun _ => soundCut_solid (by decide) hmodes) fun _ => ?_
    refine iteInduction (fun _ => soundCut_push hmodes (by decide) (by simp)) fun _ => ?_
    refine iteInduction (fun _ => ?_) fun _ => ?_
    · split
      · exact soundCut_solid (by decide) hmodes
      · exact junk
    -- The only cut of a word in code, made behind a look at its first character.
    refine iteInduction (fun hg => soundCut_word hg hmodes) fun _ => ?_
    refine iteInduction (fun _ => soundCut_solid (by decide) hmodes) fun _ => ?_
    refine iteInduction (fun _ => ?_) fun _ => ?_
    · split
      · exact soundCut_solid (by decide) hmodes
      · exact junk
    refine iteInduction (fun _ => soundCut_push hmodes (by decide) (by simp)) fun _ => ?_
    refine iteInduction (fun _ => soundCut_push hmodes (by decide) (by simp)) fun _ => ?_
    refine iteInduction (fun _ => ?_) fun _ => ?_
    · split
      · split
        · exact soundCut_solid (by decide) hmodes
        · exact junk
      · exact soundCut_push hmodes (by decide) (by simp)
      · exact junk
    refine iteInduction (fun _ => soundCut_push hmodes (by decide) (by simp)) fun _ => ?_
    -- A closing brace ends the innermost mode, but never the last one.
    refine iteInduction (fun _ => soundCut_solid (by decide) ?_) fun _ => ?_
    · split
      · exact not_mem_pop hmodes
      · exact hmodes
    split
    · exact soundCut_solid (by decide) hmodes
    · exact iteInduction (fun _ => soundCut_solid (by decide) hmodes) fun _ => junk

omit hmodes in
/-- Every cut from settled modes is sound. -/
theorem soundCut_next (h : Settled modes s) :
    SoundCut aside comment s (nextCut aside comment modes s) := by
  cases modes with
  | nil => exact soundCut_code (by decide) s
  | cons mode modes =>
    cases mode with
    | html => exact soundCut_html s
    | code => exact soundCut_code (not_mem_of_settled h (by decide)) s
    | quoted quote => exact soundCut_text (not_mem_of_settled h (by simp)) (.quoted quote) s
    | heredoc name => exact soundCut_text (not_mem_of_settled h (by simp)) (.heredoc name) s
    | behindVariable => exact soundCut_behind h.1 s
    | behindArrow => exact soundCut_word (h.2 rfl) h.1
    | offset => exact soundCut_offset (not_mem_of_settled h (by decide)) s

/-! ## Lexemes of a source -/

omit hmodes

variable {source : Source} {l : Lexeme κ Token}

theorem stands_of_mem (hl : l ∈ lexemes aside comment source) :
    Stands (nextCut aside comment) Settled source l :=
  stands_of_mem_lexemes (fun s => settled_of_not_mem (by decide) s)
    (fun _ _ _ h => (soundCut_next h).settled) hl

theorem aside_of_form (hl : l ∈ lexemes aside comment source) {k : κ}
    (hk : l.form = .aside k) : k = aside ∨ k = comment := by
  obtain ⟨modes, rest, _, hsettled, hform, _⟩ := (stands_of_mem hl).excerpt
  rw [hk] at hform
  exact (soundCut_next hsettled).aside k hform

/-- A word is made of the characters of names. -/
theorem all_isNamePart_of_word (hl : l ∈ lexemes aside comment source)
    (hword : l.form = .solid .word) :
    ∀ c ∈ (source.excerpt l.extent.start.byte l.extent.stop.byte).toList, isNamePart c := by
  obtain ⟨modes, rest, hne, hsettled, hform, htext, -⟩ := (stands_of_mem hl).excerpt
  rw [hword] at hform
  obtain ⟨hcount, hhead⟩ := (soundCut_next hsettled).word hform
  obtain ⟨chars, hchars, -, hall⟩ := exists_text_of_countWhile (q := isNamePart)
    (fun c hc => by rw [isNamePart, hc, Bool.true_or]) hhead
  rw [htext, cutLength, hcount, hchars, String.toList_ofList]
  exact hall

end CodeAtlas.Php
