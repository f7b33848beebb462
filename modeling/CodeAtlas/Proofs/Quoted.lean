import Mathlib.Data.List.Basic

/-!
# What stands between quotes

Between the quotes of a string, a backslash takes the character behind it, and any other
character is a piece of its own. So a character is in the text only if it is a piece, plain or
behind a backslash (`Piece.not_mem_flatMap_text`).
-/

namespace CodeAtlas

open List

/-- A part of a string literal: a character that stands for itself, or one behind a
    backslash. -/
inductive Piece where
  | plain (c : Char)
  | escaped (c : Char)
  deriving DecidableEq, Repr

namespace Piece

def text : Piece → List Char
  | plain c => [c]
  | escaped c => ['\\', c]

variable {q : Char}

theorem head_text {p : Piece} {s t : List Char} (hq : q ≠ '\\') (h : p.text ++ s = q :: t) :
    p = plain q ∧ s = t := by
  cases p with
  | plain c =>
    cases h
    exact ⟨rfl, rfl⟩
  | escaped c =>
    cases h
    exact absurd rfl hq

theorem not_mem_flatMap_text {body : List Piece} (hq : q ≠ '\\')
    (h : ∀ p ∈ body, p ≠ plain q ∧ p ≠ escaped q) : q ∉ body.flatMap text := by
  rw [mem_flatMap]
  rintro ⟨p, hp, hmem⟩
  cases p with
  | plain c => exact (h _ hp).1 (by simpa [text, eq_comm] using hmem)
  | escaped c =>
    have hc : q = c := by simpa [text, hq] using hmem
    exact (h _ hp).2 (hc ▸ rfl)

end Piece

end CodeAtlas
