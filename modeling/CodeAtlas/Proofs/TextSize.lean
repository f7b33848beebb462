import CodeAtlas.Text.Blank
import CodeAtlas.Text.Utf8

/-!
# The size of a text

A text that is read from bytes has no more characters than there are bytes, however broken
they are, since each character takes the byte that it starts with. It has no more lines than
characters, and one; and more lines than line feeds, if these are followed by anything.
-/

namespace CodeAtlas

open List Nat

namespace Text

variable {s : List Char} {bytes : Bytes}

theorem length_linesFrom_le (line s : List Char) : (linesFrom line s).length ≤ s.length + 1 := by
  fun_induction linesFrom line s with
  | case1 => exact zero_le _
  | case2 => exact Nat.le_refl _
  | case3 _ _ _ _ ih => exact succ_le_succ ih
  | case4 _ _ _ _ ih => exact le_succ_of_le ih

theorem length_lines_le (s : List Char) : (lines s).length ≤ s.length + 1 :=
  length_linesFrom_le [] s

theorem linesFrom_ne_nil {line : List Char} (h : line ≠ [] ∨ s ≠ []) : linesFrom line s ≠ [] := by
  fun_induction linesFrom line s with
  | case1 line hline => exact absurd (List.isEmpty_iff.1 hline) (h.resolve_right (· rfl))
  | case2 => exact cons_ne_nil _ _
  | case3 => exact cons_ne_nil _ _
  | case4 _ _ _ _ ih => exact ih (.inl (cons_ne_nil _ _))

theorem count_lt_length_linesFrom {rest : List Char} (hrest : rest ≠ []) (line before : List Char) :
    before.count '\n' < (linesFrom line (before ++ rest)).length := by
  induction before generalizing line with
  | nil => exact length_pos_iff.2 (linesFrom_ne_nil (.inr hrest))
  | cons c before ih =>
    rw [cons_append, linesFrom]
    split
    · next hc =>
      rw [count_cons, if_pos hc]
      exact succ_lt_succ (ih [])
    · next hc =>
      rw [count_cons, if_neg hc]
      exact ih (c :: line)

theorem length_of_decodeFrom? {skip : Nat} (h : decodeFrom? skip bytes = some s) :
    s.length ≤ bytes.length := by
  fun_induction decodeFrom? skip bytes generalizing s with
  | case1 =>
    cases h
    exact Nat.le_refl _
  | case2 _ _ _ ih => exact le_succ_of_le (ih h)
  | case3 _ _ _ _ _ ih =>
    obtain ⟨s, hs, rfl⟩ := Option.map_eq_some_iff.1 h
    exact succ_le_succ (ih hs)
  | case4 => cases h

theorem length_decodeLossyFrom_le (skip : Nat) (bytes : Bytes) :
    (decodeLossyFrom skip bytes).length ≤ bytes.length := by
  fun_induction decodeLossyFrom skip bytes with
  | case1 => exact Nat.le_refl _
  | case2 _ _ _ ih => exact le_succ_of_le ih
  | case3 _ _ _ _ _ ih => exact succ_le_succ ih
  | case4 _ _ _ _ ih => exact succ_le_succ ih

end Text

namespace Source

theorem length_ofBytesFrom_le (skip : Nat) (bytes : Bytes) :
    (ofBytesFrom skip bytes).length ≤ bytes.length := by
  fun_induction ofBytesFrom skip bytes with
  | case1 => exact Nat.le_refl _
  | case2 _ _ _ ih => exact le_succ_of_le ih
  | case3 _ _ _ _ _ ih => exact succ_le_succ ih
  | case4 _ _ _ _ ih => exact succ_le_succ ih

theorem length_ofBytes_le (bytes : Bytes) : (ofBytes bytes).length ≤ bytes.length :=
  length_ofBytesFrom_le 0 bytes

end Source

end CodeAtlas
