import CodeAtlas.Text.Snake
import Mathlib.Data.List.Basic

/-!
# What snake case does to a name

A name is written in small letters, all its characters in their order, and underscores are put
in between them: before capitals only, and neither at the start of the name nor behind one of its
own underscores (`Separates`).

* `separates_snakeFrom`: what one character adds, and from it the rest of a name;
* `snakeFrom_eq_self`: without capitals, a name stays as it is;
* `snake_lowers_and_separates`: the laws of snake case for names of ASCII characters.
-/

namespace CodeAtlas.Text

open List

/-- The second text is the first one in small letters with some underscores put in. The character
    in front of the text, if there is one, decides whether one may be put before it. -/
inductive Separates : Option Char → List Char → List Char → Prop
  | nil {before : Option Char} : Separates before [] []
  | lowered {before : Option Char} {c : Char} {s t : List Char} :
      Separates (some c) s t → Separates before (c :: s) (lower c ++ t)
  | parted {b c : Char} {s t : List Char} : b ≠ '_' → isUpper c → Separates (some c) s t →
      Separates (some b) (c :: s) ('_' :: (lower c ++ t))

variable {before : Option Char} {s t : List Char}

/-- Only underscores are put in, so all other characters are those of the lowered name. -/
theorem Separates.filter_eq (h : Separates before s t) :
    t.filter (· ≠ '_') = (s.flatMap lower).filter (· ≠ '_') := by
  induction h with
  | nil => rfl
  | lowered h ih => rw [flatMap_cons, filter_append, filter_append, ih]
  | parted hb hc h ih =>
    rw [flatMap_cons, filter_cons_of_neg (by simp), filter_append, filter_append, ih]

theorem Separates.sublist (h : Separates before s t) : s.flatMap lower <+ t := by
  induction h with
  | nil => exact .slnil
  | lowered h ih => exact (Sublist.refl _).append ih
  | parted hb hc h ih => exact ((Sublist.refl _).append ih).cons _

/-- No ASCII character is a capital in small letters, and all but capitals stay as they are. -/
theorem lower_ascii {c : Char} (hc : c.toNat < 0x80) :
    (∀ d ∈ lower c, isUpper d = false) ∧ (isUpper c = false → lower c = [c]) := by
  have hrows : ∀ n < 0x80, (lower (Char.ofNat n)).all (!isUpper ·) ∧
      (isUpper (Char.ofNat n) || lower (Char.ofNat n) == [Char.ofNat n]) := by
    decide +kernel
  have hrow := hrows _ hc
  rw [Char.ofNat_toNat] at hrow
  exact ⟨by simpa using hrow.1, fun h => by simpa [h] using hrow.2⟩

theorem Separates.forall_mem_not_isUpper (h : Separates before s t)
    (hs : ∀ c ∈ s, c.toNat < 0x80) : ∀ c ∈ t, isUpper c = false := by
  induction h with
  | nil => simp
  | lowered h ih =>
    obtain ⟨hc, hs⟩ := forall_mem_cons.1 hs
    exact forall_mem_append.2 ⟨(lower_ascii hc).1, ih hs⟩
  | parted hb _ h ih =>
    obtain ⟨hc, hs⟩ := forall_mem_cons.1 hs
    exact forall_mem_cons.2 ⟨rfl, forall_mem_append.2 ⟨(lower_ascii hc).1, ih hs⟩⟩

theorem separates_snakeFrom (before : Option Char) (hs : ∀ c ∈ s, c.toNat < 0x80) :
    Separates before s (snakeFrom before s) := by
  induction s generalizing before with
  | nil => exact .nil
  | cons c s ih =>
    obtain ⟨hc, hs⟩ := forall_mem_cons.1 hs
    cases hupper : isUpper c with
    | false =>
      have hlower : lower c = [c] := (lower_ascii hc).2 hupper
      simpa [snakeFrom, hupper, hlower] using (ih (some c) hs).lowered
    | true =>
      cases before with
      | none => simpa [snakeFrom, hupper] using Separates.lowered (ih (some c) hs)
      | some b =>
        -- Behind an underscore no word starts, and elsewhere one may, whatever decides it.
        by_cases hb : b = '_'
        · have hmark : isUpper '_' = false := rfl
          simpa [snakeFrom, hupper, hb, hmark] using Separates.lowered (ih (some c) hs)
        · have hparted (breaks : Bool) : Separates (some b) (c :: s)
              ((if breaks then ['_'] else []) ++ (lower c ++ snakeFrom (some c) s)) := by
            cases breaks with
            | false => exact .lowered (ih _ hs)
            | true => exact .parted hb hupper (ih _ hs)
          simp only [snakeFrom, if_pos hupper, append_assoc]
          exact hparted _

theorem snakeFrom_eq_self (before : Option Char) (hs : ∀ c ∈ s, isUpper c = false) :
    snakeFrom before s = s := by
  induction s generalizing before with
  | nil => rfl
  | cons c s ih =>
    obtain ⟨hc, hs⟩ := forall_mem_cons.1 hs
    simp [snakeFrom, hc, ih _ hs]

/-- In snake case, a name of ASCII characters has no capitals and is written as it is when it is
    written again. Without underscores it is the lowered name. The lowered name with its
    underscores is part of it, and what else is in it are underscores before capitals. -/
theorem snake_lowers_and_separates (s : List Char) (hs : ∀ c ∈ s, c.toNat < 0x80) :
    (∀ c ∈ snake s, isUpper c = false) ∧ snake (snake s) = snake s ∧
      (snake s).filter (· ≠ '_') = (s.flatMap lower).filter (· ≠ '_') ∧
      s.flatMap lower <+ snake s ∧ Separates none s (snake s) := by
  have h : Separates none s (snake s) := separates_snakeFrom none hs
  have hsmall := h.forall_mem_not_isUpper hs
  exact ⟨hsmall, snakeFrom_eq_self none hsmall, h.filter_eq, h.sublist, h⟩

/-- A row of capitals, a digit, underscores at both ends and in front of a capital. -/
theorem snake_lowers_and_separates_rows :
    snake "_URLPath2_DOnE_".toList = "_url_path2_d_on_e_".toList ∧
      snake "_url_path2_d_on_e_".toList = "_url_path2_d_on_e_".toList ∧
      Separates none "_URLPath2_DOnE_".toList "_url_path2_d_on_e_".toList := by
  have hsnake : snake "_URLPath2_DOnE_".toList = "_url_path2_d_on_e_".toList := by decide +kernel
  have hlaws := snake_lowers_and_separates "_URLPath2_DOnE_".toList (by simp)
  rw [hsnake] at hlaws
  exact ⟨hsnake, hlaws.2.1, hlaws.2.2.2.2⟩

end CodeAtlas.Text
