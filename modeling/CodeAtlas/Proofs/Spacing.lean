import Mathlib.Data.List.Chain
import CodeAtlas.Proofs.List
import CodeAtlas.Text.Letter
import CodeAtlas.Text.Blank

/-!
# White space

White space at the ends of a text is trimmed, and does not change its collapsed form. Neither
trimming nor collapsing changes how often any other character stands in a text.

* `trimStart_gap`, `trimEnd_gap`: white space at the ends;
* `joinWith_cons`, `joinWith_append`: texts that are joined;
* `collapse_trimEnd`: the collapsed form of a trimmed text;
* `neat_collapse`: white space in a collapsed text;
* `countP_trim`, `count_trim`, `count_collapse`: the other characters;
* `strip?_eq_some_iff`, `eq_of_cutAt?`: what stands behind a lead or a separator;
* `afterLast_append_of_mem`, `afterLast_append_of_not_mem`: what stands behind the last of a
  character.
-/

namespace CodeAtlas.Text

open List

/-! ## Trimming -/

variable {gap s t core lead w : List Char} {mark : Char} {ls : List (List Char)}

/-- The text does not start with white space. -/
def Starts (s : List Char) : Prop :=
  ∀ c ∈ s.head?, isBlank c = false

theorem trimStart_of_starts (hs : Starts s) : trimStart s = s := by
  cases s with
  | nil => rfl
  | cons c s => exact dropWhile_cons_of_neg (by simp [hs c rfl])

theorem trimStart_gap (hgap : ∀ c ∈ gap, isBlank c) (hs : Starts s) :
    trimStart (gap ++ s) = s := by
  rw [trimStart, dropWhile_append_of_pos hgap]
  exact trimStart_of_starts hs

variable {p : Char → Bool} {sep : List Char}

theorem dropEnd_append_cons {c : Char} (hc : p c = false) (s t : List Char) :
    dropEnd p (s ++ c :: t) = s ++ c :: dropEnd p t := by
  rw [dropEnd, dropEnd, reverse_append, reverse_cons, append_assoc, singleton_append,
    dropWhile_append_cons hc]
  simp

theorem dropEnd_cons {c : Char} (hc : p c = false) (s : List Char) :
    dropEnd p (c :: s) = c :: dropEnd p s :=
  dropEnd_append_cons hc [] s

theorem trimEnd_gap (hgap : ∀ c ∈ gap, isBlank c) (s : List Char) :
    trimEnd (s ++ gap) = trimEnd s := by
  rw [trimEnd, trimEnd, dropEnd, dropEnd, reverse_append,
    dropWhile_append_of_pos (by simpa using hgap)]

/-- What is trimmed at the end is white space. -/
theorem exists_trimEnd (s : List Char) :
    ∃ gap, (∀ c ∈ gap, isBlank c) ∧ s = trimEnd s ++ gap := by
  refine ⟨(s.reverse.takeWhile isBlank).reverse, fun c hc => ?_, ?_⟩
  · exact all_eq_true.1 (all_takeWhile ..) c (mem_reverse.1 hc)
  · rw [trimEnd, dropEnd, ← reverse_append, takeWhile_append_dropWhile,
      reverse_reverse]

/-! ## Joining -/

theorem joinWith_cons {c : Char} (hls : ls ≠ []) (s : List Char) :
    joinWith [c] (s :: ls) = s ++ c :: joinWith [c] ls := by
  obtain ⟨t, ls, rfl⟩ := exists_cons_of_ne_nil hls
  simp [joinWith]

theorem joinWith_append {ls' : List (List Char)} (h : ls ≠ []) (h' : ls' ≠ []) :
    joinWith sep (ls ++ ls') = joinWith sep ls ++ (sep ++ joinWith sep ls') := by
  obtain ⟨b, r, rfl⟩ := exists_cons_of_ne_nil h'
  induction ls with
  | nil => exact absurd rfl h
  | cons a ls ih =>
    cases ls with
    | nil => simp [joinWith]
    | cons c ls =>
      simp_all [joinWith]

theorem joinWith_append_cons (s t : List Char) (ls : List (List Char)) :
    joinWith sep ((s ++ t) :: ls) = s ++ joinWith sep (t :: ls) := by
  cases ls <;> simp [joinWith]

theorem joinWith_concat_append (ls : List (List Char)) (s t : List Char) :
    joinWith sep (ls ++ [s ++ t]) = joinWith sep (ls ++ [s]) ++ t := by
  by_cases hls : ls = []
  · simp [hls, joinWith]
  · simp [joinWith_append hls, joinWith]

/-! ## Collapsing -/

theorem starts_trimStart (s : List Char) : Starts (trimStart s) := by
  intro c hc
  have h := head?_dropWhile_not isBlank s
  rw [← trimStart, Option.mem_def.1 hc] at h
  simpa using h

theorem starts_trim (s : List Char) : Starts (trim s) ∧ Starts (trim s).reverse := by
  refine ⟨fun c hc => ?_, ?_⟩
  · obtain ⟨gap, -, heq⟩ := exists_trimEnd (trimStart s)
    refine starts_trimStart s c ?_
    rw [heq, head?_append, ← trim, Option.mem_def.1 hc]
    rfl
  · rw [trim, trimEnd, dropEnd, reverse_reverse]
    exact starts_trimStart _

/-- White space is trimmed only around a text that neither starts nor ends with it. -/
theorem trimEnd_append_trim (hne : trim core ≠ []) (s t : List Char) :
    trimEnd (s ++ (trim core ++ t)) = s ++ (trim core ++ trimEnd t) := by
  have hend := (starts_trim core).2
  obtain ⟨r, d, hcore⟩ := eq_nil_or_concat' (trim core) |>.resolve_left hne
  rw [hcore] at hend ⊢
  have hback := dropEnd_append_cons (hend d (by simp)) (s ++ r) t
  simpa [trimEnd] using hback

theorem trim_append_trim (hne : trim core ≠ []) (s t : List Char) :
    trim (s ++ (trim core ++ t)) = trimStart s ++ (trim core ++ trimEnd t) := by
  have hstart := (starts_trim core).1
  rw [← trimEnd_append_trim hne]
  obtain ⟨c, r, hcore⟩ := exists_cons_of_ne_nil hne
  rw [hcore] at hstart ⊢
  exact congrArg trimEnd (dropWhile_append_cons (hstart c rfl) s (r ++ t))

theorem wordsFrom_gap (hgap : ∀ c ∈ gap, isBlank c) (word s : List Char) :
    wordsFrom word (s ++ gap) = wordsFrom word s := by
  have hnone : ∀ gap, (∀ c ∈ gap, isBlank c) → wordsFrom [] gap = [] := by
    intro gap hgap
    induction gap with
    | nil => rfl
    | cons c gap ih =>
      obtain ⟨hc, hgap⟩ := forall_mem_cons.1 hgap
      simpa [wordsFrom, hc] using ih hgap
  induction s generalizing word with
  | nil =>
    cases gap with
    | nil => rfl
    | cons c gap =>
      obtain ⟨hc, hgap⟩ := forall_mem_cons.1 hgap
      simp [wordsFrom, hc, hnone gap hgap]
  | cons c s ih => simp [wordsFrom, ih]

theorem collapse_trimEnd (s : List Char) : collapse (trimEnd s) = collapse s := by
  obtain ⟨gap, hgap, hs⟩ := exists_trimEnd s
  have hwords : words s = words (trimEnd s) :=
    (congrArg words hs).trans (wordsFrom_gap hgap [] (trimEnd s))
  rw [collapse, collapse, hwords]

/-- White space stands in the text only between other characters. -/
def Neat (s : List Char) : Prop :=
  (' ' :: (s ++ [' '])).IsChain fun a b => ¬(isBlank a = true ∧ isBlank b = true)

theorem neat_append_blank {s : List Char} : Neat (s ++ ' ' :: t) ↔ Neat s ∧ Neat t := by
  rw [Neat, append_assoc]
  exact isChain_cons_split

theorem neat_of_filled (hne : w ≠ []) (h : ∀ c ∈ w, isBlank c = false) : Neat w := by
  have hend : ∀ w : List Char, (∀ c ∈ w, isBlank c = false) →
      (w ++ [' ']).IsChain fun a b => ¬(isBlank a ∧ isBlank b) := by
    intro w h
    induction w with
    | nil => exact .singleton _
    | cons c w ih =>
      obtain ⟨hc, hw⟩ := forall_mem_cons.1 h
      exact isChain_cons.2 ⟨fun _ _ => by simp [hc], ih hw⟩
  refine isChain_cons.2 ⟨fun d hd => ?_, hend w h⟩
  rw [head?_append_of_ne_nil _ hne] at hd
  simp [h d (mem_of_head? hd)]

theorem trim_of_neat (h : Neat s) : trim s = s := by
  have hblank : isBlank ' ' := rfl
  rcases eq_nil_or_concat' s with rfl | ⟨r, d, rfl⟩
  · rfl
  · obtain ⟨hhead, -⟩ := isChain_cons.1 h
    have hstart : Starts (r ++ [d]) := by
      intro c hc
      have hc : c ∈ (r ++ [d] ++ [' ']).head? := by
        rwa [head?_append_of_ne_nil _ (by simp)]
      simpa [hblank] using hhead c hc
    rw [Neat, append_assoc, ← cons_append] at h
    have hd : isBlank d = false := by
      simpa [hblank] using (isChain_append.1 h).2.1
    rw [trim, trimStart_of_starts hstart, trimEnd, dropEnd_append_cons hd]
    rfl

theorem filled_of_mem_wordsFrom {word s : List Char} (hword : ∀ c ∈ word, isBlank c = false)
    (hw : w ∈ wordsFrom word s) : w ≠ [] ∧ ∀ c ∈ w, isBlank c = false := by
  have hread : word.isEmpty = false → w = word.reverse → w ≠ [] ∧ ∀ c ∈ w, isBlank c = false := by
    rintro hne rfl
    exact ⟨by simpa using hne, fun c hc => hword c (mem_reverse.1 hc)⟩
  induction s generalizing word with
  | nil =>
    rw [wordsFrom] at hw
    split at hw
    · cases hw
    · next hne => exact hread (by simpa using hne) (mem_singleton.1 hw)
  | cons c s ih =>
    rw [wordsFrom] at hw
    split at hw
    · split at hw
      · exact ih (by simp) hw (by simp)
      · next hne =>
        rcases mem_cons.1 hw with hw | hw
        · exact hread (by simpa using hne) hw
        · exact ih (by simp) hw (by simp)
    · next hc =>
      have hword : ∀ d ∈ c :: word, isBlank d = false :=
        forall_mem_cons.2 ⟨by simpa using hc, hword⟩
      refine ih hword hw ?_
      rintro _ rfl
      exact ⟨by simp, fun d hd => hword d (mem_reverse.1 hd)⟩

theorem neat_joinWith {ws : List (List Char)} (hne : ws ≠ [])
    (h : ∀ w ∈ ws, w ≠ [] ∧ ∀ c ∈ w, isBlank c = false) : Neat (joinWith [' '] ws) := by
  induction ws with
  | nil => exact absurd rfl hne
  | cons w ws ih =>
    obtain ⟨hw, hws⟩ := forall_mem_cons.1 h
    have hw : Neat w := neat_of_filled hw.1 hw.2
    by_cases hne : ws = []
    · rwa [hne]
    · rw [joinWith_cons hne]
      exact neat_append_blank.2 ⟨hw, ih hne hws⟩

theorem neat_collapse (s : List Char) : collapse s = [] ∨ Neat (collapse s) := by
  by_cases h : words s = []
  · exact .inl (by rw [collapse, h]; rfl)
  · exact .inr (neat_joinWith h fun _ => filled_of_mem_wordsFrom (by simp))

/-! ## Characters that are not white space -/

section

variable {f : Char → Bool}

theorem countP_joinWith (hsep : sep.countP f = 0) (ws : List (List Char)) :
    (joinWith sep ws).countP f = ws.flatten.countP f := by
  induction ws with
  | nil => rfl
  | cons w ws ih =>
    cases ws with
    | nil => simp [joinWith]
    | cons v ws => simp [joinWith, hsep, ih]

variable (hf : ∀ c, isBlank c = true → f c = false)
include hf

theorem countP_gap (hgap : ∀ c ∈ gap, isBlank c) : gap.countP f = 0 :=
  countP_eq_zero.2 fun c hc => by simp [hf c (hgap c hc)]

theorem countP_trimEnd (s : List Char) : (trimEnd s).countP f = s.countP f := by
  obtain ⟨gap, hgap, hs⟩ := exists_trimEnd s
  calc (trimEnd s).countP f = (trimEnd s ++ gap).countP f := by
        rw [countP_append, countP_gap hf hgap, Nat.add_zero]
    _ = s.countP f := by rw [← hs]

theorem countP_trim (s : List Char) : (trim s).countP f = s.countP f := by
  have hgap : ∀ c ∈ s.takeWhile isBlank, isBlank c :=
    all_eq_true.1 (all_takeWhile ..)
  calc (trim s).countP f = (s.takeWhile isBlank ++ s.dropWhile isBlank).countP f := by
        rw [trim, countP_trimEnd hf, trimStart, countP_append, countP_gap hf hgap,
          Nat.zero_add]
    _ = s.countP f := by rw [takeWhile_append_dropWhile]

theorem countP_wordsFrom (word s : List Char) :
    (wordsFrom word s).flatten.countP f = word.countP f + s.countP f := by
  induction s generalizing word with
  | nil => cases word <;> simp [wordsFrom, countP_cons]
  | cons c s ih =>
    rw [wordsFrom]
    split
    · next hc =>
      split
      · next hword => simp [ih, hf c hc, List.isEmpty_iff.1 hword]
      · simp [ih, hf c hc]
    · rw [ih, countP_cons, countP_cons]
      omega

theorem countP_collapse (s : List Char) : (collapse s).countP f = s.countP f := by
  rw [collapse, countP_joinWith (by simp [hf ' ' rfl]), words, countP_wordsFrom hf]
  simp

end

section

variable {c : Char} (hc : isBlank c = false)
include hc

theorem beq_of_isBlank {b : Char} (hb : isBlank b) : (b == c) = false := by
  have hne : b ≠ c := by
    rintro rfl
    cases hb.symm.trans hc
  simpa using hne

theorem count_gap (hgap : ∀ c ∈ gap, isBlank c) : gap.count c = 0 :=
  countP_gap (fun _ => beq_of_isBlank hc) hgap

theorem count_trimEnd (s : List Char) : (trimEnd s).count c = s.count c :=
  countP_trimEnd (fun _ => beq_of_isBlank hc) s

theorem count_trim (s : List Char) : (trim s).count c = s.count c :=
  countP_trim (fun _ => beq_of_isBlank hc) s

theorem count_collapse (s : List Char) : (collapse s).count c = s.count c :=
  countP_collapse (fun _ => beq_of_isBlank hc) s

end

/-! ## Leads and last pieces -/

theorem strip?_eq_some_iff {s : List Char} : strip? lead s = some t ↔ s = lead ++ t := by
  induction lead generalizing s with
  | nil => cases s <;> simp [strip?]
  | cons c lead ih =>
    cases s with
    | nil => simp [strip?]
    | cons d s =>
      by_cases h : c = d
      · simp [strip?, h, ih]
      · simp [strip?, h, Ne.symm h]

theorem isSome_strip?_iff {s : List Char} : (strip? lead s).isSome ↔ lead <+: s := by
  rw [Option.isSome_iff_exists]
  exact exists_congr fun _ => strip?_eq_some_iff.trans eq_comm

theorem stripEnd?_append (s tail : List Char) : stripEnd? tail (s ++ tail) = some s := by
  simp [stripEnd?, strip?_eq_some_iff]

theorem cutAt?_append_of_not_mem {sep s : List Char} (h : mark ∉ s) (t : List Char) :
    cutAt? (mark :: sep) (s ++ t) = (cutAt? (mark :: sep) t).map fun x => (s ++ x.1, x.2) := by
  induction s with
  | nil => simp
  | cons c s ih =>
    rw [mem_cons, not_or] at h
    simp [cutAt?, strip?, h.1, ih h.2, Function.comp_def]

theorem cutAt?_append {sep s : List Char} (h : mark ∉ s) (t : List Char) :
    cutAt? (mark :: sep) (s ++ mark :: (sep ++ t)) = some (s, t) := by
  have hstrip : strip? (mark :: sep) (mark :: (sep ++ t)) = some t := strip?_eq_some_iff.2 rfl
  rw [cutAt?_append_of_not_mem h, cutAt?, hstrip]
  simp

theorem cutAt?_eq_none {sep s : List Char} (h : mark ∉ s) : cutAt? (mark :: sep) s = none := by
  have hnil := @cutAt?_append_of_not_mem mark sep s h []
  simpa [cutAt?] using hnil

theorem eq_of_cutAt? {sep s u : List Char} (h : cutAt? sep s = some (t, u)) :
    s = t ++ (sep ++ u) := by
  induction s generalizing t with
  | nil =>
    rw [cutAt?] at h
    split at h
    · next hsep =>
      cases h
      rw [List.isEmpty_iff.1 hsep]
      rfl
    · cases h
  | cons c s ih =>
    rw [cutAt?] at h
    split at h
    · next rest hstrip =>
      cases h
      rw [strip?_eq_some_iff.1 hstrip]
      rfl
    · obtain ⟨x, hx, heq⟩ := Option.map_eq_some_iff.1 h
      cases heq
      rw [cons_append, ← ih hx]

theorem afterLast_append_of_mem {c : Char} (h : c ∈ t) (s : List Char) :
    afterLast c (s ++ t) = afterLast c t := by
  have hstop : ¬∀ d ∈ t.reverse, (d != c) := fun hall => by
    simpa using hall c (mem_reverse.2 h)
  rw [← takeWhile_eq_self_iff] at hstop
  rw [afterLast, afterLast, reverse_append, takeWhile_append, if_neg]
  intro hlength
  exact hstop ((List.takeWhile_prefix _).eq_of_length hlength)

theorem afterLast_append_of_not_mem {c : Char} (h : c ∉ t) (s : List Char) :
    afterLast c (s ++ t) = afterLast c s ++ t := by
  rw [afterLast, afterLast, reverse_append, takeWhile_append_of_pos, reverse_append,
    reverse_reverse]
  intro d hd
  rw [bne_iff_ne]
  rintro rfl
  exact h (mem_reverse.1 hd)

theorem afterLast_of_not_mem {c : Char} (h : c ∉ s) : afterLast c s = s :=
  afterLast_append_of_not_mem h []

theorem afterLast_append {c : Char} (h : c ∉ s) (pre : List Char) :
    afterLast c (pre ++ c :: s) = s := by
  rw [← singleton_append, ← append_assoc, afterLast_append_of_not_mem h]
  simp [afterLast]

/-! ## Words -/

/-- White space is not part of a word. -/
theorem isBlank_of_isWordChar {c : Char} (h : isWordChar c) : isBlank c = false := by
  have hnone : ∀ n ∈ [0x09, 0x0A, 0x0B, 0x0C, 0x0D, 0x20, 0x85, 0xA0, 0x1680, 0x2000, 0x2001,
      0x2002, 0x2003, 0x2004, 0x2005, 0x2006, 0x2007, 0x2008, 0x2009, 0x200A, 0x2028, 0x2029,
      0x202F, 0x205F, 0x3000], isWordChar (Char.ofNat n) = false := by decide +kernel
  rw [← Bool.not_eq_true]
  intro hblank
  have hc : isWordChar (Char.ofNat c.toNat) = false := by
    refine hnone c.toNat ?_
    simp only [isBlank, Bool.or_eq_true, Bool.and_eq_true, decide_eq_true_eq, beq_iff_eq] at hblank
    simp only [mem_cons]
    omega
  rw [Char.ofNat_toNat, h] at hc
  cases hc

/-- The word is a name: it is not empty, and has only characters of words in it. -/
def IsWord (name : List Char) : Prop :=
  name ≠ [] ∧ ∀ c ∈ name, isWordChar c = true

theorem IsWord.starts {name : List Char} (h : IsWord name) (s : List Char) :
    Starts (name ++ s) := by
  obtain ⟨hne, hword⟩ := h
  cases name with
  | nil => exact absurd rfl hne
  | cons c name =>
    intro d hd
    cases hd
    exact isBlank_of_isWordChar (hword c mem_cons_self)

end CodeAtlas.Text
