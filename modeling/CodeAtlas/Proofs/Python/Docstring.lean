import CodeAtlas.Proofs.Python.Insertion
import CodeAtlas.Proofs.Spacing

/-!
# Lines and ends of docstrings

The lines of a docstring lose the indentation they have in common, all but the first. It is
measured in columns, of which a tab takes up to eight, but dropped by the character. So for spaces
a line keeps the indentation it has beyond the margin, and for tabs only in part (`Dedents`). White
space around the whole text is trimmed as well, and with it the indentation of the first line that
is not blank.

A string in triple quotes ends where the scan of its lines leaves it (`Encloses`). The text of a
docstring ends at the first three quotes instead, which may stand behind a backslash.

* `countP_cleanDocstring`: only white space is dropped of a docstring;
* `docstring_line_shown`: where a line is shown, and how far it is indented there;
* `docstring_ends_iff`: when a docstring ends where the string does.
-/

namespace CodeAtlas.Python

open Text List

variable {body : List Char}

/-! ## What is kept of a docstring -/

section

variable {f : Char → Bool} (hf : ∀ c, isBlank c = true → f c = false)
include hf

theorem countP_dropMargin (margin : Nat) (s : List Char) :
    (dropMargin margin s).countP f = s.countP f := by
  induction s generalizing margin with
  | nil => rfl
  | cons c s ih =>
    rw [dropMargin]
    split
    · next h => rw [ih, countP_cons_of_neg (by simp [hf c (Bool.and_eq_true_iff.1 h).2])]
    · rfl

theorem countP_linesFrom (line s : List Char) :
    (linesFrom line s).flatten.countP f = line.countP f + s.countP f := by
  have hreturn : ∀ line, (dropReturn line).countP f = line.countP f := by
    intro line
    rw [dropReturn.eq_def]
    split
    · rw [countP_cons_of_neg (by simp [hf '\r' rfl])]
    · rfl
  induction s generalizing line with
  | nil => cases line <;> simp [linesFrom, countP_cons]
  | cons c s ih =>
    rw [linesFrom]
    split
    · next hc => simp [ih, hreturn, beq_iff_eq.1 hc, hf '\n' rfl]
    · rw [ih, countP_cons, countP_cons]
      omega

theorem countP_dedented (margin : Nat) (first : List Char) (rest : List (List Char)) :
    (joinWith ['\n'] (trim first :: rest.map fun l => trimEnd (dropMargin margin l))).countP f =
      (first :: rest).flatten.countP f := by
  rw [countP_joinWith (by simp [hf '\n' rfl]), flatten_cons, countP_append, countP_trim hf]
  simp [Function.comp_def, countP_trimEnd hf, countP_dropMargin hf]

theorem countP_cleanDocstring (body : List Char) :
    (cleanDocstring body).countP f = body.countP f := by
  have hlines : (lines body).flatten.countP f = body.countP f :=
    (countP_linesFrom hf [] body).trans (Nat.zero_add _)
  rw [cleanDocstring, ← hlines]
  cases lines body with
  | nil => rfl
  | cons first rest => exact (countP_trim hf _).trans (countP_dedented hf ..)

end

/-! ## The margin -/

theorem trim_eq_nil_iff {s : List Char} : trim s = [] ↔ s.countP (!isBlank ·) = 0 := by
  constructor
  · intro h
    rw [← countP_trim (by simp), h]
    rfl
  · intro h
    have hblank : ∀ c ∈ s, isBlank c := by simpa using countP_eq_zero.1 h
    rw [trim, trimStart_of_blank hblank]
    rfl

section

variable {gap s l : List Char} {margin : Nat} {ls : List (List Char)}

theorem dropMargin_append (hgap : ∀ c ∈ gap, isBlank c) (hs : Starts s) :
    dropMargin margin (gap ++ s) = dropMargin margin gap ++ s := by
  induction gap generalizing margin with
  | nil =>
    cases s with
    | nil => rfl
    | cons c s => simp [dropMargin, hs c rfl]
  | cons c gap ih =>
    obtain ⟨-, hgap⟩ := forall_mem_cons.1 hgap
    simp only [cons_append, dropMargin, ih hgap]
    split <;> rfl

/-- The indentation has only spaces and tabs in it. -/
def IsIndent (gap : List Char) : Prop :=
  ∀ c ∈ gap, c = ' ' ∨ c = '\t'

theorem IsIndent.dropMargin_eq (h : IsIndent gap) : dropMargin margin gap = gap.drop margin := by
  induction gap generalizing margin with
  | nil => simp [dropMargin]
  | cons c gap ih =>
    obtain ⟨hc, hgap⟩ := forall_mem_cons.1 h
    cases margin with
    | zero => rfl
    | succ margin => rcases hc with rfl | rfl <;> exact ih hgap

theorem indentFrom_append (h : IsIndent gap) (hs : Starts s) (width : Nat) :
    indentFrom width (gap ++ s) = indentFrom width gap := by
  induction gap generalizing width with
  | nil =>
    rcases s with _ | ⟨c, s⟩
    · rfl
    · have hc := hs c rfl
      rw [indentFrom.eq_def]
      split
      · next h =>
        cases h
        cases hc
      · next h =>
        cases h
        cases hc
      · rfl
  | cons c gap ih =>
    obtain ⟨rfl | rfl, hgap⟩ := forall_mem_cons.1 h <;> exact ih hgap _

theorem length_le_indentFrom (h : IsIndent gap) (width : Nat) :
    width + gap.length ≤ indentFrom width gap := by
  induction gap generalizing width with
  | nil => exact Nat.le_refl _
  | cons c gap ih =>
    obtain ⟨rfl | rfl, hgap⟩ := forall_mem_cons.1 h
    · have hnext := ih hgap (width + 1)
      rw [indentFrom, length_cons]
      omega
    · have hnext := ih hgap ((width / 8 + 1) * 8)
      rw [indentFrom, length_cons]
      omega

theorem indentFrom_spaces (n width : Nat) : indentFrom width (replicate n ' ') = width + n := by
  induction n generalizing width with
  | zero => rfl
  | succ n ih =>
    rw [replicate_succ, indentFrom, ih]
    omega

theorem indentFrom_tabs (n k : Nat) : indentFrom (k * 8) (replicate n '\t') = (k + n) * 8 := by
  induction n generalizing k with
  | zero => rfl
  | succ n ih =>
    rw [replicate_succ, indentFrom, ih]
    omega

theorem marginOf_le (hmem : l ∈ ls) (hl : trim l ≠ []) : marginOf ls ≤ indentOf l := by
  refine min?_getD_le_of_mem (mem_map_of_mem (mem_filter.2 ⟨hmem, ?_⟩))
  simpa using hl

/-- How a line is indented where it is shown: as many characters as the margin are dropped of its
    indentation. That is right for spaces, and for a line at the margin. -/
structure Dedents (margin : Nat) (l shown : List Char) : Prop where
  rest : IsIndent (l.takeWhile isBlank) →
    indentOf shown = indentOf ((l.takeWhile isBlank).drop margin)
  spaces : (∀ c ∈ l.takeWhile isBlank, c = ' ') → indentOf shown = indentOf l - margin
  least : IsIndent (l.takeWhile isBlank) → margin = indentOf l → indentOf shown = 0
  tabs : (∀ c ∈ l.takeWhile isBlank, c = '\t') →
    (indentOf shown = indentOf l - margin ↔ margin = 0 ∨ margin = indentOf l)

theorem dedents_dropMargin (hle : margin ≤ indentOf l) :
    Dedents margin l (dropMargin margin (l.takeWhile isBlank) ++ trim l) := by
  have hindent : IsIndent (l.takeWhile isBlank) → indentOf l = indentOf (l.takeWhile isBlank) :=
    fun h => by
      have hread := indentFrom_append h (starts_trimStart l) 0
      rwa [trimStart, takeWhile_append_dropWhile] at hread
  have hshown : IsIndent (l.takeWhile isBlank) →
      indentOf (dropMargin margin (l.takeWhile isBlank) ++ trim l) =
        indentOf ((l.takeWhile isBlank).drop margin) := fun h => by
    rw [h.dropMargin_eq]
    exact indentFrom_append (fun c hc => h c (mem_of_mem_drop hc)) (starts_trim l).1 0
  refine ⟨hshown, fun h => ?_, fun h hmargin => ?_, fun h => ?_⟩
  · have hi : IsIndent (l.takeWhile isBlank) := fun c hc => .inl (h c hc)
    rw [hshown hi, hindent hi, eq_replicate_of_mem h]
    simp [indentOf, indentFrom_spaces]
  · have hlong := length_le_indentFrom h 0
    rw [hshown h, drop_eq_nil_of_le]
    · rfl
    · rw [hmargin, hindent h]
      simpa [indentOf] using hlong
  · have hi : IsIndent (l.takeWhile isBlank) := fun c hc => .inr (h c hc)
    rw [hindent hi] at hle ⊢
    rw [hshown hi]
    rw [eq_replicate_of_mem h] at hle ⊢
    rw [drop_replicate]
    have htabs : ∀ n, indentOf (replicate n '\t') = n * 8 := fun n => by
      simpa [indentOf] using indentFrom_tabs n 0
    rw [htabs] at hle
    rw [htabs, htabs]
    omega

theorem dropMargin_suffix (margin : Nat) (s : List Char) : dropMargin margin s <:+ s := by
  induction s generalizing margin with
  | nil => exact suffix_refl _
  | cons c s ih =>
    rw [dropMargin]
    split
    · exact (ih _).trans (suffix_cons c s)
    · exact suffix_refl _

/-- Of a line, a part of its indentation is dropped, and the white space at its end. -/
theorem trimEnd_dropMargin (hl : trim l ≠ []) (margin : Nat) :
    trimEnd (dropMargin margin l) = dropMargin margin (l.takeWhile isBlank) ++ trim l := by
  have hsplit : l = l.takeWhile isBlank ++ trimStart l := takeWhile_append_dropWhile.symm
  have hgap : ∀ c ∈ l.takeWhile isBlank, isBlank c := fun _ => mem_takeWhile_imp
  conv_lhs => rw [hsplit, dropMargin_append hgap (starts_trimStart l)]
  rw [trim] at hl ⊢
  have hstarts := starts_trimStart l
  cases h : trimStart l with
  | nil =>
    rw [h] at hl
    exact absurd rfl hl
  | cons c s =>
    rw [h] at hstarts
    rw [trimEnd, trimEnd, dropEnd_append_cons (hstarts c rfl), dropEnd_cons (hstarts c rfl)]

theorem forall_trim_eq_nil_iff : (∀ l ∈ ls, trim l = []) ↔ ls.flatten.countP (!isBlank ·) = 0 := by
  simp only [trim_eq_nil_iff, countP_eq_zero, mem_flatten]
  exact ⟨fun h c ⟨l, hl, hc⟩ => h l hl c hc, fun h l hl c hc => h c ⟨l, hl, hc⟩⟩

theorem joinWith_newline (x : List Char) (ls : List (List Char)) :
    ∃ below, joinWith ['\n'] (x :: ls) = x ++ below ∧ (below = [] ∨ below.head? = some '\n') := by
  cases ls with
  | nil => exact ⟨[], by simp [joinWith], .inl rfl⟩
  | cons y ls => exact ⟨'\n' :: joinWith ['\n'] (y :: ls), by simp [joinWith], .inr rfl⟩

/-- The lines above a line are shown as far as there is more than white space in them. -/
theorem exists_cleanDocstring_eq {first : List Char} {before after : List (List Char)}
    (hlines : lines body = first :: (before ++ l :: after)) (hl : trim l ≠ []) :
    ∃ above below, cleanDocstring body = trimStart (above ++ '\n' ::
        dropMargin (marginOf (before ++ l :: after)) (l.takeWhile isBlank)) ++ (trim l ++ below) ∧
      (below = [] ∨ below.head? = some '\n') ∧
      (trimStart above = [] ↔ ∀ x ∈ first :: before, trim x = []) := by
  rw [cleanDocstring, hlines]
  dsimp only
  generalize marginOf (before ++ l :: after) = margin
  have hcount := countP_dedented (f := (!isBlank ·)) (by simp) margin first before
  obtain ⟨below, hbelow, hhead⟩ := joinWith_newline (trimEnd (dropMargin margin l))
    (after.map fun l => trimEnd (dropMargin margin l))
  rw [map_append, ← cons_append, joinWith_append (by simp) (by simp), map_cons, hbelow,
    trimEnd_dropMargin hl]
  generalize joinWith ['\n'] (trim first :: before.map _) = above at hcount ⊢
  refine ⟨above, trimEnd below, ?_, ?_, ?_⟩
  · rw [← trim_append_trim hl]
    simp
  · obtain ⟨gap, -, heq⟩ := exists_trimEnd below
    cases h : trimEnd below with
    | nil => exact .inl rfl
    | cons c s =>
      rw [h] at heq
      subst heq
      simpa using hhead
  · rw [forall_trim_eq_nil_iff, ← hcount, trimStart]
    simp

/-- Where a line of a docstring is shown, and how far it is indented there. -/
theorem docstring_line_shown {body first l : List Char} {before after : List (List Char)}
    (hlines : lines body = first :: (before ++ l :: after)) (hl : trim l ≠ []) :
    ∃ above lead below, cleanDocstring body = above ++ ((lead ++ trim l) ++ below) ∧
      (above = [] ∨ above.getLast? = some '\n') ∧ (below = [] ∨ below.head? = some '\n') ∧
      lead ++ trim l <:+: l ∧ ((∀ x ∈ first :: before, trim x = []) → lead = []) ∧
      (¬ (∀ x ∈ first :: before, trim x = []) →
        Dedents (marginOf (before ++ l :: after)) l (lead ++ trim l)) := by
  have hmargin : marginOf (before ++ l :: after) ≤ indentOf l := marginOf_le (by simp) hl
  have hdedents := dedents_dropMargin hmargin
  obtain ⟨above, below, hclean, hbelow, hblank⟩ := exists_cleanDocstring_eq hlines hl
  generalize marginOf (before ++ l :: after) = margin at hdedents hclean ⊢
  have hinfix : dropMargin margin (l.takeWhile isBlank) ++ trim l <:+: l := by
    obtain ⟨gap, -, heq⟩ := exists_trimEnd (dropMargin margin l)
    rw [← trimEnd_dropMargin hl]
    exact IsInfix.trans ⟨[], gap, by simpa using heq.symm⟩ (dropMargin_suffix margin l).isInfix
  rw [hclean, trimStart, dropWhile_append, ← trimStart]
  by_cases hnone : trimStart above = []
  · have hgap : ∀ c ∈ '\n' :: dropMargin margin (l.takeWhile isBlank), isBlank c = true := by
      refine forall_mem_cons.2 ⟨rfl, fun c hc => ?_⟩
      exact mem_takeWhile_imp ((dropMargin_suffix ..).subset hc)
    rw [if_pos (List.isEmpty_iff.2 hnone), ← trimStart, trimStart_of_blank hgap]
    exact ⟨[], [], below, rfl, .inl rfl, hbelow, (suffix_append ..).isInfix.trans hinfix,
      fun _ => rfl, fun h => absurd (hblank.1 hnone) h⟩
  · rw [if_neg (mt List.isEmpty_iff.1 hnone)]
    refine ⟨trimStart above ++ ['\n'], _, below, by simp, .inr (by simp), hbelow, hinfix,
      fun h => absurd (hblank.2 h) hnone, fun _ => hdedents⟩

theorem docstring_line_shown_nested :
    let body := "a\n    b\n\n      c".toList
    lines body = "a".toList :: (["    b".toList, []] ++ "      c".toList :: []) ∧
      ∃ above lead below, cleanDocstring body = above ++ ((lead ++ "c".toList) ++ below) ∧
        indentOf (lead ++ "c".toList) = 2 := by
  intro body
  have hlines : lines body = "a".toList :: (["    b".toList, []] ++ "      c".toList :: []) := by
    decide +kernel
  obtain ⟨above, lead, below, hclean, -, -, -, -, h⟩ := docstring_line_shown hlines (by decide)
  exact ⟨hlines, above, lead, below, hclean, (h (by decide)).spaces
    (forall_mem_of_all (by decide))⟩

/-- A tab is dropped with what follows it, and the first text is not indented. -/
theorem tab_loses_indentation :
    marginOf ["\tfoo".toList, "\t  bar".toList] = 8 ∧ indentOf "\t  bar".toList = 10 ∧
      cleanDocstring "a\n\tfoo\n\t  bar".toList = "a\nfoo\nbar".toList ∧
      cleanDocstring "\n      a\n    b".toList = "a\nb".toList := by
  decide +kernel

end

/-! ## The end of a docstring -/

/-- What is open behind a text, the lines of which are read one by one. -/
def openBehind (st : ScanState) (text : List Char) : Option Char :=
  ((Text.splitOn (· == '\n') text).foldl (fun st line => (scanLine st line).2) st).triple

/-- Behind the lead, a string in triple quotes is open up to the quotes that follow the body. -/
structure Encloses (lead : List Char) (q : Char) (body : List Char) : Prop where
  within : ∀ s, s <+: body ++ [q, q] → openBehind {} (lead ++ s) = some q
  behind : openBehind {} (lead ++ (body ++ [q, q, q])) = none

theorem exists_splitOn_append {p : Char → Bool} {s : List Char} (hs : ∀ c ∈ s, p c = false)
    (t : List Char) :
    ∃ line rest, Text.splitOn p t = line :: rest ∧ line <+: t ∧ (∀ c ∈ line, p c = false) ∧
      Text.splitOn p (s ++ t) = (s ++ line) :: rest := by
  have hpiece : ∀ piece, splitFrom p piece (s ++ t) = splitFrom p (s.reverse ++ piece) t := by
    induction s with
    | nil => simp
    | cons c s ih =>
      obtain ⟨hc, hs⟩ := forall_mem_cons.1 hs
      simp [splitFrom, hc, ih hs]
  have hread : ∃ line rest, line <+: t ∧ (∀ c ∈ line, p c = false) ∧
      ∀ piece, splitFrom p piece t = (piece.reverse ++ line) :: rest := by
    clear hpiece
    induction t with
    | nil => exact ⟨[], [], nil_prefix, by simp, by simp [splitFrom]⟩
    | cons c t ih =>
      cases hc : p c with
      | true => exact ⟨[], splitFrom p [] t, nil_prefix, by simp, by simp [splitFrom, hc]⟩
      | false =>
        obtain ⟨line, rest, hline, hfree, heq⟩ := ih
        refine ⟨c :: line, rest, prefix_cons_inj c |>.2 hline, forall_mem_cons.2 ⟨hc, hfree⟩, ?_⟩
        simp [splitFrom, hc, heq]
  obtain ⟨line, rest, hline, hfree, heq⟩ := hread
  refine ⟨line, rest, (heq []).trans (by simp), hline, hfree, ?_⟩
  rw [Text.splitOn, hpiece, heq]
  simp

variable {q : Char} {depth : Nat} {st st' : ScanState} {s t marks gap : List Char}

/-- Reading on behind a part of a line. -/
theorem openBehind_append (hs : '\n' ∉ s)
    (h : ∀ line, line <+: t → '\n' ∉ line →
      scanLine st (s ++ line) = kept s (scanLine st' line)) :
    openBehind st (s ++ t) = openBehind st' t := by
  have hfree : ∀ c ∈ s, (c == '\n') = false := fun c hc => by
    simpa using fun hn : c = '\n' => hs (hn ▸ hc)
  obtain ⟨line, rest, ht, hline, hnone, hst⟩ := exists_splitOn_append hfree t
  have hnone : '\n' ∉ line := fun hn => by simpa using hnone _ hn
  rw [openBehind, openBehind, ht, hst, foldl_cons, foldl_cons, h line hline hnone,
    kept]

theorem openBehind_newline :
    openBehind ⟨some q, depth⟩ ('\n' :: t) = openBehind ⟨some q, depth⟩ t :=
  rfl

theorem openBehind_escaped (c : Char) :
    openBehind ⟨some q, depth⟩ ('\\' :: c :: t) = openBehind ⟨some q, depth⟩ t := by
  by_cases hc : c = '\n'
  · subst hc
    refine (openBehind_append (s := ['\\']) (by decide) ?_).trans openBehind_newline
    -- The backslash is the last character of its line.
    rintro line hline hnone
    cases line with
    | nil => rfl
    | cons d line =>
      obtain ⟨rfl, -⟩ := cons_prefix_cons.1 hline
      exact absurd mem_cons_self hnone
  · refine openBehind_append (s := ['\\', c]) (by simp [Ne.symm hc]) fun line _ _ => ?_
    exact scanFrom_triple_escaped c line

theorem openBehind_plain {c : Char} (hc : c ≠ '\\') (ht : ¬ [q, q, q] <+: c :: t) :
    openBehind ⟨some q, depth⟩ (c :: t) = openBehind ⟨some q, depth⟩ t := by
  by_cases hn : c = '\n'
  · subst hn
    exact openBehind_newline
  · refine openBehind_append (s := [c]) (by simp [Ne.symm hn]) fun line hline _ => ?_
    exact scanFrom_triple_plain hc fun h => ht (h.trans ((prefix_cons_inj c).2 hline))

theorem not_blank_of_isQuote (hq : isQuote q) :
    q ≠ '\n' ∧ isBlank q = false ∧ isStringMark q = false := by
  rw [isQuote, Bool.or_eq_true, beq_iff_eq, beq_iff_eq] at hq
  rcases hq with rfl | rfl <;> decide

theorem openBehind_close (hq : isQuote q) :
    openBehind ⟨some q, depth⟩ [q, q, q] = none := by
  have hn := (not_blank_of_isQuote hq).1
  have hclosed : openBehind ⟨none, depth⟩ [] = none := rfl
  refine (openBehind_append (s := [q, q, q]) (by simp [hn.symm]) fun line _ _ => ?_).trans hclosed
  exact scanFrom_triple_close (ne_backslash_of_isQuote hq) line

/-- Quotes that do not end the string have a backslash before them. -/
theorem backslash_before_quotes (hq : isQuote q) : ∀ s : List Char,
    (∀ t, t <+: s ++ [q, q, q] → openBehind ⟨some q, depth⟩ t = some q) → s.getLast? = some '\\'
  | [], hopen => by cases (openBehind_close hq).symm.trans (hopen _ (prefix_refl _))
  | c :: s, hopen => by
    by_cases hc : c = '\\'
    · subst hc
      cases s with
      | nil => rfl
      | cons d s =>
        have hlast := backslash_before_quotes hq s fun t ht => by
          rw [← openBehind_escaped d]
          exact hopen _ (by simpa using ht)
        rw [getLast?_cons_cons, getLast?_cons, hlast]
        rfl
    · have hnot : ¬ [q, q, q] <+: c :: (s ++ [q, q, q]) := fun h => by
        cases (openBehind_close hq).symm.trans (hopen _ h)
      have hlast := backslash_before_quotes hq s fun t ht => by
        have hct : c :: t <+: c :: (s ++ [q, q, q]) := (prefix_cons_inj c).2 ht
        rw [← openBehind_plain hc fun h => hnot (h.trans hct)]
        exact hopen _ hct
      rw [getLast?_cons, hlast]
      rfl

theorem exists_cutAt? (sep s t : List Char) :
    ∃ u v, cutAt? sep (s ++ (sep ++ t)) = some (u, v) ∧ u.length ≤ s.length := by
  induction s with
  | nil =>
    rw [nil_append]
    cases h : sep ++ t with
    | nil =>
      obtain ⟨rfl, rfl⟩ := append_eq_nil_iff.1 h
      exact ⟨[], [], rfl, Nat.le_refl _⟩
    | cons c r =>
      rw [cutAt?, strip?_eq_some_iff.2 h.symm]
      exact ⟨[], t, rfl, Nat.le_refl _⟩
  | cons c s ih =>
    obtain ⟨u, v, hcut, hle⟩ := ih
    rw [cons_append, cutAt?]
    split
    · exact ⟨_, _, rfl, Nat.zero_le _⟩
    · rw [hcut]
      exact ⟨_, _, rfl, Nat.succ_le_succ hle⟩

/-- Behind the quotes at its start, a string in triple quotes is open. -/
theorem openBehind_lead (hq : isQuote q) (hs : ∀ c ∈ s, c ∉ specials) (t : List Char) :
    openBehind {} (s ++ [q, q, q] ++ t) = openBehind ⟨some q, 0⟩ t := by
  have hfree : '\n' ∉ s := fun h => hs _ h (by decide)
  refine openBehind_append (by simp [hfree, (not_blank_of_isQuote hq).1.symm]) fun line _ _ => ?_
  have hread : scanFrom .code 0 (s ++ ([q, q, q] ++ line)) =
      kept s (kept [q, q, q] (scanFrom (.triple q) 0 line)) := by
    rw [scanFrom_append hs, ← scanFrom_quotes hq]
    rfl
  rw [append_assoc, ← kept_kept]
  exact hread

/-- A docstring is what stands between the quotes at its start and those that follow first. -/
theorem docstring?_append (hq : isQuote q) (hgap : ∀ c ∈ gap, isBlank c)
    (hmarks : ∀ c ∈ marks, isStringMark c) (hlength : marks.length ≤ 2) :
    docstring? (gap ++ marks ++ [q, q, q] ++ body) =
      (cutAt? [q, q, q] body).map fun x => cleanDocstring x.1 := by
  obtain ⟨-, hquote⟩ := not_blank_of_isQuote hq
  have hblank : ∀ c, isStringMark c → isBlank c = false := by
    have hall : ['r', 'R', 'u', 'U', 'b', 'B', 'f', 'F'].all (!isBlank ·) := by decide
    intro c hc
    simpa using all_eq_true.1 hall c (contains_iff_mem.1 hc)
  have hstarts : Starts (marks ++ ([q, q, q] ++ body)) := by
    cases marks with
    | nil => simp [Starts, hquote]
    | cons c marks => simpa [Starts] using hblank c (hmarks c mem_cons_self)
  have htake : (marks ++ ([q, q, q] ++ body)).takeWhile isStringMark = marks := by
    rw [takeWhile_append_of_pos hmarks]
    simp [hquote]
  rw [docstring?, append_assoc, append_assoc, trimStart_gap hgap hstarts]
  simp only [htake]
  simp [hq, Nat.not_lt.2 hlength]

/-- Neither indentation nor the letters before a string have a meaning for what is open. -/
theorem not_mem_specials_of_lead (hgap : ∀ c ∈ gap, isBlank c ∧ c ≠ '\n')
    (hmarks : ∀ c ∈ marks, isStringMark c) : ∀ c ∈ gap ++ marks, c ∉ specials := by
  have hspecial : ∀ c ∈ specials, (isBlank c → c = '\n') ∧ isStringMark c = false :=
    forall_mem_of_all (by decide)
  rintro c hc hmem
  rcases mem_append.1 hc with hc | hc
  · exact (hgap c hc).2 ((hspecial c hmem).1 (hgap c hc).1)
  · cases (hmarks c hc).symm.trans (hspecial c hmem).2

/-- The quotes that end a docstring are those with which the string ends, unless three quotes
    stand behind a backslash before. -/
theorem docstring_ends_iff {gap marks body tail : List Char} (hq : isQuote q = true)
    (hgap : ∀ c ∈ gap, isBlank c = true ∧ c ≠ '\n')
    (hmarks : ∀ c ∈ marks, isStringMark c = true) (hlength : marks.length ≤ 2)
    (hbody : Encloses (gap ++ marks ++ [q, q, q]) q body) :
    docstring? (gap ++ marks ++ [q, q, q] ++ (body ++ ([q, q, q] ++ tail))) =
        some (cleanDocstring body) ↔
      ¬ ['\\', q, q, q] <:+: body ++ [q, q] := by
  have hlead := not_mem_specials_of_lead hgap hmarks
  obtain ⟨s, t, hcut, hle⟩ := exists_cutAt? [q, q, q] body tail
  have hsplit : body ++ ([q, q, q] ++ tail) = s ++ ([q, q, q] ++ t) := eq_of_cutAt? hcut
  rw [docstring?_append hq (fun c hc => (hgap c hc).1) hmarks hlength, hcut, Option.map_some,
    Option.some_inj]
  rcases Nat.lt_or_eq_of_le hle with hlt | heq
  · have hquotes : s ++ [q, q, q] <+: body ++ [q, q] := by
      refine @prefix_of_prefix_length_le _ _ _ (body ++ ([q, q, q] ++ tail)) ⟨t, ?_⟩
        ⟨q :: tail, ?_⟩ ?_
      · rw [hsplit, append_assoc]
      · simp
      · simpa using Nat.succ_le_of_lt hlt
    refine iff_of_false (fun hclean => ?_) (not_not.2 ?_)
    · -- The first of the quotes is missing in what is read.
      have hshort : s ++ [q] <+: body :=
        prefix_of_prefix_length_le (((prefix_append_right_inj s).2 ⟨[q, q], rfl⟩).trans hquotes)
          (prefix_append ..) (by simpa using Nat.succ_le_of_lt hlt)
      obtain ⟨r, rfl⟩ := hshort
      have hcount := congrArg (countP (!isBlank ·)) hclean
      rw [countP_cleanDocstring (by simp), countP_cleanDocstring (by simp)] at hcount
      simp [(not_blank_of_isQuote hq).2] at hcount
    · have hlast : s.getLast? = some '\\' := backslash_before_quotes hq s fun t ht =>
        (openBehind_lead hq hlead t).symm.trans (hbody.within t (ht.trans hquotes))
      obtain ⟨r, rfl⟩ := getLast?_eq_some_iff.1 hlast
      exact IsInfix.trans ⟨r, [], by simp⟩ hquotes.isInfix
  · obtain ⟨rfl, -⟩ := append_inj hsplit heq.symm
    refine iff_of_true rfl ?_
    rintro ⟨u, v, huv⟩
    -- Such quotes would be found before the end.
    have hearlier : body ++ ([q, q, q] ++ tail) =
        (u ++ ['\\']) ++ ([q, q, q] ++ (v ++ q :: tail)) := by
      simpa using congrArg (· ++ q :: tail) huv.symm
    obtain ⟨s', t', hcut', hle'⟩ := exists_cutAt? [q, q, q] (u ++ ['\\']) (v ++ q :: tail)
    rw [← hearlier, hcut] at hcut'
    cases hcut'
    have hlength := congrArg length huv
    simp at hlength hle'
    omega

theorem docstring_ends_within :
    let body := "say \"hi\"\n and \\\" it's".toList
    Encloses "  r\"\"\"".toList '"' body ∧
      docstring? ("  r\"\"\"".toList ++ (body ++ ("\"\"\"".toList ++ "".toList))) =
        some (cleanDocstring body) := by
  intro body
  have hwithin : ∀ s ∈ inits (body ++ ['"', '"']),
      openBehind {} ("  r\"\"\"".toList ++ s) = some '"' := by decide +kernel
  have hbody : Encloses "  r\"\"\"".toList '"' body :=
    ⟨fun s hs => hwithin s ((mem_inits ..).2 hs), by decide +kernel⟩
  refine ⟨hbody, ?_⟩
  exact (@docstring_ends_iff '"' "  ".toList "r".toList body "".toList rfl
    (forall_mem_of_all (by decide)) (forall_mem_of_all (by decide)) (by decide) hbody).2
    (by decide +kernel)

/-- Escaped quotes end a docstring, though not the string. -/
theorem escaped_quotes_end_docstring :
    let body := "a \\\"\"\" b".toList
    Encloses "\"\"\"".toList '"' body ∧ cleanDocstring body = body ∧
      docstring? ("\"\"\"".toList ++ (body ++ "\"\"\"".toList)) = some "a \\".toList := by
  intro body
  have hwithin : ∀ s ∈ inits (body ++ ['"', '"']),
      openBehind {} ("\"\"\"".toList ++ s) = some '"' := by decide +kernel
  exact ⟨⟨fun s hs => hwithin s ((mem_inits ..).2 hs), by decide +kernel⟩, by decide +kernel,
    by decide +kernel⟩

end CodeAtlas.Python
