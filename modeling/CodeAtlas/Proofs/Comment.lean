import CodeAtlas.Comment
import CodeAtlas.Proofs.Spacing

/-!
# Comments written and read

A text of several lines is written as a block with a column of asterisks (`blockText`) or behind
two slashes on each line (`slashText`), and read back without these marks. One mark and one space
are taken off each line, so a line keeps its indentation and what it starts with, also an
asterisk or slashes of its own.

* `lines_joinWith`: the lines of a text are those that it was joined from;
* `blockLine_row`, `markedLine_row`: what is read of one line;
* `formatted_text_is_read_back`: what is read of a comment.
-/

namespace CodeAtlas

open List

namespace Text

variable {l s t : List Char} {ls : List (List Char)}

/-! ## Lines -/

theorem linesFrom_append (h : '\n' ∉ s) (line t : List Char) :
    linesFrom line (s ++ t) = linesFrom (s.reverse ++ line) t := by
  induction s generalizing line with
  | nil => rfl
  | cons c s ih =>
    rw [mem_cons, not_or] at h
    rw [cons_append, linesFrom, if_neg (by simpa using Ne.symm h.1), ih h.2]
    simp

/-- The text is one line, and no part of the line's end. -/
def IsLine (l : List Char) : Prop :=
  '\n' ∉ l ∧ l.getLast? ≠ some '\r'

/-- By induction on the lines: the first line ends at the first line feed. -/
theorem lines_joinWith (hls : ∀ l ∈ ls, IsLine l) (hlast : ls.getLast? ≠ some []) :
    lines (joinWith ['\n'] ls) = ls := by
  induction ls with
  | nil => rfl
  | cons l ls ih =>
    obtain ⟨⟨hfeed, hreturn⟩, hls⟩ := forall_mem_cons.1 hls
    have hread := linesFrom_append hfeed []
    rw [append_nil] at hread
    cases ls with
    | nil =>
      -- Without a line feed behind it, only a line that is not empty counts.
      have hne : l ≠ [] := by simpa using hlast
      have hend := hread []
      rw [append_nil] at hend
      rw [joinWith, lines, hend]
      simp [linesFrom, hne]
    | cons x ls =>
      have hdrop : dropReturn l.reverse = l.reverse := by
        rw [dropReturn.eq_def]
        split
        · next heq => exact absurd (by rw [← head?_reverse, heq]; rfl) hreturn
        · rfl
      rw [joinWith_cons (cons_ne_nil _ _), lines, hread, linesFrom, hdrop, reverse_reverse]
      exact congrArg (l :: ·) (ih hls (by simpa using hlast))

/-! ## Ends of lines -/

theorem isBlank_getLast? (h : trimEnd l = l) : ∀ c ∈ l.getLast?, isBlank c = false := by
  intro c hc
  rw [← h, trimEnd, dropEnd, getLast?_reverse] at hc
  exact starts_trimStart l.reverse c hc

theorem trimEnd_append (h : trimEnd l = l) (hne : l ≠ []) (s : List Char) :
    trimEnd (s ++ l) = s ++ l := by
  obtain ⟨r, d, rfl⟩ := eq_nil_or_concat' l |>.resolve_left hne
  rw [← append_assoc, trimEnd, dropEnd_append_cons (isBlank_getLast? h d (by simp))]
  rfl

/-- Nothing is trimmed of joined lines if nothing is trimmed of the first and the last one. -/
theorem trim_joinWith {sep : List Char} (hfirst : ∃ l ∈ ls.head?, l ≠ [] ∧ Starts l)
    (hlast : ∃ l ∈ ls.getLast?, l ≠ [] ∧ trimEnd l = l) :
    trim (joinWith sep ls) = joinWith sep ls ∧ joinWith sep ls ≠ [] := by
  have hend : trimEnd (joinWith sep ls) = joinWith sep ls := by
    obtain ⟨l, hl, hne, hl'⟩ := hlast
    obtain ⟨ls, rfl⟩ := getLast?_eq_some_iff.1 hl
    rw [← nil_append l, joinWith_concat_append, trimEnd_append hl' hne]
  obtain ⟨l, hl, hne, hstarts⟩ := hfirst
  obtain ⟨ls, rfl⟩ := head?_eq_some_iff.1 hl
  have hjoin := @joinWith_append_cons sep l [] ls
  rw [append_nil] at hjoin
  have hstart : Starts (joinWith sep (l :: ls)) := by
    rwa [hjoin, Starts, head?_append_of_ne_nil _ hne]
  exact ⟨by rw [trim, trimStart_of_starts hstart, hend], by simp [hjoin, hne]⟩

end Text

namespace Comment

open Text

/-! ## Writing a comment -/

/-- A text behind some spaces. -/
def indented (n : Nat) (s : List Char) : List Char :=
  replicate n ' ' ++ s

/-- A line for each row: a number of spaces, a mark, and behind a space what the row says. -/
def marked (mark : List Char) (rows : List (Nat × List Char)) : List (List Char) :=
  rows.map fun r => indented r.1 (mark ++ ' ' :: r.2)

/-- A block with a column of asterisks. -/
def blockText (before : Nat) (rows : List (Nat × List Char)) (after : Nat) : List Char :=
  joinWith ['\n'] (indented before ['/', '*', '*'] ::
    (marked [' ', '*'] rows ++ [indented after [' ', '*', '/']]))

/-- Lines with two slashes. -/
def slashText (rows : List (Nat × List Char)) : List Char :=
  joinWith ['\n'] (marked ['/', '/'] rows)

/-- The lines of a text without white space around it or at the end of a line. There may be blank
    lines in it, which are empty then, and lines may be indented. -/
structure IsProse (ls : List (List Char)) : Prop where
  whole : ∀ l ∈ ls, '\n' ∉ l ∧ trimEnd l = l
  first : ∃ l ∈ ls.head?, l ≠ [] ∧ Starts l
  last : ∃ l ∈ ls.getLast?, l ≠ []

variable {l s mark : List Char} {ls : List (List Char)} {n : Nat} {rows : List (Nat × List Char)}

/-! ## Reading a line -/

theorem trimStart_indented (n : Nat) (s : List Char) : trimStart (indented n s) = trimStart s :=
  dropWhile_append_of_pos fun c hc => by rw [eq_of_mem_replicate hc]; rfl

theorem trim_indented (n : Nat) (s : List Char) : trim (indented n s) = trim s := by
  rw [trim, trimStart_indented, trim]

theorem isLine_indented (hmark : '\n' ∉ mark) (hl : '\n' ∉ l ∧ trimEnd l = l) (n : Nat) :
    IsLine (indented n (mark ++ ' ' :: l)) := by
  refine ⟨by simp [indented, hmark, hl.1], fun hlast => ?_⟩
  by_cases hne : l = []
  · simp [indented, hne] at hlast
  · -- A carriage return at the end would have been trimmed.
    have hl' : '\r' ∈ l.getLast? := by
      rwa [indented, append_cons, ← append_assoc, getLast?_append_of_ne_nil _ hne] at hlast
    cases isBlank_getLast? hl.2 _ hl'

/-- The space behind a mark is taken off, and no other. -/
theorem dropLead_trimEnd (hl : trimEnd l = l) :
    trimEnd (dropLead [' '] (trimEnd (' ' :: l))) = l := by
  by_cases hne : l = []
  · subst hne
    rfl
  · have hkeep : trimEnd (' ' :: l) = ' ' :: l := trimEnd_append hl hne [' ']
    rw [hkeep]
    exact hl

theorem blockLine_row (hl : trimEnd l = l) (n : Nat) :
    blockLine (indented n (' ' :: '*' :: ' ' :: l)) = l := by
  have htrim : trim (indented n (' ' :: '*' :: ' ' :: l)) = '*' :: trimEnd (' ' :: l) := by
    rw [trim_indented]
    exact dropEnd_cons rfl _
  rw [blockLine, htrim]
  exact dropLead_trimEnd hl

theorem markedLine_row (hl : trimEnd l = l) (n : Nat) :
    markedLine (indented n ('/' :: '/' :: ' ' :: l)) = l := by
  have htrim : trim (indented n ('/' :: '/' :: ' ' :: l)) = '/' :: '/' :: trimEnd (' ' :: l) := by
    rw [trim_indented]
    exact dropEnd_append_cons rfl ['/'] _
  rw [markedLine, htrim]
  exact dropLead_trimEnd hl

theorem isLine_of_mem_marked (hmark : '\n' ∉ mark)
    (h : ∀ l ∈ rows.map Prod.snd, '\n' ∉ l ∧ trimEnd l = l) {x : List Char}
    (hx : x ∈ marked mark rows) : IsLine x := by
  obtain ⟨r, hr, rfl⟩ := mem_map.1 hx
  exact isLine_indented hmark (h _ (mem_map_of_mem hr)) r.1

theorem map_marked {read : List Char → List Char}
    (h : ∀ l ∈ rows.map Prod.snd, '\n' ∉ l ∧ trimEnd l = l)
    (hread : ∀ l n, trimEnd l = l → read (indented n (mark ++ ' ' :: l)) = l) :
    (marked mark rows).map read = rows.map Prod.snd := by
  rw [marked, map_map]
  exact map_congr_left fun r hr => hread r.2 r.1 (h _ (mem_map_of_mem hr)).2

/-! ## Reading a comment -/

theorem cleanChars_indented (n : Nat) (s : List Char) :
    cleanChars (indented n s) = cleanChars s := by
  rw [cleanChars, trim_indented, cleanChars]

theorem IsProse.trim_eq (h : IsProse ls) :
    trim (joinWith ['\n'] ls) = joinWith ['\n'] ls ∧ joinWith ['\n'] ls ≠ [] := by
  obtain ⟨l, hl, hne⟩ := h.last
  exact trim_joinWith h.first ⟨l, hl, hne, (h.whole l (mem_of_getLast? hl)).2⟩

theorem IsProse.rejoin_framed (h : IsProse ls) :
    rejoin ([[]] ++ (ls ++ [[]])) = joinWith ['\n'] ls := by
  obtain ⟨htrim, hne⟩ := h.trim_eq
  have hls : ls ≠ [] := fun hnil => hne (by rw [hnil]; rfl)
  have hjoin : joinWith ['\n'] ([[]] ++ (ls ++ [[]])) =
      ['\n'] ++ (trim (joinWith ['\n'] ls) ++ ['\n']) := by
    rw [joinWith_append (by simp) (by simp), joinWith_append hls (by simp), htrim]
    rfl
  rw [rejoin, hjoin, trim_append_trim (by rwa [htrim]), htrim]
  exact append_nil _

theorem cleanChars_framed (inner : List Char) :
    cleanChars ('/' :: '*' :: '*' :: inner ++ ['*', '/']) =
      rejoin ((lines inner).map blockLine) := by
  have htrim : trim ('/' :: '*' :: '*' :: inner ++ ['*', '/']) =
      '/' :: '*' :: '*' :: inner ++ ['*', '/'] :=
    @trimEnd_append ['*', '/'] rfl (by simp) ('/' :: '*' :: '*' :: inner)
  have hstrip : strip? ['/', '*'] ('/' :: '*' :: '*' :: inner ++ ['*', '/']) =
      some ('*' :: inner ++ ['*', '/']) := rfl
  rw [cleanChars, htrim, hstrip]
  dsimp only
  rw [dropTail, stripEnd?_append]
  rfl

/-- Within the frame there is a line that is empty, then the rows, and a line that is blank. -/
theorem cleanChars_blockText (h : IsProse (rows.map Prod.snd)) (before after : Nat) :
    cleanChars (blockText before rows after) = joinWith ['\n'] (rows.map Prod.snd) := by
  let framed := [] :: marked [' ', '*'] rows ++ [indented after [' ']]
  have hblock : blockText before rows after =
      indented before ('/' :: '*' :: '*' :: joinWith ['\n'] framed ++ ['*', '/']) := by
    have hfirst := @joinWith_append_cons ['\n'] (indented before ['/', '*', '*']) []
    simp only [append_nil] at hfirst
    rw [blockText, hfirst, cons_append, cons_append, cons_append, ← joinWith_concat_append]
    simp [indented]
  have hlines : lines (joinWith ['\n'] framed) = framed := by
    refine lines_joinWith (fun x hx => ?_) (by rw [getLast?_concat]; simp [indented])
    rcases mem_append.1 hx with hx | hx
    · rcases mem_cons.1 hx with rfl | hx
      · exact ⟨by simp, by simp⟩
      · exact isLine_of_mem_marked (by decide) h.whole hx
    · rw [mem_singleton.1 hx]
      exact @isLine_indented [] [] (by simp) ⟨by simp, rfl⟩ after
  -- The space before the last asterisk is left of the line that closes the block.
  have hlast : blockLine (indented after [' ']) = [] := by
    rw [blockLine, trim_indented]
    rfl
  rw [hblock, cleanChars_indented, cleanChars_framed, hlines, map_append, map_cons,
    map_marked h.whole fun l n hl => blockLine_row hl n, map_singleton, hlast]
  exact h.rejoin_framed

/-- The last line ends as the text does. -/
theorem IsProse.ends_marked (h : IsProse (rows.map Prod.snd)) (mark : List Char) :
    ∃ x ∈ (marked mark rows).getLast?, x ≠ [] ∧ trimEnd x = x := by
  obtain ⟨l, hl, hne⟩ := h.last
  rw [getLast?_map] at hl
  obtain ⟨r, hr, rfl⟩ := Option.map_eq_some_iff.1 hl
  have hwhole := (h.whole _ (mem_map_of_mem (mem_of_getLast? hr))).2
  have hends := trimEnd_append hwhole hne (indented r.1 (mark ++ [' ']))
  refine ⟨indented r.1 (mark ++ ' ' :: r.2), ?_, by simp [indented], ?_⟩
  · rw [marked, getLast?_map, hr]
    rfl
  · simpa [indented] using hends

theorem cleanChars_slashText (h : IsProse (rows.map Prod.snd)) :
    cleanChars (slashText rows) = joinWith ['\n'] (rows.map Prod.snd) := by
  obtain ⟨l, hl, -⟩ := h.first
  rw [head?_map] at hl
  obtain ⟨⟨n, l⟩, hr, rfl⟩ := Option.map_eq_some_iff.1 hl
  obtain ⟨rows, rfl⟩ := head?_eq_some_iff.1 hr
  -- The first line may as well not be indented.
  have hindent : slashText ((n, l) :: rows) = indented n (slashText ((0, l) :: rows)) :=
    joinWith_append_cons (replicate n ' ') _ _
  have hprose : IsProse (((0, l) :: rows).map Prod.snd) := h
  have hlast := hprose.ends_marked ['/', '/']
  have htrim : trim (slashText ((0, l) :: rows)) = slashText ((0, l) :: rows) := by
    refine (trim_joinWith ⟨_, rfl, cons_ne_nil _ _, ?_⟩ hlast).1
    rintro c ⟨⟩
    rfl
  have hlines : lines (slashText ((0, l) :: rows)) = marked ['/', '/'] ((0, l) :: rows) := by
    refine lines_joinWith (fun x => isLine_of_mem_marked (by decide) hprose.whole) fun hnil => ?_
    obtain ⟨x, hx, hne, -⟩ := hlast
    exact hne (Option.some.inj (hx.symm.trans hnil))
  have hstrip : strip? ['/', '*'] (slashText ((0, l) :: rows)) = none :=
    congrArg (strip? ['/', '*']) (joinWith_append_cons ['/', '/'] (' ' :: l) _)
  rw [hindent, cleanChars_indented, cleanChars, htrim, hstrip, hlines,
    map_marked hprose.whole fun l n hl => markedLine_row hl n]
  exact hprose.trim_eq.1

/-- What is written as a comment is read back: in a block with a column of asterisks or behind two
    slashes, with any indentation of each line. -/
theorem formatted_text_is_read_back (rows : List (Nat × List Char))
    (h : IsProse (rows.map Prod.snd)) (before after : Nat) :
    clean (String.ofList (blockText before rows after)) =
      String.ofList (joinWith ['\n'] (rows.map Prod.snd)) ∧
    clean (String.ofList (slashText rows)) =
      String.ofList (joinWith ['\n'] (rows.map Prod.snd)) := by
  simp only [clean, String.toList_ofList]
  rw [cleanChars_blockText h, cleanChars_slashText h]
  exact ⟨rfl, rfl⟩

/-- Lines that start with an asterisk, with spaces and with slashes, and one that is blank. -/
theorem formatted_text_is_read_back_marks :
    let rows := [(2, "* a".toList), (3, []), (0, "  // b".toList), (2, "/** c".toList)]
    String.ofList (blockText 2 rows 2) =
      "  /**\n   * * a\n    * \n *   // b\n   * /** c\n   */" ∧
    clean (String.ofList (blockText 2 rows 2)) = "* a\n\n  // b\n/** c" ∧
    clean (String.ofList (slashText rows)) = "* a\n\n  // b\n/** c" := by
  intro rows
  have hprose : IsProse (rows.map Prod.snd) :=
    ⟨forall_mem_of_all (by decide +kernel), ⟨_, rfl, by decide +kernel, by rintro c ⟨⟩; rfl⟩,
      ⟨_, rfl, by decide +kernel⟩⟩
  obtain ⟨hblock, hslash⟩ := formatted_text_is_read_back rows hprose 2 2
  exact ⟨by decide +kernel, hblock.trans (by decide +kernel), hslash.trans (by decide +kernel)⟩

end Comment

end CodeAtlas
