import Mathlib.Data.List.TakeWhile
import CodeAtlas.Proofs.Python.Renumber

/-!
# Inserting comments and blank lines

Where nothing is open behind a line, physical lines are read afresh. A comment or a blank line
that is inserted there is a logical line of its own, without code, and the lines below are read
as before with greater numbers. Since an outline is that of the lines with code, it stays the
same but for these numbers.

* `groupLines_append`: lines behind which nothing is open, and those below them;
* `filter_groupLines_quiet`: lines that are inserted;
* `groupLines_add`: lines with greater numbers;
* `filter_logicalLines_insert`: the lines with code;
* `insertion_is_invisible`: the outline of a module.
-/

namespace CodeAtlas.Python

open Text List Bool Nat
open LogicalLine (isCode)

variable {n : Nat} {l : LogicalLine} {code line : List Char} {st : ScanState}

/-! ## Lines that say nothing -/

/-- The line is blank, or a comment is all that stands on it. -/
def saysNothing (line : List Char) : Bool :=
  (trimStart line).head?.all (· == '#')

theorem scanFrom_blank {c : Char} (hc : isBlank c) (depth : Nat) (s : List Char) :
    scanFrom .code depth (c :: s) = kept [c] (scanFrom .code depth s) := by
  have hne : ∀ d ∈ ['#', '\'', '"', '(', '[', '\x7b', ')', ']', '\x7d'], c ≠ d := by
    have hnone : ['#', '\'', '"', '(', '[', '\x7b', ')', ']', '\x7d'].any isBlank = false := rfl
    rintro d hd rfl
    exact any_eq_false.1 hnone c hd hc
  simp only [forall_mem_cons] at hne
  rw [scanFrom_plain hne.1 (by simp [isQuote, hne])]
  simp [depthAfter, isOpening, isClosing, hne]

/-- Only white space is kept of a line that says nothing. -/
theorem scanFrom_of_saysNothing (h : saysNothing line) (depth : Nat) :
    ∃ code, scanFrom .code depth line = (code, ⟨none, depth⟩) ∧ ∀ c ∈ code, isBlank c := by
  induction line with
  | nil => exact ⟨[], rfl, by simp⟩
  | cons c s ih =>
    rw [saysNothing, trimStart] at h
    cases hc : isBlank c with
    | true =>
      rw [dropWhile_cons_of_pos hc] at h
      obtain ⟨code, hcode, hblank⟩ := ih h
      refine ⟨c :: code, ?_, forall_mem_cons.2 ⟨hc, hblank⟩⟩
      rw [scanFrom_blank hc, hcode]
      rfl
    | false =>
      rw [dropWhile_cons_of_neg (by simp [hc])] at h
      obtain rfl : c = '#' := by simpa using h
      exact ⟨[], scanFrom_comment s, by simp⟩

theorem trimStart_of_blank (h : ∀ c ∈ code, isBlank c) : trimStart code = [] :=
  dropWhile_eq_nil_iff.2 h

theorem trimEnd_of_blank (h : ∀ c ∈ code, isBlank c) : trimEnd code = [] := by
  rw [trimEnd, dropEnd, dropWhile_eq_nil_iff.2 (by simpa using h)]
  rfl

/-- Nothing is read of white space. -/
theorem add_of_blank (h : ∀ c ∈ code, isBlank c) (o : OpenLine) (st : ScanState) :
    continues code st = false ∧ o.add code false = o := by
  rw [continues, trimEnd_of_blank h, OpenLine.add, trim, trimStart_of_blank h]
  exact ⟨and_false _, rfl⟩

/-- A line that says nothing is a logical line without code, where nothing is open. -/
theorem groupLines_of_saysNothing (h : saysNothing line) (n : Nat) (rest : List (List Char)) :
    ∃ l, isCode l = false ∧
      groupLines {} n none (line :: rest) = l :: groupLines {} (n + 1) none rest := by
  obtain ⟨code, hscan, hblank⟩ := scanFrom_of_saysNothing h 0
  obtain ⟨hgoesOn, hadd⟩ := add_of_blank hblank ⟨n, line, []⟩ {}
  refine ⟨(OpenLine.mk n line []).close n, ?_, ?_⟩
  · have hkind : ∀ b : Bool, (LogicalLine.mk n n (indentOf line)
        (if b then .comment else .blank) []).isCode = false := by
      rintro (_ | _) <;> rfl
    exact hkind _
  · rw [groupLines, show scanLine {} line = _ from hscan]
    simp [hgoesOn, hadd]

theorem filter_groupLines_quiet {inserted : List (List Char)}
    (h : ∀ line ∈ inserted, saysNothing line) (n : Nat) (rest : List (List Char)) :
    (groupLines {} n none (inserted ++ rest)).filter isCode =
      (groupLines {} (n + inserted.length) none rest).filter isCode := by
  induction inserted generalizing n with
  | nil => rfl
  | cons line inserted ih =>
    obtain ⟨hline, hinserted⟩ := forall_mem_cons.1 h
    obtain ⟨l, hl, hgroup⟩ := groupLines_of_saysNothing hline n (inserted ++ rest)
    rw [cons_append, hgroup, filter_cons_of_neg (by simp [hl]), ih hinserted,
      length_cons, Nat.add_assoc, Nat.add_comm 1]

/-! ## Lines above and below -/

/-- Nothing is open behind the last line: no bracket, no literal in triple quotes, and it does
    not go on behind a backslash. -/
def EndsClosed (st : ScanState) (lines : List (List Char)) : Prop :=
  ∀ r ∈ (results st lines).getLast?, isClosed r = true

theorem of_isClosed (h : isClosed (code, st)) : st = {} ∧ continues code st = false := by
  simp only [isClosed, and_eq_true] at h
  obtain ⟨⟨htriple, hdepth⟩, hgoesOn⟩ := h
  cases st
  simp_all

/-- Behind lines at whose end nothing is open, the others are read afresh. -/
theorem groupLines_append {current : Option OpenLine} {before : List (List Char)}
    (hbefore : before ≠ []) (h : EndsClosed st before) (rest : List (List Char)) :
    groupLines st n current (before ++ rest) =
      groupLines st n current before ++ groupLines {} (n + before.length) none rest := by
  induction before generalizing st n current with
  | nil => exact absurd rfl hbefore
  | cons line before ih =>
    rw [cons_append, groupLines, groupLines, length_cons, Nat.add_comm before.length,
      ← Nat.add_assoc]
    rw [EndsClosed, results] at h
    generalize scanLine st line = r at h ⊢
    obtain ⟨code, st'⟩ := r
    cases before with
    | nil =>
      obtain ⟨rfl, hgoesOn⟩ := of_isClosed (h _ rfl)
      simp [hgoesOn, groupLines]
    | cons next before =>
      have hrest : EndsClosed st' (next :: before) := fun r hr => h r (by
        rw [getLast?_cons, hr]
        rfl)
      rw [cons_append]
      simp only [isEmpty_cons]
      split
      · exact ih (cons_ne_nil _ _) hrest
      · rw [← cons_append, ih (cons_ne_nil _ _) hrest]
        rfl

/-- The same open line, starting further below. -/
def OpenLine.below (k : Nat) (l : OpenLine) : OpenLine :=
  { l with first := l.first + k }

theorem OpenLine.below_add (k : Nat) (l : OpenLine) (code : List Char) (goesOn : Bool) :
    (l.below k).add code goesOn = (l.add code goesOn).below k := by
  rw [add, add]
  split <;> split <;> rfl

/-- Lines further below are read in the same way. -/
theorem groupLines_add (k : Nat) (st : ScanState) (n : Nat) (current : Option OpenLine)
    (lines : List (List Char)) :
    groupLines st (n + k) (current.map (.below k)) lines =
      (groupLines st n current lines).map (.renumber (· + k)) := by
  induction lines generalizing st n current with
  | nil => rfl
  | cons line rest ih =>
    rw [groupLines, groupLines]
    generalize scanLine st line = r
    obtain ⟨code, st'⟩ := r
    dsimp only
    have hcurrent : ((current.map (.below k)).getD ⟨n + k, line, []⟩) =
        (current.getD ⟨n, line, []⟩).below k := by
      cases current <;> rfl
    rw [hcurrent, OpenLine.below_add, Nat.add_right_comm]
    split
    · exact ih st' (n + 1) (some _)
    · exact congrArg₂ _ rfl (ih st' (n + 1) none)

/-! ## Modules -/

/-- The number of a line when `k` lines are inserted behind the first `n`. -/
def pushDown (n k line : Nat) : Nat :=
  if line ≤ n then line else line + k

theorem pushDown_of_le {line : Nat} (h : line ≤ n) (k : Nat) : pushDown n k line = line :=
  if_pos h

theorem pushDown_of_lt {line : Nat} (h : n < line) (k : Nat) : pushDown n k line = line + k :=
  if_neg (not_le.2 h)

theorem pushDown_strictMono (n k : Nat) : StrictMono (pushDown n k) := by
  intro a b hab
  rw [pushDown, pushDown]
  split <;> split <;> omega

section

variable {before inserted after : List (List Char)} (path : String) {first last : Nat}

/-- The logical lines above a place where nothing is open, and those below it. -/
theorem logicalLines_append (h : EndsClosed {} before) (rest : List (List Char)) :
    logicalLines (before ++ rest) =
      logicalLines before ++ groupLines {} (before.length + 1) none rest := by
  cases before with
  | nil => rfl
  | cons line before =>
    rw [logicalLines, groupLines_append (cons_ne_nil _ _) h, Nat.add_comm 1]
    rfl

theorem le_of_mem_above (hl : l ∈ logicalLines before) :
    l.first ≤ before.length ∧ l.last ≤ before.length := by
  have htiles := tiles_logicalLines before
  have hlast : l.last ≤ before.length := Nat.lt_succ_iff.1 (htiles.last_lt l hl)
  exact ⟨le_trans (htiles.inSequence.2 l hl) hlast, hlast⟩

theorem lt_of_mem_below (hl : l ∈ groupLines {} (n + 1) none after) : n < l.first ∧ n < l.last := by
  have htiles : Tiles (n + 1) (n + 1 + after.length) (groupLines {} (n + 1) none after) :=
    @tiles_groupLines {} (n + 1) none after (by simp)
  have hfirst : n < l.first := htiles.first_ge l hl
  exact ⟨hfirst, lt_of_lt_of_le hfirst (htiles.inSequence.2 l hl)⟩

theorem renumber_above (hl : l ∈ logicalLines before) (k : Nat) :
    l.renumber (pushDown before.length k) = l := by
  obtain ⟨hfirst, hlast⟩ := le_of_mem_above hl
  rw [LogicalLine.renumber, pushDown_of_le hfirst, pushDown_of_le hlast]

theorem renumber_below (hl : l ∈ groupLines {} (n + 1) none after) (k : Nat) :
    l.renumber (pushDown n k) = l.renumber (· + k) := by
  obtain ⟨hfirst, hlast⟩ := lt_of_mem_below hl
  rw [LogicalLine.renumber, pushDown_of_lt hfirst, pushDown_of_lt hlast]
  rfl

/-- The lines with code are the same, those below with greater numbers. -/
theorem filter_logicalLines_insert (h : EndsClosed {} before)
    (hinserted : ∀ line ∈ inserted, saysNothing line) :
    (logicalLines (before ++ (inserted ++ after))).filter isCode =
      ((logicalLines (before ++ after)).filter isCode).map
        (.renumber (pushDown before.length inserted.length)) := by
  have habove : ((logicalLines before).filter isCode).map
      (LogicalLine.renumber (pushDown before.length inserted.length)) =
        (logicalLines before).filter isCode := by
    refine (map_congr_left fun l hl => ?_).trans (map_id _)
    exact renumber_above (mem_filter.1 hl).1 _
  have hbelow : ((groupLines {} (before.length + 1) none after).filter isCode).map
      (LogicalLine.renumber (pushDown before.length inserted.length)) =
        (groupLines {} (before.length + 1 + inserted.length) none after).filter isCode := by
    have hadd := groupLines_add inserted.length {} (before.length + 1) none after
    rw [Option.map_none] at hadd
    rw [hadd, filter_map]
    exact map_congr_left fun l hl => renumber_below (mem_filter.1 hl).1 _
  rw [logicalLines_append h, logicalLines_append h, filter_append, filter_append,
    map_append, habove, hbelow, filter_groupLines_quiet hinserted]

theorem excerpt_above (rest : List (List Char)) (h : last ≤ before.length) :
    (Script.mk path (before ++ rest)).excerpt first last =
      (Script.mk path before).excerpt first last := by
  simp only [Script.excerpt, take_append_of_le_length h]

theorem excerpt_below {above : List (List Char)} (hfirst : above.length < first)
    (hlast : above.length < last) :
    (Script.mk path (above ++ after)).excerpt first last =
      (Script.mk path after).excerpt (first - above.length) (last - above.length) := by
  have hcut : first - 1 - above.length = first - above.length - 1 := by omega
  simp only [Script.excerpt]
  rw [take_append, take_of_length_le (le_of_lt hlast), drop_append,
    drop_of_length_le (le_sub_one_of_lt hfirst), nil_append, hcut]

/-- The text of a logical line stays as it is. -/
theorem raw_insert (h : EndsClosed {} before) (hl : l ∈ logicalLines (before ++ after)) :
    (Script.mk path (before ++ (inserted ++ after))).raw
        (l.renumber (pushDown before.length inserted.length)) =
      (Script.mk path (before ++ after)).raw l := by
  rw [logicalLines_append h] at hl
  rcases mem_append.1 hl with habove | hbelow
  · rw [renumber_above habove, Script.raw, Script.raw,
      excerpt_above path _ (le_of_mem_above habove).2,
      excerpt_above path _ (le_of_mem_above habove).2]
  · obtain ⟨hfirst, hlast⟩ := lt_of_mem_below hbelow
    have hlength : (before ++ inserted).length = before.length + inserted.length :=
      length_append
    have hfirst' : (before ++ inserted).length < l.first + inserted.length := by omega
    have hlast' : (before ++ inserted).length < l.last + inserted.length := by omega
    rw [renumber_below hbelow, Script.raw, Script.raw, excerpt_below path hfirst hlast,
      ← append_assoc]
    refine (excerpt_below path hfirst' hlast').trans ?_
    rw [hlength, Nat.add_sub_add_right, Nat.add_sub_add_right]

end

/-- If comments and blank lines are inserted where nothing is open, the outline of a module is
    the same, but for the numbers of the lines below and the text of symbols. -/
theorem insertion_is_invisible (path : String) {text text' : List Char}
    {before inserted after : List (List Char)} (htext : lines text = before ++ after)
    (htext' : lines text' = before ++ (inserted ++ after)) (hbefore : EndsClosed {} before)
    (hinserted : ∀ line ∈ inserted, saysNothing line = true) :
    (outline path text').sketch id =
      (outline path text).sketch (pushDown before.length inserted.length) := by
  rw [outline_eq_code, outline_eq_code, htext, htext', filter_logicalLines_insert hbefore hinserted]
  refine sketch_outlineOf (pushDown_strictMono ..) (pushDown_of_le (zero_le _) _) ?_ _
    fun l hl => ?_
  · rfl
  · exact raw_insert _ hbefore (mem_filter.1 hl).1

/-- The head of a class. -/
def boxHead : List (List Char) :=
  ["@tag".toList, "class Box:".toList]

/-- What follows it: its documentation, a method, and a value. -/
def boxRest : List (List Char) :=
  ["    \"\"\"Holds.\"\"\"".toList, "    def put(self): pass".toList, "LIMIT = 3".toList]

/-- Comments between the head of a class and its documentation. -/
def boxNotes : List (List Char) :=
  ["# A box (".toList, [], "\t # of \"anything".toList]

/-- The class without the comments, and with them. -/
def boxTexts : List Char × List Char :=
  ((boxHead ++ boxRest).flatMap (· ++ ['\n']),
    (boxHead ++ (boxNotes ++ boxRest)).flatMap (· ++ ['\n']))

theorem insertion_is_invisible_box :
    EndsClosed {} boxHead ∧ (∀ line ∈ boxNotes, saysNothing line = true) ∧
      (outline "box.py" boxTexts.2).types.map (fun t => (t.doc, t.span)) =
        [("Holds.", ⟨1, 7, 2, 2⟩)] ∧
      (outline "box.py" boxTexts.2).sketch id =
        (outline "box.py" boxTexts.1).sketch (pushDown boxHead.length boxNotes.length) := by
  have hclosed : EndsClosed {} boxHead := by
    have hlast : (results {} boxHead).getLast? = some ("class Box:".toList, {}) := by
      decide +kernel
    rw [EndsClosed, hlast]
    rintro r ⟨⟩
    decide +kernel
  have hnotes : ∀ line ∈ boxNotes, saysNothing line = true := by decide +kernel
  have hold : lines boxTexts.1 = boxHead ++ boxRest := by decide +kernel
  have hnew : lines boxTexts.2 = boxHead ++ (boxNotes ++ boxRest) := by decide +kernel
  exact ⟨hclosed, hnotes, by decide +kernel,
    insertion_is_invisible "box.py" hold hnew hclosed hnotes⟩

end CodeAtlas.Python
