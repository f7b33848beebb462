import CodeAtlas.Proofs.Python.Scan

/-!
# Where logical lines end

A literal in triple quotes and the number of open brackets are all that is known of the
lines before the one that is read. This is enough as long as no literal in single quotes
goes on behind a line feed: up to the first one that does, logical lines end where the
lexical rules say. Behind it the rest of the literal is taken for code.

* `exists_last_groupLines`: which physical lines end a logical line;
* `tiles_logicalLines`: logical lines follow each other without a gap;
* `logical_lines_end`: where logical lines end.
-/

namespace CodeAtlas.Python

open List

variable {st : ScanState}

/-! ## Groups of lines -/

/-- A physical line ends a logical one if nothing is open behind it, or if it is the last
    one. -/
theorem exists_last_groupLines {n m : Nat} {current : Option OpenLine} {lines : List (List Char)} :
    (∃ l ∈ groupLines st n current lines, l.last = m) ↔
      ∃ i, m = n + i ∧ (((results st lines).map isClosed)[i]? = some true ∨
        i + 1 = lines.length) := by
  induction lines generalizing st n current with
  | nil => simp [groupLines, results]
  | cons line rest ih =>
    have hshift : ∀ i, m = n + (i + 1) ↔ m = n + 1 + i := by omega
    rw [groupLines, results, ← Nat.or_exists_add_one]
    generalize scanLine st line = r
    obtain ⟨code, st'⟩ := r
    have hopen : (st'.triple.isSome || st'.depth > 0 || continues code st') =
        !isClosed (code, st') := by
      cases hc : continues code st' <;> cases ht : st'.triple <;>
        simp [isClosed, hc, ht, Nat.pos_iff_ne_zero]
    simp only [hshift, map_cons, getElem?_cons_succ, length_cons, Nat.add_right_cancel_iff]
    split
    · -- The line is open and not the last one, so none ends with it.
      next h =>
      have hnot : ¬ ((isClosed (code, st') :: (results st' rest).map isClosed)[0]? = some true ∨
          0 = rest.length) := by
        cases rest <;> simp_all
      rw [ih, or_iff_right fun h0 => hnot h0.2]
    · next h =>
      have hends : (isClosed (code, st') :: (results st' rest).map isClosed)[0]? = some true ∨
          0 = rest.length := by
        cases rest <;> simp_all
      simp only [mem_cons, or_and_right, exists_or, exists_eq_left, ih]
      rw [and_iff_left hends, eq_comm]
      exact Iff.rfl

/-- Each line starts where the one before ends, from the physical line `n` on up to the one
    before `m`. -/
inductive Tiles : Nat → Nat → List LogicalLine → Prop
  | nil {n : Nat} : Tiles n n []
  | cons {m : Nat} {l : LogicalLine} {ls : List LogicalLine} :
    l.first ≤ l.last → Tiles (l.last + 1) m ls → Tiles l.first m (l :: ls)

theorem OpenLine.first_add (l : OpenLine) (code : List Char) (goesOn : Bool) :
    (l.add code goesOn).first = l.first := by
  rw [add]
  split <;> split <;> rfl

theorem tiles_groupLines {n : Nat} {current : Option OpenLine} {lines : List (List Char)}
    (hcurrent : ∀ o ∈ current, o.first ≤ n ∧ lines ≠ []) :
    Tiles ((current.map OpenLine.first).getD n) (n + lines.length)
      (groupLines st n current lines) := by
  induction lines generalizing st n current with
  | nil =>
    cases current with
    | none => exact .nil
    | some o => exact absurd rfl (hcurrent o rfl).2
  | cons line rest ih =>
    have hfirst : ∀ code goesOn, ((current.getD ⟨n, line, []⟩).add code goesOn).first =
        (current.map OpenLine.first).getD n := by
      intro code goesOn
      rw [OpenLine.first_add]
      cases current <;> rfl
    have hle : (current.map OpenLine.first).getD n ≤ n := by
      cases current with
      | none => exact Nat.le_refl n
      | some o => exact (hcurrent o rfl).1
    have hlength : n + (line :: rest).length = n + 1 + rest.length := by
      rw [length_cons]
      omega
    rw [groupLines, hlength]
    generalize scanLine st line = r
    obtain ⟨code, st'⟩ := r
    dsimp only
    split
    · -- The line goes on, so that what is open now starts where it started before.
      next hopen =>
      rw [← hfirst code (continues code st')]
      refine @ih st' (n + 1) (some _) fun o ho => ?_
      cases ho
      rw [hfirst]
      refine ⟨Nat.le_succ_of_le hle, ?_⟩
      rintro rfl
      simp at hopen
    · rw [← hfirst code (continues code st')] at hle ⊢
      let l := ((current.getD ⟨n, line, []⟩).add code (continues code st')).close n
      have hrest : Tiles (l.last + 1) (n + 1 + rest.length) (groupLines st' (n + 1) none rest) :=
        @ih st' (n + 1) none (by simp)
      exact Tiles.cons (l := l) hle hrest

/-- The logical lines follow each other from the first physical line to the last. -/
theorem tiles_logicalLines (physical : List (List Char)) :
    Tiles 1 (physical.length + 1) (logicalLines physical) := by
  rw [Nat.add_comm]
  exact @tiles_groupLines {} 1 none physical (by simp)

/-! ## The whole text -/

theorem lineEnds_results {physical : List (List Char)} {ts : List Token}
    (h : Reading physical ts) :
    lineEnds [] ts <+: (results {} physical).map isClosed := by
  cases physical with
  | nil =>
    rw [eq_nil_of_textOf h.text_eq]
    exact nil_prefix
  | cons line rest =>
    have hsplit : Splits (textOf ts) line rest := by
      refine ⟨?_, h.unbroken line mem_cons_self,
        fun l hl => h.unbroken l (mem_cons_of_mem _ hl)⟩
      rw [h.text_eq]
      simp [linesText]
    have hopen : (openAfter [] ts).isSome := Option.isSome_of_eq_some h.balanced
    have hends := lineEnds_resume h.sound hopen h.ended isQuiet_nil hsplit
    rwa [resume] at hends

/-- In a text that follows the lexical rules, up to the first literal in single quotes that
    goes on behind a line feed, a logical line ends with a physical one exactly if there is
    no open bracket, no open literal and no backslash at its end. The logical lines follow
    each other without a gap. -/
theorem logical_lines_end {physical : List (List Char)} {before after : List Token} {n : Nat}
    (h : Reading physical (before ++ after)) (hover : ∀ t ∈ before, t.runsOver = false)
    (hn : n ≤ (textOf before).count '\n') :
    Tiles 1 (physical.length + 1) (logicalLines physical) ∧
      ((∃ l ∈ logicalLines physical, l.last = n) ↔ EndsAt (before ++ after) n) := by
  refine ⟨tiles_logicalLines physical, ?_⟩
  have hopen : (openAfter [] before).isSome := by
    have hall := h.balanced
    rw [openAfter_append] at hall
    obtain ⟨opened, hbefore, -⟩ := Option.bind_eq_some_iff.1 hall
    exact Option.isSome_of_eq_some hbefore
  have hlength : n ≤ (lineEnds [] (before ++ after)).length :=
    Nat.le_trans hn (count_le_length_lineEnds hover hopen)
  -- All lines up to `n` are told, so the scan agrees with the rules on each of them.
  have htold : ∀ i, i + 1 = n → (((results {} physical).map isClosed)[i]? = some true ↔
      EndsBehind [] (before ++ after) i) := by
    rintro i rfl
    have hi : i < (lineEnds [] (before ++ after)).length := hlength
    obtain ⟨more, hmore⟩ := lineEnds_results h
    rw [← getElem?_lineEnds hi, ← hmore, getElem?_append_left hi]
  rw [logicalLines, exists_last_groupLines, endsAt_iff]
  constructor
  · rintro ⟨i, rfl, hclosed | hlast⟩
    · exact ⟨i, Nat.add_comm 1 i, (htold i (Nat.add_comm i 1)).1 hclosed⟩
    · -- The last line ends a logical one by the rules too.
      have hne : physical ≠ [] := by
        rintro rfl
        cases hlast
      rw [← endsAt_iff, Nat.add_comm, hlast]
      exact h.endsAt_length hne
  · rintro ⟨i, rfl, hends⟩
    exact ⟨i, Nat.add_comm i 1, .inl ((htold i rfl).2 hends)⟩

/-! ## Literals and brackets at work -/

/-- Tokens that mean nothing, one for each character. -/
def plainly (s : String) : List Token :=
  s.toList.map .plain

/-- The pieces of a literal that stand for themselves. -/
def inside (s : String) : List Piece :=
  s.toList.map .plain

/-- A call over two lines with a bracket in a comment, and a literal over two lines with a
    quote and a bracket. -/
def steadyLines : List (List Char) :=
  ["f(1, # (".toList, "  2) + \\".toList, "3".toList, "s = \"\"\"\"(".toList, "#\"\"\"".toList]

/-- How these lines are read. -/
def steadyTokens : List Token :=
  plainly "f" ++ [.opening .round] ++ plainly "1, " ++ [.comment " (".toList, .newline] ++
    plainly "  2" ++ [.closing .round] ++ plainly " + " ++ [.joint] ++ plainly "3" ++ [.newline] ++
    plainly "s = " ++ [.literal '"' true (inside "\"(\n#"), .newline]

/-- A literal in single quotes over two lines, with a bracket in the second. -/
def overrunLines : List (List Char) :=
  ["x = \"a \\".toList, "(b\"".toList, "def run():".toList, "    pass".toList]

/-- How these lines are read. -/
def overrunTokens : List Token :=
  plainly "x = " ++
    [.literal '"' false (inside "a " ++ [.escaped '\n'] ++ inside "(b"), .newline] ++
    plainly "def run" ++ [.opening .round, .closing .round] ++ plainly ":" ++ [.newline] ++
    plainly "    pass" ++ [.newline]

/-- Logical lines end with the third line and not with the fourth, whatever follows. -/
theorem logical_lines_end_steady :
    Reading (steadyLines ++ overrunLines) (steadyTokens ++ overrunTokens) ∧
      (∀ t ∈ steadyTokens, t.runsOver = false) ∧ 4 ≤ (textOf steadyTokens).count '\n' ∧
      Tiles 1 ((steadyLines ++ overrunLines).length + 1)
        (logicalLines (steadyLines ++ overrunLines)) ∧
      (∃ l ∈ logicalLines (steadyLines ++ overrunLines), l.last = 3) ∧
      ¬ EndsAt (steadyTokens ++ overrunTokens) 4 := by
  have hreading : Reading (steadyLines ++ overrunLines) (steadyTokens ++ overrunTokens) := by
    constructor <;> decide +kernel
  have hover : ∀ t ∈ steadyTokens, t.runsOver = false := by decide +kernel
  have hlines : (textOf steadyTokens).count '\n' = 5 := by decide +kernel
  have hthree : EndsAt (steadyTokens ++ overrunTokens) 3 :=
    ⟨steadyTokens.take 16, steadyTokens.drop 17 ++ overrunTokens, by decide +kernel,
      by decide +kernel, by decide +kernel⟩
  have hnot : ¬ ∃ l ∈ logicalLines (steadyLines ++ overrunLines), l.last = 4 := by decide +kernel
  have hfour : 4 ≤ (textOf steadyTokens).count '\n' := by rw [hlines]; decide
  exact ⟨hreading, hover, hfour, (logical_lines_end hreading hover hfour).1,
    (logical_lines_end hreading hover (Nat.le_of_succ_le hfour)).2.2 hthree,
    fun h => hnot ((logical_lines_end hreading hover hfour).2.2 h)⟩

/-- The bracket within the literal is taken for one of code, so that no logical line ends
    before the text does. -/
theorem overrun_literal_swallows :
    Reading overrunLines overrunTokens ∧ EndsAt overrunTokens 2 ∧
      ¬ ∃ l ∈ logicalLines overrunLines, l.last = 2 := by
  have hends : EndsAt overrunTokens 2 :=
    ⟨overrunTokens.take 5, overrunTokens.drop 6, by decide +kernel, by decide +kernel,
      by decide +kernel⟩
  exact ⟨by constructor <;> decide +kernel, hends, by decide +kernel⟩

end CodeAtlas.Python
