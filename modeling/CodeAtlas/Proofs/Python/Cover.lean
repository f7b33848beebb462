import CodeAtlas.Proofs.Python.LogicalLine

/-!
# What of a text is in its logical lines

Every physical line is in one logical line, and only comments are dropped of it: what is kept of
a line is the line up to a number sign, which does not stand in a string in triple quotes, or all
of it (`Cuts`).

* `Tiles.numbers_eq`: the numbers of the physical lines of logical lines;
* `scanFrom_step`: the scan takes some characters, or stops at a comment;
* `cuts_scanFrom`: what is kept of a line, by induction on what is left of it;
* `lines_covered`: both for all lines.
-/

namespace CodeAtlas.Python

open List

variable {ls : List LogicalLine}

/-! ## Physical lines -/

/-- The numbers of the physical lines of a logical line. -/
def LogicalLine.numbers (l : LogicalLine) : List Nat :=
  range' l.first (l.last + 1 - l.first)

theorem Tiles.numbers_eq {n m : Nat} (h : Tiles n m ls) :
    n ≤ m ∧ ls.flatMap (·.numbers) = range' n (m - n) := by
  induction h with
  | nil => simp
  | @cons m l ls hle h ih =>
    have hsum : m - l.first = (l.last + 1 - l.first) + (m - (l.last + 1)) := by omega
    have hnext : l.first + 1 * (l.last + 1 - l.first) = l.last + 1 := by omega
    refine ⟨by omega, ?_⟩
    rw [flatMap_cons, ih.2, hsum, ← range'_append, hnext]
    rfl

theorem Tiles.first_le {n m : Nat} (h : Tiles n m ls) : ∀ l ∈ ls, l.first ≤ l.last := by
  induction h with
  | nil => simp
  | cons hle h ih => exact forall_mem_cons.2 ⟨hle, ih⟩

/-! ## What is kept of a line -/

/-- The scan stops at a number sign of code. Otherwise it takes some characters, whatever follows
    of the line. -/
theorem scanFrom_step (mode : Mode) (depth : Nat) (c : Char) (s : List Char) :
    mode = .code ∧ c = '#' ∨ ∃ taken rest mode' depth', taken ≠ [] ∧ c :: s = taken ++ rest ∧
      ∀ t, t <+: rest →
        scanFrom mode depth (taken ++ t) = kept taken (scanFrom mode' depth' t) := by
  cases mode with
  | triple q =>
    right
    by_cases hc : c = '\\'
    · subst hc
      cases s with
      | nil => exact ⟨['\\'], [], .triple q, depth, by simp, rfl, by simp [scanFrom, kept]⟩
      | cons d s =>
        exact ⟨['\\', d], s, .triple q, depth, by simp, rfl, fun t _ => scanFrom_triple_escaped d t⟩
    · by_cases hquotes : [q, q, q] <+: c :: s
      · obtain ⟨s, hs⟩ := hquotes
        have hq : q ≠ '\\' := by simp_all
        exact ⟨[q, q, q], s, .code, depth, by simp, hs.symm, fun t _ => scanFrom_triple_close hq t⟩
      · refine ⟨[c], s, .triple q, depth, by simp, rfl, fun t ht => ?_⟩
        refine scanFrom_triple_plain hc fun h => ?_
        exact hquotes (h.trans ((prefix_cons_inj c).2 ht))
  | string q =>
    right
    by_cases hc : c = '\\'
    · subst hc
      cases s with
      | nil => exact ⟨['\\'], [], .string q, depth, by simp, rfl, by simp [scanFrom, kept]⟩
      | cons d s =>
        exact ⟨['\\', d], s, .string q, depth, by simp, rfl, fun t _ => by simp [scanFrom, kept]⟩
    · refine ⟨[c], s, if c == q then .code else .string q, depth, by simp, rfl, fun t _ => ?_⟩
      rw [scanFrom.eq_def]
      simp [hc, kept]
  | code =>
    by_cases hhash : c = '#'
    · exact .inl ⟨rfl, hhash⟩
    · right
      cases hq : isQuote c with
      | false =>
        exact ⟨[c], s, .code, depthAfter c depth, by simp, rfl,
          fun t _ => scanFrom_plain hhash hq t⟩
      | true =>
        by_cases hquotes : [c, c] <+: s
        · obtain ⟨s, rfl⟩ := hquotes
          exact ⟨[c, c, c], s, .triple c, depth, by simp, rfl, fun t _ => scanFrom_quotes hq t⟩
        · exact ⟨[c], s, .string c, depth, by simp, rfl,
            fun t ht => scanFrom_quote hq fun h => hquotes (h.trans ht)⟩

/-- What is kept of a line is the line up to a comment, or all of it. By itself it is read as the
    line is, so what is open behind it is open where the comment starts: no string in triple
    quotes. -/
def Cuts (mode : Mode) (depth : Nat) (line : List Char) (r : List Char × ScanState) : Prop :=
  scanFrom mode depth r.1 = r ∧
    ∃ cut, line = r.1 ++ cut ∧ (cut = [] ∨ cut.head? = some '#' ∧ r.2.triple = none)

theorem cuts_scanFrom (mode : Mode) (depth : Nat) (line : List Char) :
    Cuts mode depth line (scanFrom mode depth line) := by
  induction hn : line.length using Nat.strong_induction_on generalizing mode depth line with
  | _ n ih =>
    cases line with
    | nil => exact ⟨by simp [scanFrom], [], by simp [scanFrom], .inl rfl⟩
    | cons c s =>
      rcases scanFrom_step mode depth c s with
        ⟨rfl, rfl⟩ | ⟨taken, rest, mode', depth', hne, hs, hread⟩
      · rw [scanFrom_comment]
        exact ⟨by simp [scanFrom, ScanState.ofMode], '#' :: s, rfl, .inr ⟨rfl, rfl⟩⟩
      · have hlt : rest.length < n := by
          have hlength := congrArg length hs
          have hpos := length_pos_iff.2 hne
          simp at hlength hn
          omega
        obtain ⟨hself, cut, hrest, hcut⟩ := ih _ hlt mode' depth' rest rfl
        rw [hs, hread rest (prefix_refl _)]
        refine ⟨(hread _ ⟨cut, hrest.symm⟩).trans (congrArg _ hself), cut, ?_, hcut⟩
        conv_lhs => rw [hrest]
        rw [kept, append_assoc]

/-- The physical lines are those of the logical lines, in order. What is kept of a line is all but
    a comment at its end. -/
theorem lines_covered (physical : List (List Char)) :
    ((logicalLines physical).flatMap (·.numbers) = range' 1 physical.length ∧
      ∀ l ∈ logicalLines physical, l.first ≤ l.last) ∧
    ∀ (st : ScanState) (line : List Char), Cuts st.mode st.depth line (scanLine st line) := by
  have htiles := tiles_logicalLines physical
  exact ⟨⟨htiles.numbers_eq.2, htiles.first_le⟩, fun st => cuts_scanFrom st.mode st.depth⟩

end CodeAtlas.Python
