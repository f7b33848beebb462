import CodeAtlas.Proofs.Python.ParameterList

/-!
# Splitting at commas

Every text is cut at the commas outside brackets and strings, also one whose brackets do not match
or whose last string stays open. Nothing is lost but white space around the pieces, and there is
nothing left to cut: a reader that comes to such a comma has nothing open, so it reads each piece
as it would read that piece alone.

* `exists_separable`: the pieces of a text;
* `splitCommas_trim`: a piece without the white space around it is one piece;
* `commas_split_losslessly`: both, for all texts.
-/

namespace CodeAtlas.Python

open Text List

/-- By induction on the text: what stands behind the first cut is split as if it stood alone. -/
theorem exists_separable (s : List Char) : ∃ pieces last, joinWith [','] (pieces ++ [last]) = s ∧
    Separable (pieces ++ [last]) ∧ splitCommasFrom 0 none [] s = pieces ++ [last] := by
  induction hn : s.length using Nat.strongRecOn generalizing s with
  | ind n ih =>
    rcases splitCommasFrom_cases s with ⟨hopen, hsplit⟩ | ⟨s₁, s₂, rfl, hnested, hsplit⟩
    · exact ⟨[], s, by simp [joinWith], separable_singleton_iff.2 hopen, hsplit⟩
    · have hlt : s₂.length < n := by
        rw [← hn, length_append, length_cons]
        omega
      obtain ⟨pieces, last, hjoin, hseparable, hpieces⟩ := ih _ hlt s₂ rfl
      have hne : pieces ++ [last] ≠ [] := concat_ne_nil _ _
      refine ⟨s₁ :: pieces, last, ?_, (separable_cons_iff hne).2 ⟨hnested, hseparable⟩, ?_⟩
      · rw [cons_append, joinWith_cons hne, hjoin]
      · rw [hsplit, hpieces, cons_append]

theorem Separable.exists_nested {ps : List (List Char)} (h : Separable ps) {p : List Char}
    (hp : p ∈ ps) : ∃ t, Nested true (· == ',') (p ++ t) := by
  obtain ⟨pieces, last, rfl⟩ := eq_nil_or_concat' ps |>.resolve_left (ne_nil_of_mem hp)
  rcases mem_append.1 hp with hp | hp
  · exact ⟨[], by simpa using h.inner p (by simpa using hp)⟩
  · obtain rfl := mem_singleton.1 hp
    exact h.last p (by simp)

/-- White space means nothing to the reader, so a piece is passed without it as well. -/
theorem splitCommas_trim {p : List Char} (h : ∃ t, Nested true (· == ',') (p ++ t))
    (hne : trim p ≠ []) : splitCommas (trim p) = [trim p] := by
  obtain ⟨gap, -, hend⟩ := exists_trimEnd (trimStart p)
  have hstart : Idle ',' (p.takeWhile isBlank) := idle_of_blank (all_eq_true.1 (all_takeWhile ..))
  have hp : p = p.takeWhile isBlank ++ (trim p ++ gap) := by
    rw [trim, ← hend, trimStart, takeWhile_append_dropWhile]
  -- The reader is at the same place before and behind the white space at the start.
  obtain ⟨place, hpass⟩ := fits_splitter.exists_nested_iff.1 h
  rw [hp, hstart.pass? fits_splitter, Reader.pass?_append] at hpass
  obtain ⟨place', hpass, -⟩ := Option.bind_eq_some_iff.1 hpass
  obtain ⟨t, ht⟩ := fits_splitter.exists_nested_iff.2 ⟨place', hpass⟩
  have htrim : trim (trim p) = trim p := by
    simpa [trimStart, trimEnd, dropEnd] using trim_append_trim hne [] []
  rw [splitCommas, splitCommasFrom_of_nested ht]
  simp [htrim, hne]

/-- A text is cut at those of its commas where no bracket and no string is open. The pieces are
    trimmed, and a last one that is blank is dropped. What is left of a piece is not cut again. -/
theorem commas_split_losslessly (s : List Char) :
    (∃ pieces last, joinWith [','] (pieces ++ [last]) = s ∧ Separable (pieces ++ [last]) ∧
      splitCommas s = pieces.map trim ++ if trim last = [] then [] else [trim last]) ∧
    ∀ p ∈ splitCommas s, p ≠ [] → splitCommas p = [p] := by
  obtain ⟨pieces, last, hjoin, hseparable, hpieces⟩ := exists_separable s
  have hsplit : splitCommas s =
      pieces.map trim ++ if trim last = [] then [] else [trim last] := by
    rw [splitCommas, hpieces]
    by_cases hlast : trim last = [] <;> simp [hlast]
  refine ⟨⟨pieces, last, hjoin, hseparable, hsplit⟩, fun p hp hne => ?_⟩
  -- Whatever is returned is a piece without the white space around it.
  have hmem : ∃ piece ∈ pieces ++ [last], trim piece = p := by
    rw [← mem_map, map_append]
    rw [hsplit] at hp
    split at hp
    · exact mem_append_left _ (by simpa using hp)
    · exact hp
  obtain ⟨piece, hpiece, rfl⟩ := hmem
  exact splitCommas_trim (hseparable.exists_nested hpiece) hne

/-- A bracket that closes nothing, an empty piece, commas in brackets and in a string, and a
    bracket that stays open. -/
example : splitCommas ") a,, f(b, ',)') ,[c, d ".toList =
    [") a".toList, [], "f(b, ',)')".toList, "[c, d".toList] := by
  decide +kernel

end CodeAtlas.Python
