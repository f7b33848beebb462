import CodeAtlas.Proofs.Markdown.Block
import CodeAtlas.Proofs.Placement
import CodeAtlas.Proofs.TextSize

/-!
# Where the sections of documents stand

There are no more lines than characters, and one, and a block is in its text where its line
says. So no block is behind the last line of a document. The symbols of a document have no names
of their own.

* `Block.In.within`: one block;
* `standsIn_preambleSpan`: the first paragraph of a document;
* `exists_of_mem_sectionsWith`: what a section is made of;
* `placed_outline`: the outline of a document.
-/

namespace CodeAtlas.Markdown

open List

variable {n : Nat} {text : List Char} {P : String → Nat → Prop} {file : String}
  {lines : List (List Char)}

/-! ## Blocks -/

/-- The block stands on the first `n` lines; a heading is on one of six levels. -/
def Block.Within (n : Nat) : Block → Prop
  | .heading level line _ _ => level ≤ 6 ∧ line ≤ n
  | .paragraph first last _ _ => first ≤ n ∧ last ≤ n

/-- The lines that are counted are no more than the characters that are passed. -/
theorem Block.In.within {x : Block} (h : x.In text) (hn : text.length + 1 ≤ n) : x.Within n := by
  obtain ⟨before, rest, rfl, _, hx⟩ := h
  have hfeeds : before.count '\n' ≤ before.length := count_le_length
  rw [length_append] at hn
  cases x with
  | heading level line text tail =>
    obtain ⟨rfl, _, _, hheading⟩ := hx
    exact ⟨hheading.level_le, by omega⟩
  | paragraph first last list? text =>
    obtain ⟨rfl, hlast⟩ := hx
    exact ⟨by omega, by omega⟩

/-! ## Documents -/

theorem within_of_mem_blocksOf {x : Block} (hx : x ∈ (blocksOf text).1) :
    x.Within (text.length + 1) :=
  (in_of_mem_blocksOf x hx).within (Nat.le_refl _)

/-- The paragraph before the headings of a document stands wherever it is found. -/
theorem standsIn_preambleSpan (hfile : ∀ k ≤ text.length + 1, P file k) :
    StandsIn P file (Content.ofText text).preambleSpan := by
  refine List.foldlRecOn (motive := fun c : Content => StandsIn P file c.preambleSpan) _ _ ?_
    fun c hc x hx => ?_
  · exact standsIn_lines hfile (Nat.zero_le _) (Nat.zero_le _)
  · cases x with
    | heading => exact hc
    | paragraph first last list? text =>
      have hx := within_of_mem_blocksOf hx
      rw [Content.add]
      split
      · split
        · exact standsIn_lines hfile hx.1 hx.2
        · exact hc
      · split <;> exact hc

theorem trimBlankLines_le (lines : List (List Char)) (first last : Nat) :
    trimBlankLines lines first last ≤ last := by
  fun_induction trimBlankLines lines first last with
  | case1 => exact Nat.le_refl _
  | case2 _ _ ih => exact Nat.le_succ_of_le ih
  | case3 => exact Nat.le_refl _

/-- A section ends before the next heading, or where the document ends. -/
theorem lastLine_le {h : Heading} {next? : Option Heading} (hn : lines.length ≤ n)
    (hline : h.line ≤ n) (hnext : ∀ next ∈ next?, next.line ≤ n) : lastLine lines h next? ≤ n := by
  unfold lastLine
  refine Nat.le_trans (trimBlankLines_le ..) (Nat.max_le.2 ⟨?_, hline⟩)
  split
  · next next => exact Nat.le_trans (Nat.sub_le ..) (hnext next rfl)
  · exact hn

/-- A section is made of a heading, and of the next one if there is one. -/
theorem exists_of_mem_sectionsWith {headings : List Heading} {paths : List (List String)}
    {s : Section} (hs : s ∈ sectionsWith file lines headings paths) :
    ∃ h ∈ headings, ∃ path next?, (∀ next ∈ next?, next ∈ headings) ∧
      s = sectionOf file lines h path next? := by
  fun_induction sectionsWith file lines headings paths with
  | case1 h rest path paths ih =>
    rcases mem_cons.1 hs with rfl | hs
    · exact ⟨h, mem_cons_self, path, rest.head?,
        fun next hnext => mem_cons_of_mem _ (mem_of_head? hnext), rfl⟩
    · obtain ⟨h', hh', path', next?, hnext, rfl⟩ := ih hs
      exact ⟨h', mem_cons_of_mem _ hh', path', next?,
        fun next hn => mem_cons_of_mem _ (hnext next hn), rfl⟩
  | case2 => cases hs

/-- All that the outline of a document lists stands in its file. -/
theorem placed_outline {path : String} (hpath : ∀ k ≤ text.length + 1, P (Path.slashed path) k) :
    (outline path text).Placed P := by
  constructor
  case doc =>
    intro hdoc
    have hdescribed : (!(Content.ofText text).preamble.isEmpty) := by
      rw [Bool.not_eq_true']
      exact hdoc
    simp only [outline, hdescribed, if_true]
    exact standsIn_preambleSpan hpath
  case sections =>
    have hheadings : ∀ h ∈ (Content.ofText text).headings.reverse,
        h.level ≤ 6 ∧ h.line ≤ text.length + 1 := by
      intro h hh
      obtain ⟨title, tail, hx⟩ := exists_of_mem_headings h (mem_reverse.1 hh)
      exact within_of_mem_blocksOf hx
    intro s hs
    obtain ⟨h, hh, path, next?, hnext, rfl⟩ := exists_of_mem_sectionsWith hs
    obtain ⟨hlevel, hline⟩ := hheadings h hh
    exact ⟨standsIn_lines hpath hline (lastLine_le (Text.length_lines_le text) hline
      fun next hn => (hheadings next (hnext next hn)).2), hlevel⟩
  all_goals intro x hx; cases hx

end CodeAtlas.Markdown
