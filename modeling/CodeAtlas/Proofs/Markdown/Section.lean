import CodeAtlas.Proofs.Excerpt
import CodeAtlas.Proofs.Parent

/-!
# Sections

Each heading of a document has one section. It starts on the line of the heading, and ends
before the next heading starts, or where the document ends, without the blank lines at its end.
So sections have no line in common, and what they leave out behind the first heading is blank,
as long as no two headings are on one line.

* `trimBlankLines_cases`, `le_trimBlankLines_of_filled`: the blank lines at the end of a section;
* `headingOf_sectionsWith`: one section for each heading;
* `pairwise_sectionsWith`: sections follow each other;
* `countP_sectionsWith`: which lines are in a section, by induction on the headings;
* `sections_partition`: the sections of a document.
-/

namespace CodeAtlas

open List Nat

instance (s : Span) (line : Nat) : Decidable (s.Has line) :=
  inferInstanceAs (Decidable (_ ∧ _))

namespace Markdown

open Text (joinWith trim)

variable {lines : List (List Char)} {first last n : Nat}

/-- The line of that number is there, and it is not blank. -/
def Filled (lines : List (List Char)) (n : Nat) : Prop :=
  ∃ i l, n = i + 1 ∧ lines[i]? = some l ∧ trim l ≠ []

theorem Filled.le_length (h : Filled lines n) : n ≤ lines.length := by
  obtain ⟨i, l, rfl, hl, _⟩ := h
  exact (List.getElem?_eq_some_iff.1 hl).1

/-! ## Blank lines at the end of a section -/

/-- A section ends with a line that is not blank, or it is its heading alone. -/
theorem trimBlankLines_cases (hfirst : first ≤ last) (hlast : last ≤ lines.length) :
    trimBlankLines lines first last = first ∨ Filled lines (trimBlankLines lines first last) := by
  fun_induction trimBlankLines lines first last with
  | case1 => exact .inl (le_zero.1 hfirst).symm
  | case2 last hblank ih =>
    rw [Bool.and_eq_true, decide_eq_true_eq] at hblank
    exact ih (Nat.lt_succ_iff.1 hblank.1) (Nat.le_of_succ_le hlast)
  | case3 last hfilled =>
    rcases eq_or_lt_of_le hfirst with rfl | hlt
    · exact .inl rfl
    · have hl : lines[last]? = some lines[last] := getElem?_eq_getElem hlast
      refine .inr ⟨last, lines[last], rfl, hl, fun hnil => hfilled ?_⟩
      simp [hlt, hl, hnil]

/-- What a section loses at its end is blank. -/
theorem le_trimBlankLines_of_filled (hn : Filled lines n) (hle : n ≤ last) :
    n ≤ trimBlankLines lines first last ∨ n ≤ first := by
  fun_induction trimBlankLines lines first last with
  | case1 => exact .inl hle
  | case2 last hblank ih =>
    rcases eq_or_lt_of_le hle with rfl | hlt
    · obtain ⟨i, l, hi, hl, hfilled⟩ := hn
      cases hi
      simp [hl, hfilled] at hblank
    · exact ih (Nat.lt_succ_iff.1 hlt)
  | case3 => exact .inl hle

variable {h : Heading} {next? : Option Heading}

/-- A section ends before the next heading starts. -/
theorem lastLine_lt {next : Heading} (hnext : h.line < next.line) :
    lastLine lines h (some next) < next.line := by
  have hle : lastLine lines h (some next) ≤ max (next.line - 1) h.line := trimBlankLines_le ..
  omega

theorem lastLine_cases (hline : h.line ≤ lines.length)
    (hnext : ∀ next ∈ next?, next.line ≤ lines.length) :
    lastLine lines h next? = h.line ∨ Filled lines (lastLine lines h next?) := by
  refine trimBlankLines_cases (Nat.le_max_right ..) (Nat.max_le.2 ⟨?_, hline⟩)
  split
  · next next => exact Nat.le_trans (Nat.sub_le ..) (hnext next rfl)
  · exact Nat.le_refl _

/-- A section goes as far as the last line before the next heading that is not blank. -/
theorem le_lastLine_of_filled (hn : Filled lines n)
    (hnext : ∀ next ∈ next?, n < next.line) : n ≤ lastLine lines h next? := by
  have hreach : ∀ last, n ≤ last → n ≤ trimBlankLines lines h.line (max last h.line) := by
    intro last hlast
    have hle : n ≤ max last h.line := le_trans hlast (le_max_left ..)
    have hin : n ≤ trimBlankLines lines h.line (max last h.line) ∨ n ≤ h.line :=
      le_trimBlankLines_of_filled hn hle
    rcases hin with hin | hhead
    · exact hin
    · exact le_trans hhead (le_trimBlankLines (le_max_right ..))
  cases next? with
  | some next => exact hreach _ (le_sub_one_of_lt (hnext next rfl))
  | none => exact hreach _ hn.le_length

/-! ## The sections of headings -/

theorem endLine_sectionOf (file : String) (lines : List (List Char)) (h : Heading)
    (path : List String) (next? : Option Heading) :
    (sectionOf file lines h path next?).span.endLine = lastLine lines h next? :=
  max_eq_left (le_trimBlankLines (le_max_right ..))

/-- The heading that a section starts with. -/
def headingOf (s : Section) : Heading :=
  { level := s.level, line := s.span.startLine, title := s.title }

section

variable {file : String} {headings : List Heading} {paths : List (List String)}

theorem headingOf_sectionsWith (hpaths : paths.length = headings.length) :
    (sectionsWith file lines headings paths).map headingOf = headings.map Heading.bare := by
  induction headings generalizing paths with
  | nil => rfl
  | cons h rest ih =>
    obtain ⟨path, paths, rfl⟩ := exists_cons_of_length_eq_add_one hpaths
    exact congrArg (h.bare :: ·) (ih (Nat.succ.inj hpaths))

theorem le_startLine_of_mem_sectionsWith (hn : ∀ h ∈ headings, n ≤ h.line) :
    ∀ s ∈ sectionsWith file lines headings paths, n ≤ s.span.startLine := by
  intro s hs
  obtain ⟨h, hh, -, -, -, rfl⟩ := exists_of_mem_sectionsWith hs
  exact hn h hh

/-- A section ends before those behind it start. -/
theorem endLine_lt_of_mem_sectionsWith (hordered : (h :: headings).Pairwise (·.line < ·.line))
    (path : List String) :
    ∀ s ∈ sectionsWith file lines headings paths,
      (sectionOf file lines h path headings.head?).span.endLine < s.span.startLine := by
  obtain ⟨hfirst, hrest⟩ := pairwise_cons.1 hordered
  rw [endLine_sectionOf]
  cases headings with
  | nil =>
    intro s hs
    cases hs
  | cons next rest =>
    have hnext : h.line < next.line := hfirst next mem_cons_self
    refine le_startLine_of_mem_sectionsWith (n := lastLine lines h (some next) + 1) ?_
    refine forall_mem_cons.2 ⟨lastLine_lt hnext, fun h' hh' => ?_⟩
    exact lt_trans (lastLine_lt hnext) ((pairwise_cons.1 hrest).1 h' hh')

theorem pairwise_sectionsWith (hordered : headings.Pairwise (·.line < ·.line)) :
    ((sectionsWith file lines headings paths).map (·.span)).Pairwise Span.Before := by
  induction headings generalizing paths with
  | nil => exact .nil
  | cons h rest ih =>
    cases paths with
    | nil => exact .nil
    | cons path paths =>
      refine .cons ?_ (ih (pairwise_cons.1 hordered).2)
      rw [forall_mem_map]
      exact endLine_lt_of_mem_sectionsWith hordered path

theorem ends_of_mem_sectionsWith (hlines : ∀ h ∈ headings, h.line ≤ lines.length) :
    ∀ s ∈ sectionsWith file lines headings paths,
      s.span.endLine = s.span.startLine ∨ Filled lines s.span.endLine := by
  intro s hs
  obtain ⟨h, hh, path, next?, hnext, rfl⟩ := exists_of_mem_sectionsWith hs
  rw [endLine_sectionOf]
  exact lastLine_cases (hlines h hh) fun next hn => hlines next (hnext next hn)

/-- A line from the first heading on that is not blank is in one section. -/
theorem countP_sectionsWith (hordered : (h :: headings).Pairwise (·.line < ·.line))
    (hpaths : paths.length = (h :: headings).length) (hn : Filled lines n) (hline : h.line ≤ n) :
    (sectionsWith file lines (h :: headings) paths).countP (fun s => s.span.Has n) = 1 := by
  induction headings generalizing h paths with
  | nil =>
    obtain ⟨path, paths, rfl⟩ := exists_cons_of_length_eq_add_one hpaths
    have hhas : (sectionOf file lines h path none).span.Has n :=
      ⟨hline, by rw [endLine_sectionOf]; exact le_lastLine_of_filled hn (by simp)⟩
    simp [sectionsWith, hhas]
  | cons next rest ih =>
    obtain ⟨path, paths, rfl⟩ := exists_cons_of_length_eq_add_one hpaths
    have hrest := (pairwise_cons.1 hordered).2
    have hlater : ∀ s ∈ sectionsWith file lines (next :: rest) paths,
        (sectionOf file lines h path (some next)).span.endLine < s.span.startLine :=
      endLine_lt_of_mem_sectionsWith hordered path
    rw [sectionsWith, head?_cons, countP_cons]
    by_cases hnext : n < next.line
    · -- The line stands before the next heading, and so before all later sections.
      have hhas : (sectionOf file lines h path (some next)).span.Has n :=
        ⟨hline, by rw [endLine_sectionOf]; exact le_lastLine_of_filled hn (by simpa using hnext)⟩
      rw [if_pos (decide_eq_true hhas), countP_eq_zero.2 fun s hs => ?_]
      rw [decide_eq_true_eq]
      exact fun hin => not_lt.2 (le_trans hin.1 hhas.2) (hlater s hs)
    · have hnot : ¬ (sectionOf file lines h path (some next)).span.Has n := by
        rintro ⟨_, hend⟩
        rw [endLine_sectionOf] at hend
        have hlt : lastLine lines h (some next) < next.line :=
          lastLine_lt ((pairwise_cons.1 hordered).1 next mem_cons_self)
        omega
      rw [if_neg fun hin => hnot (of_decide_eq_true hin)]
      exact ih hrest (Nat.succ.inj hpaths) (Nat.le_of_not_lt hnext)

end

/-! ## Documents -/

/-- The sections of a document: one for each heading, which have no line in common and leave out
    nothing but blank lines from the first heading on. -/
structure Partitioned (text : List Char) (sections : List Section) : Prop where
  /-- Each heading has a section, in order. -/
  headings : sections.map headingOf = headingsIn text
  /-- A section starts on the line of its heading, which the line feeds before it tell. -/
  starts : ∀ s ∈ sections, ∃ offset, StartsHeading s.level (text.drop offset) ∧
    s.span.startLine = 1 + (text.take offset).count '\n'
  among : ∀ s ∈ sections, s.span.Among (Text.lines text).length
  apart : (sections.map (·.span)).Pairwise Span.Before
  /-- A section does not end in a blank line, unless it is the line of its heading alone. -/
  ends : ∀ s ∈ sections, s.span.endLine = s.span.startLine ∨
    Filled (Text.lines text) s.span.endLine
  covers : ∀ first ∈ sections.head?, ∀ n, first.span.startLine ≤ n → Filled (Text.lines text) n →
    sections.countP (fun s => s.span.Has n) = 1
  /-- All lines that a section takes are there. -/
  taken : ∀ s ∈ sections, ∃ taken,
    taken = ((Text.lines text).take s.span.endLine).drop (s.span.startLine - 1) ∧
      taken.length = s.span.endLine + 1 - s.span.startLine ∧
      s.code = String.ofList (joinWith ['\n'] taken)

/-- A heading starts on the line that the line feeds before it tell. -/
theorem exists_offset_of_mem_headingsIn {text : List Char} : ∀ h ∈ headingsIn text,
    ∃ offset, StartsHeading h.level (text.drop offset) ∧
      h.line = 1 + (text.take offset).count '\n' := by
  intro h hh
  obtain ⟨title, tail, hx⟩ := exists_of_mem_headingsIn h hh
  obtain ⟨before, rest, rfl, _, hline, passed, hwhole, hstarts⟩ := in_of_mem_blocksOf _ hx
  refine ⟨before.length + passed, ?_, ?_⟩
  · rwa [drop_length_add_append]
  · rw [take_length_add_append, count_append, count_eq_zero.2 hwhole]
    omega

/-- If no two headings are on one line, the sections of a document partition it. -/
theorem sections_partition (path : String) (text : List Char)
    (hlines : (headingsIn text).Pairwise (·.line < ·.line)) :
    Partitioned text (outline path text).sections := by
  let headings := (Content.ofText text).headings.reverse
  have hsections : (outline path text).sections = sectionsWith (Path.slashed path)
      (Text.lines text) headings (breadcrumbs [] headings) := rfl
  have hpaths := length_breadcrumbs [] headings
  have hbare : headings.map Heading.bare = headingsIn text := bare_headings text
  have hordered : headings.Pairwise (·.line < ·.line) := by
    rwa [← hbare, pairwise_map] at hlines
  have hplaces : ∀ h ∈ headings, 1 ≤ h.line ∧ h.line ≤ (Text.lines text).length := fun h hh =>
    line_of_mem_headings h (mem_reverse.1 hh)
  have hmap : (outline path text).sections.map headingOf = headingsIn text :=
    hsections ▸ (headingOf_sectionsWith hpaths).trans hbare
  have hshows := shows_of_mem_sections path text
  refine ⟨hmap, fun s hs => ?_, fun s hs => (hshows s hs).among, ?_, ?_, ?_, fun s hs => ?_⟩
  · exact exists_offset_of_mem_headingsIn (headingOf s) (hmap ▸ mem_map_of_mem hs)
  · exact hsections ▸ pairwise_sectionsWith hordered
  · exact hsections ▸ ends_of_mem_sectionsWith fun h hh => (hplaces h hh).2
  · intro first hfirst n hn hfilled
    rw [hsections] at hfirst ⊢
    generalize headings = hs at hordered hpaths hfirst ⊢
    cases hs with
    | nil => cases hfirst
    | cons h rest =>
      obtain ⟨path, paths, heq⟩ := exists_cons_of_length_eq_add_one hpaths
      cases hfirst
      exact countP_sectionsWith hordered hpaths hfilled hn
  · obtain ⟨⟨hfirst, hord, hlast⟩, hcode⟩ := hshows s hs
    refine ⟨_, rfl, ?_, hcode⟩
    rw [length_drop, length_take]
    omega

/-- A paragraph before the first heading, blank lines at the end of a section, and a heading in
    a quotation directly above another one. -/
def manual : List Char :=
  "intro\n# A\nb\n\n \n> C\n> ---\n## D\n\n".toList

/-- The last line of the quotation is in the second section alone. -/
theorem sections_partition_manual :
    (headingsIn manual).map (·.line) = [2, 6, 8] ∧
      Partitioned manual (outline "manual.md" manual).sections ∧
      (outline "manual.md" manual).sections.map (fun s => (s.span.startLine, s.span.endLine)) =
        [(2, 3), (6, 7), (8, 8)] ∧
      (outline "manual.md" manual).sections.countP (fun s => s.span.Has 7) = 1 := by
  have hlines : (headingsIn manual).map (·.line) = [2, 6, 8] := by decide +kernel
  have hordered : (headingsIn manual).Pairwise (·.line < ·.line) := by
    rw [← pairwise_map, hlines]
    decide
  have hpartitioned := sections_partition "manual.md" manual hordered
  have hspans : (outline "manual.md" manual).sections.map
      (fun s => (s.span.startLine, s.span.endLine)) = [(2, 3), (6, 7), (8, 8)] := by
    decide +kernel
  refine ⟨hlines, hpartitioned, hspans, ?_⟩
  decide +kernel

end Markdown

end CodeAtlas
