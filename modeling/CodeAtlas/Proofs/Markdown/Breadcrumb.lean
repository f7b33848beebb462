import Mathlib.Data.List.Induction
import CodeAtlas.Proofs.Parent

/-!
# Headings around a heading

The headings around a heading are those before it that have a lower level than all headings
behind them, up to that heading (`around`). Their titles lead to its section, and the last of
them names the parent of its chunk.

The reader of a document finds them with a stack. Where the text before has been read, the stack
holds the headings that have a lower level than all behind them (`spine`), innermost first.
Their levels go up, so that a new heading finds those around it where it finds the first of a
lower level.

* `spine_concat`, `enclosing_spine`: what a heading does to the stack;
* `getElem?_breadcrumbs`: the titles that lead to each heading, by induction on the headings;
* `titles_lead_to_sections`: the sections of a document, and their chunks.
-/

namespace CodeAtlas.Markdown

open List

variable {hs : List Heading}

/-- The headings around `h`, given all that stand before it. -/
def around (h : Heading) : List Heading → List Heading
  | [] => []
  | g :: before =>
    if ∀ k ∈ before ++ [h], g.level < k.level then g :: around h before else around h before

/-- The headings that have a lower level than all behind them. -/
def spine : List Heading → List Heading
  | [] => []
  | g :: hs => if ∀ k ∈ hs, g.level < k.level then g :: spine hs else spine hs

theorem spine_concat (hs : List Heading) (h : Heading) :
    spine (hs ++ [h]) = around h hs ++ [h] := by
  induction hs with
  | nil => rfl
  | cons g hs ih =>
    rw [cons_append, spine, around, ih]
    split <;> rfl

/-- Of the headings on the stack, those of a lower level are around the next one. -/
theorem around_eq_filter (h : Heading) (hs : List Heading) :
    around h hs = (spine hs).filter (·.level < h.level) := by
  induction hs with
  | nil => rfl
  | cons g hs ih =>
    simp only [around, spine, ih, forall_mem_append, forall_mem_singleton]
    by_cases hrest : ∀ k ∈ hs, g.level < k.level
    · rw [if_pos hrest, filter_cons]
      simp only [decide_eq_true_eq]
      exact if_congr (and_iff_right hrest) rfl rfl
    · rw [if_neg hrest, if_neg fun hboth => hrest hboth.1]

theorem mem_of_mem_spine {g : Heading} (hg : g ∈ spine hs) : g ∈ hs := by
  induction hs with
  | nil => cases hg
  | cons h hs ih =>
    rw [spine] at hg
    split at hg
    · exact (mem_cons.1 hg).elim (· ▸ mem_cons_self) fun hg =>
        mem_cons_of_mem _ (ih hg)
    · exact mem_cons_of_mem _ (ih hg)

/-- Levels go up along the stack. -/
theorem pairwise_spine (hs : List Heading) : (spine hs).Pairwise (·.level < ·.level) := by
  induction hs with
  | nil => exact .nil
  | cons h hs ih =>
    rw [spine]
    split
    · next hlow => exact .cons (fun g hg => hlow g (mem_of_mem_spine hg)) ih
    · exact ih

/-- What is dropped from the top of a stack whose levels go up are the headings that are not
    lower. (By induction from the top of the stack.) -/
theorem enclosing_reverse {level : Nat} {stack : List Heading}
    (hup : stack.Pairwise (·.level < ·.level)) :
    enclosing level stack.reverse = (stack.filter (·.level < level)).reverse := by
  induction stack using List.reverseRecOn with
  | nil => rfl
  | append_singleton stack top ih =>
    obtain ⟨hrest, -, htop⟩ := pairwise_append.1 hup
    rw [reverse_concat, enclosing, dropWhile_cons, filter_append,
      filter_singleton, reverse_append]
    by_cases hlevel : level ≤ top.level
    · rw [if_pos (decide_eq_true hlevel), decide_eq_false (Nat.not_lt.2 hlevel)]
      exact ih hrest
    · -- All headings below the top are lower still.
      have hall : stack.filter (·.level < level) = stack := filter_eq_self.2 fun g hg =>
        decide_eq_true (Nat.lt_trans (htop g hg top mem_cons_self) (Nat.not_le.1 hlevel))
      rw [if_neg (by simpa using hlevel), decide_eq_true (Nat.not_le.1 hlevel), hall]
      rfl

theorem enclosing_spine (h : Heading) (hs : List Heading) :
    h :: enclosing h.level (spine hs).reverse = (spine (hs ++ [h])).reverse := by
  rw [enclosing_reverse (pairwise_spine hs), ← around_eq_filter, spine_concat,
    reverse_concat]

/-- The titles that lead to a heading, where the headings `before` have been read. -/
theorem getElem?_breadcrumbs (before : List Heading) {i : Nat} {h : Heading}
    (hi : hs[i]? = some h) :
    (breadcrumbs (spine before).reverse hs)[i]? =
      some ((around h (before ++ hs.take i)).map Heading.title ++ [h.title]) := by
  induction hs generalizing before i with
  | nil => cases hi
  | cons g hs ih =>
    rw [breadcrumbs, enclosing_spine]
    cases i with
    | zero =>
      cases hi
      rw [map_reverse, reverse_reverse, spine_concat, map_append, take_zero, append_nil]
      rfl
    | succ i =>
      rw [getElem?_cons_succ, ih (before ++ [g]) hi, append_assoc]
      rfl

theorem getElem?_sectionsWith {file : String} {lines : List (List Char)}
    {paths : List (List String)} {i : Nat} {h : Heading} {path : List String} (hi : hs[i]? = some h)
    (hpath : paths[i]? = some path) :
    (sectionsWith file lines hs paths)[i]? = some (sectionOf file lines h path hs[i + 1]?) := by
  induction hs generalizing paths i with
  | nil => cases hi
  | cons g hs ih =>
    cases paths with
    | nil => cases hpath
    | cons p paths =>
      rw [sectionsWith]
      cases i with
      | zero =>
        cases hi
        cases hpath
        rw [head?_eq_getElem?]
        rfl
      | succ i => exact ih hi hpath

/-- The chunks of sections are those of the sections of the document, in order. -/
theorem filter_section_chunks (path : String) (text : List Char) :
    (outline path text).chunks.filter (·.kind = .section) =
      (outline path text).sections.map (outline path text).sectionChunk := by
  have hfile : (outline path text).fileChunk?.toList.filter (·.kind = .section) = [] := by
    refine filter_eq_nil_iff.2 fun c hc => ?_
    have hkind := (Outline.link_fileChunk? (Option.mem_toList.1 hc)).1
    rw [show c.kind = .file from hkind]
    decide
  have hsections : ((outline path text).sections.map (outline path text).sectionChunk).filter
      (·.kind = .section) = (outline path text).sections.map (outline path text).sectionChunk := by
    refine filter_eq_self.2 (forall_mem_map.2 fun s _ => decide_eq_true ?_)
    exact congrArg Prod.fst ((outline path text).link_sectionChunk s)
  have hrest : (outline path text).functions = [] ∧ (outline path text).types = [] ∧
      (outline path text).constants = [] ∧ (outline path text).vars = [] := ⟨rfl, rfl, rfl, rfl⟩
  simp only [Outline.chunks, hrest, map_nil, flatMap_nil, append_nil,
    filter_append, hfile, hsections, nil_append]

/-- The titles of the headings around a heading, and its own, lead to its section, and the title
    of the last one around it is the parent of its chunk. -/
theorem titles_lead_to_sections (path : String) (text : List Char) (i : Nat) (h : Heading)
    (hi : (Content.ofText text).headings.reverse[i]? = some h) :
    ∃ s c, (outline path text).sections[i]? = some s ∧
      ((outline path text).chunks.filter (·.kind = .section))[i]? = some c ∧
      (s.level, s.title, c.name) = (h.level, h.title, h.title) ∧
      s.path = (around h ((Content.ofText text).headings.reverse.take i)).map Heading.title ++
        [h.title] ∧
      c.parent = (around h ((Content.ofText text).headings.reverse.take i)).getLast?.map
        Heading.title := by
  have hsection : (outline path text).sections[i]? = some (sectionOf (Path.slashed path)
      (Text.lines text) h _ (Content.ofText text).headings.reverse[i + 1]?) :=
    getElem?_sectionsWith hi (getElem?_breadcrumbs [] hi)
  have hlink := (outline path text).link_sectionChunk (sectionOf (Path.slashed path)
    (Text.lines text) h ((around h ((Content.ofText text).headings.reverse.take i)).map
      Heading.title ++ [h.title]) (Content.ofText text).headings.reverse[i + 1]?)
  refine ⟨_, _, hsection, by rw [filter_section_chunks, getElem?_map, hsection]; rfl, ?_, rfl,
    ?_⟩
  · exact congrArg (fun link => (h.level, h.title, link.2.1)) hlink
  · refine (congrArg (fun link => link.2.2) hlink).trans ?_
    rw [sectionOf, dropLast_concat, getLast?_map]

/-- Levels are left out and come back, and two headings have one title. -/
def handbook : List Char :=
  "# A\n### B\n## C\n#### B\n### D\n".toList

/-- Of the two headings `B`, neither is around the last one, which comes back to a level that
    was left out. -/
theorem titles_lead_to_sections_handbook :
    (Content.ofText handbook).headings.reverse.map (fun h => (h.level, h.title)) =
        [(1, "A"), (3, "B"), (2, "C"), (4, "B"), (3, "D")] ∧
      ∃ s c, (outline "handbook.md" handbook).sections[4]? = some s ∧
        ((outline "handbook.md" handbook).chunks.filter (·.kind = .section))[4]? = some c ∧
        s.path = ["A", "C", "D"] ∧ c.parent = some "C" := by
  have hheadings : (Content.ofText handbook).headings.reverse.map (fun h => (h.level, h.title)) =
      [(1, "A"), (3, "B"), (2, "C"), (4, "B"), (3, "D")] := by decide +kernel
  have hlast : (Content.ofText handbook).headings.reverse[4]? = some ⟨3, 5, "D", ""⟩ := by
    have hfields : (Content.ofText handbook).headings.reverse[4]?.map (fun h =>
        (h.level, h.line, h.title, h.summary)) = some (3, 5, "D", "") := by decide +kernel
    obtain ⟨⟨level, line, title, summary⟩, hh, heq⟩ := Option.map_eq_some_iff.1 hfields
    cases heq
    exact hh
  have haround : (around ⟨3, 5, "D", ""⟩ ((Content.ofText handbook).headings.reverse.take 4)).map
      Heading.title = ["A", "C"] := by
    decide +kernel
  obtain ⟨s, c, hs, hc, -, hpath, hparent⟩ :=
    titles_lead_to_sections "handbook.md" handbook 4 _ hlast
  rw [haround] at hpath
  rw [← getLast?_map, haround] at hparent
  exact ⟨hheadings, s, c, hs, hc, hpath, hparent⟩

end CodeAtlas.Markdown
