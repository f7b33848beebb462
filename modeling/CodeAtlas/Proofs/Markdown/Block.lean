import CodeAtlas.Markdown.Document

/-!
# Where blocks stand

Blocks are read one behind the other, and the line of the next is counted by the line feeds
that were passed. Containers that are opened and closed on the way leave the line and the
blocks alone (`Blocks.Keeps`), so that reading a block adds one on the line it starts on, or
none. A block is therefore in its text where its line says (`Block.In`). What stands before a
heading on its line is margin, and holds no line feed. Headings are on six levels.

* `Margin.At`, `Blocks.at_openContainers`: margins and the marks of containers;
* `readBlock_cases`: one block;
* `in_of_mem_read`: all blocks, by induction on the fuel;
* `in_of_mem_blocksOf`: the blocks of a text;
* `bare_headings`: its headings are blocks, in order.
-/

namespace CodeAtlas.Markdown

open List Option Nat

variable {level n length : Nat} {text s : List Char} {m : Margin}

/-! ## Margins -/

namespace Margin

/-- The margin is one of the first line of the text. -/
structure At (s : List Char) (m : Margin) : Prop where
  rest : s.drop m.passed = m.rest
  whole : '\n' ∉ s.take m.passed

variable {s rest : List Char} {m m' : Margin} {mark : ListMark}

theorem at_ofLine (s : List Char) : At s (.ofLine s) :=
  ⟨rfl, by simp [ofLine]⟩

theorem At.length_rest (h : At s m) : m.rest.length ≤ s.length := by
  rw [← h.rest, length_drop]
  exact sub_le ..

/-- The margin goes on over characters of the line. -/
theorem At.skip (h : At s m) (hn : '\n' ∉ m.rest.take n) : At s (m.skip n) := by
  obtain ⟨hrest, hwhole⟩ := h
  constructor
  · rw [Margin.skip, ← hrest, drop_drop]
  · rw [Margin.skip, take_add, hrest, mem_append, not_or]
    exact ⟨hwhole, hn⟩

theorem at_eatFrom (sinceTab n : Nat) {passed : Nat} (h : At s ⟨rest, passed, 0, 0⟩) :
    At s (eatFrom passed sinceTab n rest).2 := by
  have hnext : ∀ {passed : Nat} {c : Char} {rest : List Char}, At s ⟨c :: rest, passed, 0, 0⟩ →
      c ≠ '\n' → At s ⟨rest, passed + 1, 0, 0⟩ := by
    intro passed c rest h hc
    have hskip := h.skip (n := 1) (by simpa using hc.symm)
    exact ⟨hskip.rest, hskip.whole⟩
  fun_induction eatFrom passed sinceTab n rest with
  | case1 => exact ⟨h.rest, h.whole⟩
  | case2 => exact ⟨h.rest, h.whole⟩
  | case3 _ _ _ _ _ _ hspace ih =>
    rw [beq_iff_eq] at hspace
    exact ih (hnext h (by simp [hspace]))
  | case4 _ _ _ _ _ _ _ htab =>
    rw [beq_iff_eq] at htab
    have hbehind := hnext h (by simp [htab])
    exact ⟨hbehind.rest, hbehind.whole⟩
  | case5 _ _ _ _ _ _ _ htab _ _ ih =>
    rw [beq_iff_eq] at htab
    exact ih (hnext h (by simp [htab]))
  | case6 => exact ⟨h.rest, h.whole⟩

theorem At.eat (h : At s m) (n : Nat) : At s (m.eat n).2 := by
  rw [Margin.eat]
  split
  · exact ⟨h.rest, h.whole⟩
  · exact at_eatFrom _ _ ⟨h.rest, h.whole⟩

theorem At.spacesUpTo (h : At s m) {columns : Nat} (hm' : m.spacesUpTo n = (columns, m')) :
    At s m' := by
  have hbehind : At s (m.spacesUpTo n).2 := h.eat n
  rwa [hm'] at hbehind

theorem At.spaces? (h : At s m) (hm' : m.spaces? n = some m') : At s m' := by
  have hbehind := h.eat n
  rw [Margin.spaces?] at hm'
  split at hm'
  · next heat =>
    cases hm'
    rwa [heat] at hbehind
  · cases hm'

theorem At.quote? (h : At s m) (hm' : m.quote? = some m') : At s m' := by
  obtain ⟨behind, hbehind, rfl⟩ := map_eq_some_iff.1 hm'
  refine At.eat ?_ 1
  rw [char?] at hbehind
  split at hbehind
  · next d rest hrest =>
    split at hbehind
    · next hd =>
      cases hbehind
      have hskip := h.skip (n := 1) (by simp [hrest, ← beq_iff_eq.1 hd])
      exact ⟨by simpa [Margin.skip, hrest] using hskip.rest, hskip.whole⟩
    · cases hbehind
  · cases hbehind

/-- The mark of an item stands on one line. -/
theorem newline_not_mem_bareMark? (h : bareMark? rest = some (mark, length)) :
    '\n' ∉ rest.take length := by
  rw [bareMark?.eq_def] at h
  split at h
  · cases h
  · next c rest =>
    split at h
    · next hc =>
      cases h
      rintro hmem
      obtain rfl : '\n' = c := by simpa using hmem
      simp at hc
    · dsimp only at h
      have hprefix : ((c :: rest).take 9).takeWhile Char.isDigit <+: c :: rest :=
        (List.takeWhile_prefix _).trans (List.take_prefix ..)
      have hdigits : '\n' ∉ ((c :: rest).take 9).takeWhile Char.isDigit := fun hmem => by
        cases all_eq_true.1 (all_takeWhile (p := Char.isDigit)) _ hmem
      generalize ((c :: rest).take 9).takeWhile Char.isDigit = digits at h hprefix hdigits
      obtain ⟨after, hafter⟩ := hprefix
      rw [← hafter, drop_left] at h
      split at h
      · next d after =>
        split at h
        · next hd =>
          cases h
          -- Behind the digits stands the sign of the mark.
          have htake : (digits ++ d :: after).take (digits.length + 1) = digits ++ [d] := by
            rw [take_length_add_append]
            rfl
          rw [← hafter, htake, mem_append, not_or]
          refine ⟨hdigits, fun hmem => ?_⟩
          obtain rfl : '\n' = d := by simpa using hmem
          simp at hd
        · cases h
      · cases h

theorem At.item? (h : At s m) {indent width : Nat} (hm' : m.item? indent = some (mark, width, m')) :
    At s m' := by
  simp only [Margin.item?, bind_eq_bind, bind_eq_some_iff] at hm'
  obtain ⟨⟨mark', length⟩, hmark, hm'⟩ := hm'
  have hskip : At s (m.skip length) := h.skip (newline_not_mem_bareMark? hmark)
  have hbehind : ∀ (after : Margin) (k : Nat), At s after →
      (if (blankLine? after.rest).isSome then some (mark', k, after)
        else some (if (after.spacesUpTo 4).1 < 4 then
            (mark', k + (after.spacesUpTo 4).1, (after.spacesUpTo 4).2)
          else (mark', k, after))) = some (mark, width, m') → At s m' := by
    intro after k hafter hm'
    split at hm'
    · cases hm'
      exact hafter
    · split at hm'
      · cases hm'
        exact hafter.eat 4
      · cases hm'
        exact hafter
  split at hm'
  · cases hm'
  · split at hm'
    · next after hafter => exact hbehind after _ (hskip.spaces? hafter) hm'
    · split at hm'
      · exact hbehind _ _ hskip hm'
      · cases hm'

theorem At.take? (h : At s m) {c : Container} (hm' : c.take? m = some m') : At s m' := by
  cases c with
  | quote => exact (h.eat 3).quote? hm'
  | list =>
    cases hm'
    exact h
  | item indent =>
    rw [Container.take?] at hm'
    dsimp only at hm'
    split at hm'
    · cases hm'
      exact h.eat indent
    · cases hm'

theorem At.takeMargins (h : At s m) (spine : List Container) : At s (takeMargins spine m).2 := by
  induction spine generalizing m with
  | nil => exact h
  | cons c rest ih =>
    rw [Markdown.takeMargins]
    split
    · next m' hm' => exact ih (h.take? hm')
    · exact h

end Margin

/-! ## Containers -/

namespace Blocks

/-- The second has the line and the blocks of the first. -/
structure Keeps (b c : Blocks) : Prop where
  line : c.line = b.line
  blocks : c.blocks = b.blocks

namespace Keeps

variable {b c : Blocks}

theorem refl (b : Blocks) : b.Keeps b :=
  ⟨rfl, rfl⟩

theorem pop (h : b.Keeps c) : b.Keeps c.pop := by
  rw [Blocks.pop]
  split <;> exact ⟨h.line, h.blocks⟩

theorem finishEmptyItem (h : b.Keeps c) : b.Keeps c.finishEmptyItem := by
  have hclosed : ∀ d : Blocks, b.Keeps d → b.Keeps { d with emptyItem := false } :=
    fun d hd => ⟨hd.line, hd.blocks⟩
  refine hclosed _ ?_
  split
  · split
    · exact h.pop
    · exact h
  · exact h

theorem loosen (h : b.Keeps c) : b.Keeps c.loosen := by
  rw [Blocks.loosen]
  split <;> exact ⟨h.line, h.blocks⟩

theorem finishList (h : b.Keeps c) : b.Keeps c.finishList := by
  have hrest : ∀ d : Blocks, b.Keeps d →
      b.Keeps (if d.afterBlank then { d.loosen with afterBlank := false } else d) := by
    intro d hd
    split
    · exact ⟨hd.loosen.line, hd.loosen.blocks⟩
    · exact hd
  refine hrest _ ?_
  split
  · exact h.finishEmptyItem.pop
  · exact h.finishEmptyItem

theorem openList (h : b.Keeps c) (mark : Char) : b.Keeps (c.openList mark) :=
  ⟨h.line, h.blocks⟩

theorem startItem (h : b.Keeps c) (mark : Char) (indent : Nat) :
    b.Keeps (c.startItem mark indent) := by
  have hitem : ∀ d : Blocks, b.Keeps d → b.Keeps { d with spine := .item indent :: d.spine } :=
    fun d hd => ⟨hd.line, hd.blocks⟩
  have hempty : b.Keeps c.finishEmptyItem := h.finishEmptyItem
  refine hitem _ ?_
  split
  · split
    · split
      · exact ⟨hempty.line, hempty.blocks⟩
      · exact hempty
    · exact hempty.finishList.openList mark
  · exact hempty.openList mark
  · exact hempty.finishList.openList mark

theorem openContainers (h : b.Keeps c) (fuel : Nat) (m : Margin) :
    b.Keeps (Blocks.openContainers fuel c m).1 := by
  fun_induction Blocks.openContainers fuel c m with
  | case1 => exact h
  | case2 => exact h
  | case3 _ _ _ _ _ _ _ mark width =>
    have hstart := h.startItem mark.char width
    exact ⟨hstart.line, hstart.blocks⟩
  | case4 _ _ _ _ _ _ _ _ _ _ _ _ _ ih => exact ih (h.startItem _ _)
  | case5 _ _ _ _ _ _ _ _ _ _ _ ih => exact ih ⟨h.finishList.line, h.finishList.blocks⟩
  | case6 => exact h

theorem blank (h : b.Keeps c) : b.Keeps c.blank := by
  rw [Blocks.blank]
  split
  · exact h
  · exact ⟨h.line, h.blocks⟩
  · exact ⟨h.line, h.blocks⟩

end Keeps

/-- The marks of containers stand on one line, as margins do. -/
theorem at_openContainers (b : Blocks) (fuel : Nat) (h : Margin.At s m) :
    Margin.At s (openContainers fuel b m).2.1 := by
  fun_induction openContainers fuel b m with
  | case1 => exact h
  | case2 => exact h
  | case3 _ _ _ _ _ hspaces _ _ _ _ hitem => exact (h.spacesUpTo hspaces).item? hitem
  | case4 _ _ _ _ _ hspaces _ _ _ _ hitem _ _ ih => exact ih ((h.spacesUpTo hspaces).item? hitem)
  | case5 _ _ _ _ _ hspaces _ _ _ hquote _ ih => exact ih ((h.spacesUpTo hspaces).quote? hquote)
  | case6 => exact h

end Blocks

/-! ## Blocks -/

/-- A line below a heading makes it one of the first or the second level. -/
theorem level_of_underline? (h : underline? s = some (length, level)) : level ≤ 2 := by
  unfold underline? at h
  split at h
  · split at h
    · obtain ⟨k, _, heq⟩ := map_eq_some_iff.1 h
      cases heq
      split <;> omega
    · cases h
  · cases h

theorem level_of_paragraphLines {spine : List Container} {fuel : Nat}
    (h : (paragraphLines spine fuel s).2.2 = .heading level) : level ≤ 2 := by
  induction fuel generalizing s with
  | zero => cases h
  | succ fuel ih =>
    rw [paragraphLines] at h
    dsimp only at h
    split at h
    · next hheading =>
      cases h
      split at hheading
      · exact level_of_underline? hheading
      · cases hheading
    · split at h
      · cases h
      · split at h
        · cases h
        · exact ih h

theorem level_of_headingLevel? (h : headingLevel? s = some level) : level ≤ 6 := by
  simp only [headingLevel?, Bool.and_eq_true, decide_eq_true_eq, ite_none_right_eq_some]
    at h
  obtain ⟨⟨⟨_, hlevel⟩, _⟩, ⟨⟩⟩ := h
  exact hlevel

/-- How many characters the first line of a text takes, with its end. -/
def throughFirst (s : List Char) : Nat :=
  (lineOf s).length + (lineEnd? (s.drop (lineOf s).length)).getD 0

/-- A heading of the level starts the text: by number signs, or as lines above an underline. -/
def StartsHeading (level : Nat) (s : List Char) : Prop :=
  headingLevel? s = some level ∨
    ∃ spine fuel, (paragraphLines spine fuel (s.drop (throughFirst s))).2.2 = .heading level

theorem StartsHeading.level_le (h : StartsHeading level s) : level ≤ 6 := by
  rcases h with hmarks | ⟨spine, fuel, hunderline⟩
  · exact level_of_headingLevel? hmarks
  · exact Nat.le_trans (level_of_paragraphLines hunderline) (by decide)

/-- The block starts on the line that the text starts with: a heading behind its margin. A
    paragraph ends no more lines below than there are characters. -/
def Block.On (line : Nat) (s : List Char) : Block → Prop
  | .heading level start _ _ =>
    start = line ∧ ∃ passed, '\n' ∉ s.take passed ∧ StartsHeading level (s.drop passed)
  | .paragraph first last _ _ => first = line ∧ last ≤ line + s.length

namespace Blocks

/-- The second has at most one block more than the first, which starts on the line that both are
    at. -/
structure Adds (s : List Char) (b c : Blocks) : Prop where
  line : c.line = b.line
  blocks : c.blocks = b.blocks ∨ ∃ x : Block, x.On b.line s ∧ c.blocks = x :: b.blocks

variable {b c : Blocks}

theorem Keeps.adds (h : b.Keeps c) : b.Adds s c :=
  ⟨h.line, .inl h.blocks⟩

theorem Keeps.adds_add (h : b.Keeps c) {x : Block} (hx : x.On c.line s) : b.Adds s (c.add x) :=
  ⟨h.line, .inr ⟨x, h.line ▸ hx, congrArg _ h.blocks⟩⟩

theorem Keeps.adds_heading (h : b.Keeps c) (hm : m.At s) (hlevel : StartsHeading level m.rest)
    (text tail : List Char) : b.Adds s (c.add (.heading level c.line text tail)) :=
  h.adds_add ⟨rfl, m.passed, hm.whole, hm.rest.symm ▸ hlevel⟩

theorem Keeps.readParagraph (h : b.Keeps c) (fuel passed : Nat) (hm : m.At s) :
    b.Adds s (c.readParagraph fuel passed m.rest).1 := by
  rw [Blocks.readParagraph]
  dsimp only
  split
  · exact h.adds
  · split
    · next level hlevel => exact h.adds_heading hm (.inr ⟨_, _, hlevel⟩) ..
    · refine h.adds_add ⟨rfl, Nat.add_le_add_left ?_ _⟩
      -- There are no more line feeds in a paragraph than characters.
      refine Nat.le_trans (length_filter_le ..) (Nat.le_trans ?_ hm.length_rest)
      rw [length_dropLast, length_take]
      omega

/-- Reading a block leaves the line as it is, and adds what is kept on that line. -/
theorem readBlock_cases (b : Blocks) (fuel : Nat) (s : List Char) :
    b.Adds s (b.readBlock fuel s).1 := by
  have hpopped : ∀ units : List Unit, b.Keeps (units.foldl (fun b _ => b.pop) b) := fun units =>
    List.foldlRecOn (motive := b.Keeps) units _ (.refl b) fun _ hc _ _ => hc.pop
  have htaken := (Margin.at_ofLine s).takeMargins b.spine.reverse
  rw [Blocks.readBlock]
  dsimp only
  generalize takeMargins b.spine.reverse (.ofLine s) = taken at htaken ⊢
  have hkept := hpopped (List.replicate (b.spine.length - taken.1) ())
  generalize (List.replicate (b.spine.length - taken.1) ()).foldl _ b = popped at hkept ⊢
  have hopened := hkept.openContainers fuel taken.2
  have hbehind := popped.at_openContainers fuel htaken
  generalize Blocks.openContainers fuel popped taken.2 = opened at hopened hbehind ⊢
  have hinner : (opened.2.1.spacesUpTo 4).2.At s := hbehind.eat 4
  have hfinished : b.Keeps opened.1.finishList := hopened.finishList
  generalize opened.1.finishList = c at hfinished ⊢
  generalize opened.2.1.spacesUpTo 4 = inner at hinner ⊢
  split
  -- A blank line.
  · split
    · exact hopened.adds
    · exact hopened.blank.adds
  · split
    -- Indented code.
    · exact ⟨hfinished.line, .inl hfinished.blocks⟩
    · split
      -- Metadata.
      · exact hfinished.adds
      · split
        · exact hfinished.adds
        · split
          · exact hfinished.adds
          · next level _ _ hlevel => exact hfinished.adds_heading hinner (.inl hlevel) ..
          · exact hfinished.adds
          · split
            · exact ⟨hfinished.line, .inl hfinished.blocks⟩
            · exact hfinished.readParagraph _ _ hinner

end Blocks

/-! ## Texts -/

/-- Something is left of the text where the block starts, and the line feeds before are as many
    as its line says. -/
def Block.In (text : List Char) (x : Block) : Prop :=
  ∃ before rest, text = before ++ rest ∧ rest ≠ [] ∧
    x.On (before.count '\n' + 1) rest

theorem in_of_mem_read {before : List Char} (htext : text = before ++ s) {b : Blocks}
    (hline : b.line = before.count '\n' + 1) (hb : ∀ x ∈ b.blocks, x.In text) (fuel : Nat) :
    ∀ x ∈ (Blocks.read fuel b s).blocks, x.In text := by
  induction fuel generalizing before s b with
  | zero => exact hb
  | succ fuel ih =>
    rw [Blocks.read]
    split
    · exact hb
    · next hs =>
      obtain ⟨hsame, hadded⟩ := b.readBlock_cases (fuel + 1) s
      generalize b.readBlock (fuel + 1) s = next at hsame hadded ⊢
      have hsplit : text = before ++ s.take next.2 ++ s.drop next.2 := by
        rw [append_assoc, take_append_drop]
        exact htext
      refine ih hsplit ?_ ?_
      · have hfeeds : (s.take next.2).count '\n' = ((s.take next.2).filter (· == '\n')).length :=
          countP_eq_length_filter
        dsimp only
        rw [count_append]
        omega
      · rcases hadded with hadded | ⟨x, hx, hadded⟩
        · rw [hadded]
          exact hb
        · rw [hadded]
          have hnew : x.In text :=
            ⟨before, s, htext, fun hnil => hs (by rw [hnil]; rfl), hline ▸ hx⟩
          exact forall_mem_cons.2 ⟨hnew, hb⟩

theorem in_of_mem_blocksOf : ∀ x ∈ (blocksOf text).1, x.In text := by
  intro x hx
  have hstart : ({} : Blocks).line = ([] : List Char).count '\n' + 1 := rfl
  exact in_of_mem_read (nil_append text).symm hstart (by simp) text.length x
    (mem_reverse.1 (mem_filter.1 hx).1)

/-- The heading that a block is, given how its text reads. -/
def Block.heading? (read : List Char → List Char) : Block → Option Heading
  | .heading level line text tail =>
    some { level, line, title := String.ofList (Text.trim (read text ++ tail)) }
  | .paragraph .. => none

/-- The headings of a document, in order. -/
def headingsIn (text : List Char) : List Heading :=
  (blocksOf text).1.filterMap (Block.heading? (inlineText (blocksOf text).2))

/-- The heading without what is told of the text below it. -/
def Heading.bare (h : Heading) : Heading :=
  { h with summary := "" }

/-- A block that is added makes a heading if it is one; else it is told of at most. -/
theorem Content.headings_add (read : List Char → List Char) (c : Content) (x : Block) :
    (c.add read x).headings.map Heading.bare =
      (x.heading? read).toList ++ c.headings.map Heading.bare := by
  cases x with
  | heading level line text tail => rfl
  | paragraph first last list? text =>
    rw [Content.add]
    split
    · next hnone => split <;> simp [hnone, Block.heading?]
    · next h rest hheadings => split <;> simp [hheadings, Block.heading?, Heading.bare]

/-- The headings that a document shows are its blocks that are headings. -/
theorem bare_headings (text : List Char) :
    (Content.ofText text).headings.reverse.map Heading.bare = headingsIn text := by
  have hfold : ∀ (read : List Char → List Char) (blocks : List Block) (c : Content),
      (blocks.foldl (Content.add read) c).headings.reverse.map Heading.bare =
        c.headings.reverse.map Heading.bare ++ blocks.filterMap (Block.heading? read) := by
    intro read blocks
    induction blocks with
    | nil => simp
    | cons x blocks ih =>
      intro c
      rw [foldl_cons, ih, map_reverse, c.headings_add]
      cases hx : x.heading? read <;> simp [hx]
  exact (hfold ..).trans (nil_append _)

theorem exists_of_mem_headingsIn : ∀ h ∈ headingsIn text,
    ∃ title tail, Block.heading h.level h.line title tail ∈ (blocksOf text).1 := by
  intro h hh
  obtain ⟨x, hx, hheading⟩ := mem_filterMap.1 hh
  cases x with
  | heading level line title tail =>
    cases hheading
    exact ⟨title, tail, hx⟩
  | paragraph => cases hheading

theorem exists_of_mem_headings : ∀ h ∈ (Content.ofText text).headings,
    ∃ title tail, Block.heading h.level h.line title tail ∈ (blocksOf text).1 := by
  intro h hh
  have hmem : h.bare ∈ headingsIn text := by
    rw [← bare_headings]
    exact mem_map_of_mem (mem_reverse.2 hh)
  exact exists_of_mem_headingsIn h.bare hmem

end CodeAtlas.Markdown
