import CodeAtlas.Proofs.Python.Insertion
import CodeAtlas.Proofs.Spacing

/-!
# What an outline lists

Blocks hold deeper lines of code only. So every line of code without indentation is the head of
a statement of the module, and every line of code with the indentation of a class is the head of
a statement of the class, unless it is a decorator or documentation. The functions and classes of
a module are all listed.

* `exists_mem_statementsIn`: statements and their heads;
* `mem_functions_outline`, `mem_types_outline`: functions and classes of a module;
* `kind_of_defHeader?`, `ne_doc_of_defHeader?`: the heads of functions.
-/

namespace CodeAtlas.Python

open Text List
open LogicalLine (isCode)

variable {physical lines : List (List Char)} {c : Char} {path : String} {n indent : Nat}
  {current : Option OpenLine} {p : LogicalLine → Bool} {text line doc : List Char} {st : ScanState}
  {d : Declared} {l : LogicalLine}

/-! ## Heads of statements -/

theorem indent_lt_of_mem_blockOf {head : LogicalLine} {below : List LogicalLine}
    (hl : l ∈ blockOf head below) (hcode : isCode l) : head.indent < l.indent := by
  have hmem : l ∈ (blockOf head below).filter isCode := mem_filter.2 ⟨hl, hcode⟩
  rw [filter_blockOf_eq_takeWhile] at hmem
  simpa using mem_takeWhile_imp hmem

/-- Lines of one indentation are not in the blocks of each other, so that each of them is the
    head of a statement, if it is no decorator. -/
theorem map_head_statementsIn (hp : ∀ l, p l → isCode l ∧ l.indent = indent) (skip : Nat)
    (decorators : List Decorator) (ls : List LogicalLine) :
    (statementsIn p skip decorators ls).map (·.head) =
      (ls.drop skip).filter fun l => p l && l.kind ≠ .decorator := by
  fun_induction statementsIn p skip decorators ls with
  | case1 => simp
  | case2 _ _ _ _ ih => exact ih
  | case3 _ l _ hl ih =>
    rw [ih, drop_zero, drop_zero, filter_cons_of_neg (by simp_all)]
  | case4 _ l _ _ hkind ih =>
    rw [ih, drop_zero, drop_zero, filter_cons_of_neg (by simp [hkind])]
  | case5 decorators l rest hl hkind _ ih =>
    have hl : p l := by simpa using hl
    have hblock : (blockOf l rest).filter (fun l => p l && l.kind ≠ .decorator) = [] := by
      rw [filter_eq_nil_iff]
      intro x hx hpx
      obtain ⟨hcode, hindent⟩ := hp x (Bool.and_eq_true_iff.1 hpx).1
      have hlt := indent_lt_of_mem_blockOf hx hcode
      rw [hindent, (hp l hl).2] at hlt
      exact Nat.lt_irrefl _ hlt
    rw [map_cons, ih, drop_zero, filter_cons_of_pos (by simp [hl, hkind])]
    congr 1
    conv_rhs => rw [← blockOf_append_drop l rest, filter_append, hblock, nil_append]
  | case6 _ l _ hl hkind _ ih =>
    have hl : p l := by simpa using hl
    rw [map_cons, ih, drop_zero, drop_zero,
      filter_cons_of_pos (by simp [hl, hkind])]

theorem exists_mem_statementsIn (hp : ∀ l, p l → isCode l ∧ l.indent = indent)
    {ls : List LogicalLine} (hmem : l ∈ ls) (hl : p l) (hkind : l.kind ≠ .decorator) :
    ∃ d ∈ statementsIn p 0 [] ls, d.head = l := by
  rw [← mem_map, map_head_statementsIn hp, mem_filter]
  exact ⟨hmem, by simp [hl, hkind]⟩

/-! ## What is entered -/

theorem mem_functions_outline {header : DefHeader} (hd : d ∈ statementsOf (Text.lines text))
    (hclass : classHeader? d.head.code = none) (hdef : defHeader? d.head.code = some header) :
    callableOf ⟨Path.slashed path, Text.lines text⟩ d header none ∈
      (outline path text).functions := by
  obtain ⟨_, _, _, _, h, -⟩ := outline_eq path text
  rw [h]
  exact mem_filterMap.2 ⟨d, hd, by simp [Declared.function?, hclass, hdef]⟩

theorem mem_types_outline {header : ClassHeader} (hd : d ∈ statementsOf (Text.lines text))
    (hclass : classHeader? d.head.code = some header) :
    classOf ⟨Path.slashed path, Text.lines text⟩ d header ∈ (outline path text).types := by
  obtain ⟨_, _, _, _, h, -⟩ := outline_eq path text
  rw [h]
  exact mem_filterMap.2 ⟨d, hd, by simp [Declared.class?, hclass]⟩

/-! ## The first characters of lines -/

theorem exists_close_of_mem_groupLines (hl : l ∈ groupLines st n current lines) :
    ∃ (o : OpenLine) (last : Nat), l = o.close last := by
  induction lines generalizing st n current with
  | nil => cases hl
  | cons line rest ih =>
    rw [groupLines] at hl
    dsimp only at hl
    split at hl
    · exact ih hl
    · rcases mem_cons.1 hl with rfl | hl
      · exact ⟨_, _, rfl⟩
      · exact ih hl

/-- A line that starts with a character of code is code, unless it is a decorator. -/
theorem kind_of_mem_logicalLines (hl : l ∈ logicalLines physical) (hc : l.code.head? = some c)
    (hat : c ≠ '@') : l.kind = .code := by
  obtain ⟨o, last, rfl⟩ := exists_close_of_mem_groupLines hl
  rw [OpenLine.close] at hc ⊢
  cases hcode : joinWith [' '] o.pieces with
  | nil => simp [hcode] at hc
  | cons d code =>
    obtain rfl : d = c := by simpa [hcode] using hc
    simp [hat]

theorem head_scanFrom (hc : c ≠ '#') (s : List Char) :
    ∃ more, (scanFrom .code 0 (c :: s)).1 = c :: more := by
  by_cases hq : isQuote c
  · by_cases hs : [c, c] <+: s
    · obtain ⟨rest, rfl⟩ := hs
      rw [cons_append, cons_append, scanFrom_quotes hq]
      exact ⟨_, rfl⟩
    · exact ⟨_, by rw [scanFrom_quote hq hs]; rfl⟩
  · exact ⟨_, by rw [scanFrom_plain hc (by simpa using hq)]; rfl⟩

/-- The first character of a line is kept, unless a comment starts with it. -/
theorem head_trimStart_scanLine (h : (trimStart line).head? = some c) (hc : c ≠ '#') :
    ∃ more, trimStart (scanLine {} line).1 = c :: more := by
  have hscan : ∀ s, (trimStart s).head? = some c →
      ∃ more, trimStart (scanFrom .code 0 s).1 = c :: more := by
    intro s
    induction s with
    | nil => exact fun hs => by cases hs
    | cons d s ih =>
      intro hs
      cases hd : isBlank d with
      | true =>
        rw [trimStart, dropWhile_cons_of_pos hd] at hs
        obtain ⟨more, hmore⟩ := ih hs
        refine ⟨more, ?_⟩
        rw [scanFrom_blank hd, kept, singleton_append, trimStart,
          dropWhile_cons_of_pos hd]
        exact hmore
      | false =>
        rw [trimStart, dropWhile_cons_of_neg (by simp [hd])] at hs
        cases hs
        obtain ⟨more, hmore⟩ := head_scanFrom hc s
        exact ⟨more, by rw [hmore, trimStart, dropWhile_cons_of_neg (by simp [hd])]⟩
  exact hscan line h

/-- The logical line starts on a physical line whose first character is that of its code, or a
    backslash. -/
def OpensWith (physical : List (List Char)) (first : Nat) (code : List Char) : Prop :=
  ∃ line c, physical[first - 1]? = some line ∧ (trimStart line).head? = some c ∧
    (c = '\\' ∨ code.head? = some c)

theorem head?_joinWith_append {ps : List (List Char)} (h : (joinWith [' '] ps).head? = some c)
    (p : List Char) : (joinWith [' '] (ps ++ [p])).head? = some c := by
  rcases ps with _ | ⟨q, _ | ⟨r, ps⟩⟩
  · cases h
  · have hq : q.head? = some c := h
    simp [joinWith, hq]
  · cases q with
    | nil => exact h
    | cons d q => exact h

theorem OpensWith.add {o : OpenLine} (h : OpensWith physical o.first (joinWith [' '] o.pieces))
    (code : List Char) (goesOn : Bool) :
    OpensWith physical (o.add code goesOn).first (joinWith [' '] (o.add code goesOn).pieces) := by
  obtain ⟨line, c, hline, hc, hcode⟩ := h
  refine ⟨line, c, by rwa [OpenLine.first_add], hc, hcode.imp_right fun hhead => ?_⟩
  rw [OpenLine.add]
  split
  all_goals
    split
    · exact hhead
    · exact head?_joinWith_append hhead _

theorem opensWith_first (hline : physical[n - 1]? = some line)
    (hc : (trimStart line).head? = some c) (hhash : c ≠ '#') (goesOn : Bool) :
    OpensWith physical ((OpenLine.mk n line []).add (scanLine {} line).1 goesOn).first
      (joinWith [' '] ((OpenLine.mk n line []).add (scanLine {} line).1 goesOn).pieces) := by
  refine ⟨line, c, by rwa [OpenLine.first_add], hc, ?_⟩
  by_cases hslash : c = '\\'
  · exact .inl hslash
  have hblank : isBlank c = false := by
    have hhead := head?_dropWhile_not isBlank line
    rw [← trimStart, hc] at hhead
    simpa using hhead
  obtain ⟨more, hmore⟩ := head_trimStart_scanLine hc hhash
  have htrim : trim (scanLine {} line).1 = c :: trimEnd more := by
    rw [trim, hmore, trimEnd, dropEnd_cons hblank]
    rfl
  right
  rw [OpenLine.add, htrim]
  cases goesOn with
  | false => rfl
  | true =>
    rw [dropEnd_cons (by simpa using hslash), trimEnd, dropEnd_cons hblank]
    rfl

/-- The lines of code are opened with their first character, by induction on the physical
    lines. -/
theorem opensWith_of_mem_groupLines (hlines : ∀ i, lines[i]? = physical[n - 1 + i]?) (hn : 1 ≤ n)
    (hcurrent : ∀ o ∈ current, OpensWith physical o.first (joinWith [' '] o.pieces))
    (hst : current = none → st = {}) :
    ∀ l ∈ groupLines st n current lines, isCode l → OpensWith physical l.first l.code := by
  induction lines generalizing st n current with
  | nil => simp [groupLines]
  | cons line rest ih =>
    have hline : physical[n - 1]? = some line := (hlines 0).symm
    have hrest : ∀ i, rest[i]? = physical[n + 1 - 1 + i]? := by
      intro i
      have hnext := hlines (i + 1)
      rw [getElem?_cons_succ] at hnext
      rw [hnext]
      congr 1
      omega
    -- The line that is open behind this one starts with its first character.
    have hopen : ∀ o, OpensWith physical o.first (joinWith [' '] o.pieces) →
        (current.getD ⟨n, line, []⟩).add (scanLine st line).1
          (continues (scanLine st line).1 (scanLine st line).2) = o →
        ∀ l ∈ groupLines st n current (line :: rest), isCode l →
          OpensWith physical l.first l.code := by
      intro o ho heq l hl hcode
      rw [groupLines] at hl
      dsimp only at hl
      rw [heq] at hl
      split at hl
      · exact ih hrest (Nat.le_succ_of_le hn) (by rintro _ ⟨⟩; exact ho) (fun h => by cases h) l hl
          hcode
      · next hclosed =>
        rcases mem_cons.1 hl with rfl | hl
        · exact ho
        · refine ih hrest (Nat.le_succ_of_le hn) (fun _ h => by cases h) (fun _ => ?_) l hl hcode
          cases rest with
          | nil => cases hl
          | cons next rest =>
            simp only [isEmpty_cons, Bool.not_false, Bool.and_true, Bool.or_eq_true,
              not_or] at hclosed
            obtain ⟨⟨htriple, hdepth⟩, -⟩ := hclosed
            generalize (scanLine st line).2 = after at htriple hdepth
            cases after
            simp_all
    cases current with
    | some o => exact hopen _ ((hcurrent o rfl).add _ _) rfl
    | none =>
      cases hst rfl
      by_cases hsays : saysNothing line
      · obtain ⟨quiet, hquiet, hgroup⟩ := groupLines_of_saysNothing hsays n rest
        intro l hl hcode
        rw [hgroup] at hl
        rcases mem_cons.1 hl with rfl | hl
        · cases hquiet.symm.trans hcode
        · exact ih hrest (Nat.le_succ_of_le hn) (fun _ h => by cases h) (fun _ => rfl) l hl hcode
      · obtain ⟨c, hc, hhash⟩ : ∃ c, (trimStart line).head? = some c ∧ c ≠ '#' := by
          rw [saysNothing] at hsays
          cases hhead : (trimStart line).head? with
          | none => simp [hhead] at hsays
          | some c => exact ⟨c, rfl, by simpa [hhead] using hsays⟩
        exact hopen _ (opensWith_first hline hc hhash _) rfl

theorem opensWith_of_mem_logicalLines (hl : l ∈ logicalLines physical) (hcode : isCode l) :
    OpensWith physical l.first l.code :=
  opensWith_of_mem_groupLines (by simp) (Nat.le_refl 1) (fun _ h => by cases h) (fun _ => rfl) l hl
    hcode

theorem head_of_docstring? {raw : List Char} (h : docstring? raw = some doc) :
    ∃ c, (trimStart raw).head? = some c ∧ (isStringMark c ∨ isQuote c) := by
  rw [docstring?] at h
  cases htext : trimStart raw with
  | nil => simp [htext] at h
  | cons c text =>
    refine ⟨c, rfl, ?_⟩
    cases hmark : isStringMark c with
    | true => exact .inl rfl
    | false =>
      rw [htext, takeWhile_cons_of_neg (by simp [hmark])] at h
      right
      rcases text with _ | ⟨b, _ | ⟨d, body⟩⟩
      · cases h
      · cases h
      · by_contra hquote
        simp [hquote] at h

/-- A line of code that is documentation starts with a quote, or with a letter that may stand
    before one. -/
theorem head_code_of_docstring? (hl : l ∈ logicalLines physical) (hcode : isCode l)
    (hdoc : docstring? ((Script.mk path physical).raw l) = some doc) :
    ∃ c, l.code.head? = some c ∧ (isStringMark c ∨ isQuote c) := by
  obtain ⟨line, c, hline, hc, hhead⟩ := opensWith_of_mem_logicalLines hl hcode
  have hfirst : 1 ≤ l.first := (tiles_logicalLines physical).first_ge l hl
  have hle : l.first ≤ l.last := (inSequence_logicalLines physical).2 l hl
  -- The text of the logical line starts with its first physical line.
  obtain ⟨tail, hraw⟩ : ∃ tail, (Script.mk path physical).raw l = line ++ tail := by
    have hget : (physical.take l.last)[l.first - 1]? = some line := by
      rw [getElem?_take_of_lt (by omega), hline]
    obtain ⟨hlt, hget⟩ := List.getElem?_eq_some_iff.1 hget
    rw [Script.raw, Script.excerpt, drop_eq_getElem_cons hlt, hget]
    cases (physical.take l.last).drop (l.first - 1 + 1) with
    | nil => exact ⟨[], (append_nil line).symm⟩
    | cons next rest => exact ⟨_, by rw [joinWith, append_assoc]; simp⟩
  have htrim : (trimStart (line ++ tail)).head? = some c := by
    rw [trimStart] at hc ⊢
    rw [dropWhile_append]
    split
    · next hempty => simp [List.isEmpty_iff.1 hempty] at hc
    · rw [head?_append, hc]
      rfl
  rw [hraw] at hdoc
  obtain ⟨d, hd, hmark⟩ := head_of_docstring? hdoc
  cases htrim.symm.trans hd
  rcases hhead with rfl | hhead
  · rcases hmark with hmark | hmark <;> cases hmark
  · exact ⟨c, hhead, hmark⟩

/-! ## Lines that declare functions -/

section

variable {header : DefHeader}

theorem head?_of_defHeader? {code : List Char} (h : defHeader? code = some header) :
    code.head? = some 'd' ∨ code.head? = some 'a' := by
  have hword : ∀ {w : String} {s rest : List Char}, w.toList ≠ [] → afterWord? w s = some rest →
      s.head? = w.toList.head? := by
    intro w s rest hw hafter
    obtain ⟨t, ht, -⟩ := Option.bind_eq_some_iff.1 hafter
    rw [strip?_eq_some_iff.1 ht, head?_append_of_ne_nil _ hw]
  rw [defHeader?] at h
  split at h
  · next hasync => exact .inr (hword (by decide) hasync)
  · obtain ⟨lead, hlead, -⟩ := Option.bind_eq_some_iff.1 h
    obtain ⟨rest, hdef, -⟩ := Option.map_eq_some_iff.1 hlead
    exact .inl (hword (by decide) hdef)

/-- Such a line is no decorator. -/
theorem kind_of_defHeader? (hl : l ∈ logicalLines physical) (h : defHeader? l.code = some header) :
    l.kind = .code := by
  rcases head?_of_defHeader? h with hhead | hhead
  · exact kind_of_mem_logicalLines hl hhead (by decide)
  · exact kind_of_mem_logicalLines hl hhead (by decide)

/-- Such a line is no documentation. -/
theorem ne_doc_of_defHeader? {block : List LogicalLine}
    (hblock : ∀ l ∈ block, l ∈ logicalLines physical) (h : defHeader? l.code = some header) :
    some l ≠ (docOf? ⟨path, physical⟩ block).map (·.1) := by
  intro heq
  obtain ⟨⟨x, doc⟩, hdoc, rfl⟩ := Option.map_eq_some_iff.1 heq.symm
  obtain ⟨line, hfind, hrest⟩ := Option.bind_eq_some_iff.1 hdoc
  obtain ⟨text, htext, hpair⟩ := Option.bind_eq_some_iff.1 hrest
  cases hpair
  obtain ⟨c, hc, hmark⟩ := head_code_of_docstring? (hblock _ (mem_of_find?_eq_some hfind))
    (find?_some hfind) htext
  rcases head?_of_defHeader? h with hhead | hhead
  all_goals
    cases hc.symm.trans hhead
    rcases hmark with hmark | hmark <;> cases hmark

end

end CodeAtlas.Python
