import CodeAtlas.Proofs.Python.Declared

/-!
# Comments and blank lines

Whatever is read of logical lines is read of those with code. The others belong to blocks at
most, where they are passed over again, and they are never the last line of one. So a statement
is what it is without them (`Declared.bare`), and so is an outline.

* `filter_blockOf`: the code of a block is a run of deeper lines of code;
* `map_bare_statementsIn`: statements;
* `callableOf_bare`, `classOf_bare`: what is made of a statement;
* `outline_eq_code`: the outline of a module.
-/

namespace CodeAtlas.Python

open List

variable {d : Declared}

open LogicalLine (isCode)

/-! ## Blocks -/

theorem isCode_getLast?_cons {l : LogicalLine} (hl : l.isCode) {ls : List LogicalLine}
    (hls : ∀ x ∈ ls.getLast?, isCode x) : ∀ x ∈ (l :: ls).getLast?, isCode x := by
  rw [getLast?_cons]
  rintro x ⟨⟩
  cases hlast : ls.getLast? with
  | none => exact hl
  | some y => exact hls y hlast

/-- The code of a block, and its last line. `quiet` are the lines since the last one that is
    known to belong to it. -/
theorem take_blockLengthFrom {indent : Nat} {quiet ls : List LogicalLine}
    (hquiet : ∀ l ∈ quiet, isCode l = false) :
    ((quiet ++ ls).take (blockLengthFrom indent quiet.length ls)).filter isCode =
        ((ls.filter isCode).takeWhile fun l => indent < l.indent) ∧
      ∀ x ∈ ((quiet ++ ls).take (blockLengthFrom indent quiet.length ls)).getLast?,
        isCode x := by
  induction ls generalizing quiet with
  | nil => exact ⟨rfl, by simp [blockLengthFrom]⟩
  | cons l rest ih =>
    rw [blockLengthFrom]
    cases hl : l.isCode with
    | false =>
      have hmore : ∀ x ∈ quiet ++ [l], isCode x = false :=
        forall_mem_append.2 ⟨hquiet, forall_mem_singleton.2 hl⟩
      have hrest := ih hmore
      rw [append_assoc, length_append] at hrest
      rw [filter_cons_of_neg (by simp [hl])]
      exact hrest
    | true =>
      rw [filter_cons_of_pos hl]
      by_cases hindent : l.indent ≤ indent
      · simp [hindent]
      · obtain ⟨hfilter, hlast⟩ := @ih [] (by simp)
        have htake : ∀ n, (quiet ++ l :: rest).take (quiet.length + 1 + n) =
            quiet ++ l :: rest.take n := fun n => by
          rw [Nat.add_assoc, take_length_add_append, Nat.add_comm 1, take_succ_cons]
        have hnone : quiet.filter isCode = [] := filter_eq_nil_iff.2 (by simpa using hquiet)
        rw [takeWhile_cons_of_pos (by simpa using hindent), ← hfilter]
        simp only [Bool.not_true, Bool.false_eq_true, if_false, hindent, htake]
        constructor
        · rw [filter_append, hnone, filter_cons_of_pos hl]
          rfl
        · rw [getLast?_append_of_ne_nil _ (cons_ne_nil _ _)]
          exact isCode_getLast?_cons hl hlast

/-- The code of a block is a run of lines of code that are indented further than its head. -/
theorem filter_blockOf_eq_takeWhile (head : LogicalLine) (below : List LogicalLine) :
    (blockOf head below).filter isCode =
      (below.filter isCode).takeWhile fun l => head.indent < l.indent :=
  (@take_blockLengthFrom head.indent [] below (by simp)).1

theorem filter_blockOf (head : LogicalLine) (below : List LogicalLine) :
    (blockOf head below).filter isCode = blockOf head (below.filter isCode) := by
  have hall : ∀ l ∈ blockOf head (below.filter isCode), isCode l := fun l hl =>
    (mem_filter.1 (mem_of_mem_take hl)).2
  rw [← filter_eq_self.2 hall, filter_blockOf_eq_takeWhile, filter_blockOf_eq_takeWhile,
    filter_filter]
  simp only [Bool.and_self]

/-! ## Statements -/

namespace Declared

/-- The declaration without the comments and blank lines in its block. -/
def bare (d : Declared) : Declared :=
  { d with block := d.block.filter isCode }

/-- The block ends in code, if there is one. -/
def EndsInCode (d : Declared) : Prop :=
  ∀ x ∈ d.block.getLast?, isCode x = true

theorem EndsInCode.getLast?_filter (h : d.EndsInCode) :
    (d.block.filter isCode).getLast? = d.block.getLast? := by
  cases hlast : d.block.getLast? with
  | none => rw [getLast?_eq_none_iff.1 hlast, filter_nil, getLast?_nil]
  | some x =>
    obtain ⟨before, hbefore⟩ := getLast?_eq_some_iff.1 hlast
    rw [hbefore, filter_append, filter_cons_of_pos (h x hlast)]
    exact getLast?_concat

theorem EndsInCode.lastLine_bare (h : d.EndsInCode) : d.bare.lastLine = d.lastLine :=
  congrArg (fun last => (last.getD d.head).last) h.getLast?_filter

theorem EndsInCode.span_bare (h : d.EndsInCode) : d.bare.span = d.span := by
  rw [span, h.lastLine_bare]
  rfl

theorem EndsInCode.code_bare (h : d.EndsInCode) (s : Script) : d.bare.code s = d.code s := by
  rw [code, h.lastLine_bare]
  rfl

end Declared

variable {p : LogicalLine → Bool} {skip : Nat} {decorators : List Decorator}
  {ls : List LogicalLine}

theorem endsInCode_of_mem_statementsIn :
    ∀ d ∈ statementsIn p skip decorators ls, d.EndsInCode := by
  fun_induction statementsIn p skip decorators ls with
  | case1 => simp
  | case2 _ _ _ _ ih => exact ih
  | case3 _ _ _ _ ih => exact ih
  | case4 _ _ _ _ _ ih => exact ih
  | case5 _ l rest _ _ _ ih =>
    exact forall_mem_cons.2 ⟨(@take_blockLengthFrom l.indent [] rest (by simp)).2, ih⟩
  | case6 _ _ _ _ _ _ ih => exact forall_mem_cons.2 ⟨by rintro x ⟨⟩, ih⟩

/-- Statements are read of the lines with code. -/
theorem map_bare_statementsIn (hp : ∀ l, p l → isCode l) :
    (statementsIn p skip decorators ls).map Declared.bare =
      statementsIn p ((ls.take skip).filter isCode).length decorators (ls.filter isCode) := by
  fun_induction statementsIn p skip decorators ls with
  | case1 => rfl
  | case2 decorators l rest n ih =>
    rw [ih, take_succ_cons]
    cases hl : l.isCode with
    | false => rw [filter_cons_of_neg (by simp [hl]), filter_cons_of_neg (by simp [hl])]
    | true =>
      rw [filter_cons_of_pos hl, filter_cons_of_pos hl]
      rfl
  | case3 decorators l rest hpass ih =>
    rw [ih]
    cases hl : l.isCode with
    | false => rw [filter_cons_of_neg (by simp [hl])]; rfl
    | true =>
      rw [filter_cons_of_pos hl]
      exact (statementsIn_pass (by simpa using hpass)).symm
  | case4 decorators l rest hselected hkind ih =>
    have hl : p l := by simpa using hselected
    rw [ih, filter_cons_of_pos (hp l hl)]
    exact (statementsIn_decorator hl hkind).symm
  | case5 decorators l rest hselected hkind hopens ih =>
    have hl : p l := by simpa using hselected
    have hblock : rest.take (blockOf l rest).length = blockOf l rest :=
      prefix_iff_eq_take.1 (List.take_prefix ..) |>.symm
    rw [map_cons, ih, hblock, filter_cons_of_pos (hp l hl)]
    refine Eq.trans ?_ (statementsIn_head hl hkind hopens).symm
    rw [Declared.bare, filter_blockOf]
  | case6 decorators l rest hselected hkind hopens ih =>
    have hl : p l := by simpa using hselected
    rw [map_cons, ih, filter_cons_of_pos (hp l hl)]
    exact (statementsIn_plain hl hkind (by simpa using hopens)).symm

/-! ## Symbols -/

theorem find?_filter_isCode (block : List LogicalLine) :
    (block.filter isCode).find? isCode = block.find? isCode := by
  rw [← head?_filter, filter_filter, ← head?_filter]
  simp only [Bool.and_self]

theorem docOf?_filter (s : Script) (block : List LogicalLine) :
    docOf? s (block.filter isCode) = docOf? s block := by
  rw [docOf?, docOf?, find?_filter_isCode]

theorem callableOf_bare (h : d.EndsInCode) (s : Script) (header : DefHeader)
    (owner : Option String) :
    callableOf s d.bare header owner = callableOf s d header owner := by
  have hdoc : docOf? s d.bare.block = docOf? s d.block := docOf?_filter s d.block
  have hstatements : ∀ doc : Option LogicalLine,
      d.bare.block.filter (fun l => l.kind = .code && some l ≠ doc) =
        d.block.filter (fun l => l.kind = .code && some l ≠ doc) := by
    intro doc
    rw [Declared.bare, filter_filter]
    refine filter_congr fun l _ => ?_
    cases hkind : l.kind <;> simp [LogicalLine.isCode, hkind]
  rw [callableOf]
  simp only [hdoc, hstatements, h.span_bare, h.code_bare]
  rfl

theorem members_enter_bare (h : d.EndsInCode) (s : Script) (owner : String) (m : Members) :
    m.enter s owner d.bare = m.enter s owner d := by
  rw [Members.enter]
  simp only [callableOf_bare h]
  rfl

/-- What is entered of statements is entered of them without their comments. -/
theorem foldl_map_bare {α : Type} {add : α → Declared → α}
    (hadd : ∀ a (d : Declared), d.EndsInCode → add a d.bare = add a d) {ds : List Declared}
    (hds : ∀ d ∈ ds, d.EndsInCode) (a : α) :
    (ds.map Declared.bare).foldl add a = ds.foldl add a := by
  induction ds generalizing a with
  | nil => rfl
  | cons d ds ih =>
    obtain ⟨hd, hds⟩ := forall_mem_cons.1 hds
    rw [map_cons, foldl_cons, foldl_cons, hadd a d hd, ih hds]

theorem membersOf_filter (s : Script) (owner : String) (doc : Option LogicalLine)
    (block : List LogicalLine) :
    membersOf s owner doc (block.filter isCode) = membersOf s owner doc block := by
  have hindent : indentIn (block.filter isCode) = indentIn block := by
    rw [indentIn, indentIn, find?_filter_isCode]
  have hcode : ∀ indent (l : LogicalLine), l.isMember indent doc → l.isCode := by
    intro indent l hl
    simp only [LogicalLine.isMember, Bool.and_eq_true] at hl
    exact hl.1.1
  have hstatements := @map_bare_statementsIn _ 0 [] block (hcode (indentIn block))
  rw [membersOf_eq, membersOf_eq, hindent]
  rw [take_zero, filter_nil, length_nil] at hstatements
  rw [← hstatements]
  exact foldl_map_bare (fun m d hd => members_enter_bare hd s owner m)
    endsInCode_of_mem_statementsIn {}

theorem classOf_bare (h : d.EndsInCode) (s : Script) (header : ClassHeader) :
    classOf s d.bare header = classOf s d header := by
  have hdoc : docOf? s d.bare.block = docOf? s d.block := docOf?_filter s d.block
  have hmembers : ∀ owner doc, membersOf s owner doc d.bare.block = membersOf s owner doc d.block :=
    fun owner doc => membersOf_filter s owner doc d.block
  rw [classOf]
  simp only [hdoc, hmembers, h.span_bare, h.code_bare]
  rfl

theorem enter_bare (h : d.EndsInCode) (s : Script) (o : Outline) :
    enter s o d.bare = enter s o d := by
  rw [enter]
  simp only [classOf_bare h, callableOf_bare h]
  rfl

/-! ## Modules -/

/-- The outline that is read of logical lines. -/
def outlineOf (s : Script) (package : String) (ls : List LogicalLine) : Outline :=
  (statementsIn LogicalLine.isTop 0 [] ls).foldl (enter s)
    (addDoc s ls { language := .python, path := s.path, package })

/-- An outline is that of the lines with code. -/
theorem outline_eq_code (path : String) (text : List Char) :
    outline path text =
      outlineOf ⟨Path.slashed path, Text.lines text⟩ ((Path.stem? path).getD "")
        ((logicalLines (Text.lines text)).filter isCode) := by
  have hcode : ∀ l : LogicalLine, l.isTop → l.isCode := by
    intro l hl
    simp only [LogicalLine.isTop, Bool.and_eq_true] at hl
    exact hl.1
  have hstatements := @map_bare_statementsIn _ 0 [] (logicalLines (Text.lines text)) hcode
  rw [take_zero, filter_nil, length_nil] at hstatements
  rw [outline, readModule_eq, outlineOf, ← hstatements,
    foldl_map_bare (fun o d hd => enter_bare hd _ o) endsInCode_of_mem_statementsIn, addDoc, addDoc,
    docOf?_filter]

end CodeAtlas.Python
