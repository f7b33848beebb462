import Mathlib.Data.List.Pairwise
import CodeAtlas.Proofs.Python.LogicalLine
import CodeAtlas.Python.Module

/-!
# Statements and their blocks

The lines of a module and those of a class are read in the same way. Some are passed over,
decorators are held, and every other line is a statement: it takes the decorators and, if it
is the head of a class or a function, the block below it. So what is read of lines is a list
of statements (`statementsIn`), and each of them declares a class, a function or a value, or
nothing that is listed.

Lines follow each other (`InSequence`), and decorators stand above what they are held for
(`Pending`). So statements follow each other, too: each ends before the next one starts, its
decorators included.

* `readModule_eq`, `membersOf_eq`: reading is to enter the statements;
* `foldl_enter_eq`, `classOf_eq`: what is entered of them;
* `sound_of_mem_statementsIn`: the lines of a statement;
* `le_firstLine_of_mem_statementsIn`, `lastLine_le_of_mem_statementsIn`: where statements stand;
* `pairwise_statementsIn`: statements follow each other;
* `outline_eq`: the outline of a module.
-/

namespace CodeAtlas.Python

open List Option Nat

variable {ls : List LogicalLine} (s : Script) {l : LogicalLine} {first next : Nat}

/-! ## Lines and decorators -/

/-- Each line ends before the next starts, and none before it starts itself. -/
def InSequence (ls : List LogicalLine) : Prop :=
  ls.Pairwise (fun a b => a.last < b.first) ∧ ∀ l ∈ ls, l.first ≤ l.last

theorem Tiles.first_ge {n m : Nat} (h : Tiles n m ls) : ∀ l ∈ ls, n ≤ l.first := by
  induction h with
  | nil =>
    intro l hl
    cases hl
  | cons hle _ ih =>
    refine forall_mem_cons.2 ⟨le_refl _, fun l hl => ?_⟩
    exact le_trans (le_trans hle (le_succ _)) (ih l hl)

theorem Tiles.le (h : Tiles first next ls) : first ≤ next := by
  induction h with
  | nil => exact le_refl _
  | cons hle _ ih => omega

theorem Tiles.last_lt (h : Tiles first next ls) : ∀ l ∈ ls, l.last < next := by
  induction h with
  | nil => simp
  | cons _ hrest ih => exact forall_mem_cons.2 ⟨hrest.le, ih⟩

theorem Tiles.inSequence {n m : Nat} (h : Tiles n m ls) : InSequence ls := by
  induction h with
  | nil => exact ⟨.nil, by simp⟩
  | cons hle hrest ih =>
    exact ⟨.cons hrest.first_ge ih.1, forall_mem_cons.2 ⟨hle, ih.2⟩⟩

theorem inSequence_logicalLines (physical : List (List Char)) :
    InSequence (logicalLines physical) :=
  (tiles_logicalLines physical).inSequence

theorem InSequence.sublist {ls' : List LogicalLine} (h : InSequence ls) (hsub : ls'.Sublist ls) :
    InSequence ls' :=
  ⟨h.1.sublist hsub, fun l hl => h.2 l (hsub.subset hl)⟩

/-- The decorators stand above the lines that are still to be read. -/
structure Pending (decorators : List Decorator) (ls : List LogicalLine) : Prop where
  lines : InSequence ls
  above : ∀ d ∈ decorators, ∀ l ∈ ls, d.line ≤ l.first

namespace Pending

variable {decorators : List Decorator} {l : LogicalLine} {rest : List LogicalLine}

theorem of_lines (h : InSequence ls) : Pending [] ls :=
  ⟨h, by simp⟩

theorem tail (h : Pending decorators (l :: rest)) : Pending decorators rest :=
  ⟨h.lines.sublist (sublist_cons_self ..), fun d hd x hx =>
    h.above d hd x (mem_cons_of_mem _ hx)⟩

theorem decorator (h : Pending decorators (l :: rest)) :
    Pending (decorators ++ [decoratorOf l]) rest := by
  refine ⟨h.tail.lines, forall_mem_append.2 ⟨h.tail.above, ?_⟩⟩
  refine forall_mem_singleton.2 fun x hx => ?_
  have hown : l.first ≤ l.last := h.lines.2 l mem_cons_self
  exact le_trans hown (le_of_lt ((pairwise_cons.1 h.lines.1).1 x hx))

theorem clear (h : Pending decorators (l :: rest)) : Pending [] rest :=
  of_lines h.tail.lines

end Pending

/-! ## Statements -/

/-- The line is the head of a class or a function. -/
def LogicalLine.opensBlock (l : LogicalLine) : Bool :=
  (classHeader? l.code).isSome || (defHeader? l.code).isSome

/-- The statements on the lines that `p` selects, apart from the first `skip` lines;
    `decorators` are held for the next one. -/
def statementsIn (p : LogicalLine → Bool) (skip : Nat) (decorators : List Decorator) :
    List LogicalLine → List Declared
  | [] => []
  | l :: rest =>
    match skip with
    | n + 1 => statementsIn p n decorators rest
    | 0 =>
      if !p l then statementsIn p 0 decorators rest
      else if l.kind = .decorator then statementsIn p 0 (decorators ++ [decoratorOf l]) rest
      else if l.opensBlock then
        ⟨l, blockOf l rest, decorators⟩ :: statementsIn p (blockOf l rest).length [] rest
      else ⟨l, [], []⟩ :: statementsIn p 0 [] rest

/-- The lines on which a module has its statements. -/
def LogicalLine.isTop (l : LogicalLine) : Bool :=
  l.isCode && l.indent = 0

/-- The lines on which a class has its statements, given its documentation and how far they
    are indented. -/
def LogicalLine.isMember (indent : Nat) (doc : Option LogicalLine) (l : LogicalLine) : Bool :=
  l.isCode && l.indent = indent && some l ≠ doc

/-- Enters a statement of a module. -/
def enter (s : Script) (o : Outline) (d : Declared) : Outline :=
  match classHeader? d.head.code, defHeader? d.head.code with
  | some header, _ => { o with types := o.types ++ [classOf s d header] }
  | none, some header => { o with functions := o.functions ++ [callableOf s d header none] }
  | none, none => addStatement s d.head o

/-- Enters a statement of a class. -/
def Members.enter (s : Script) (owner : String) (m : Members) (d : Declared) : Members :=
  match defHeader? d.head.code, classHeader? d.head.code with
  | some header, _ => m.addFunction s (callableOf s d header (some owner))
  | none, some _ => m
  | none, none => m.addField d.head

section

variable {p : LogicalLine → Bool} {decorators : List Decorator} {l : LogicalLine}
  {rest : List LogicalLine}

theorem statementsIn_pass (hp : p l = false) :
    statementsIn p 0 decorators (l :: rest) = statementsIn p 0 decorators rest := by
  rw [statementsIn, hp]
  rfl

theorem statementsIn_decorator (hp : p l) (hkind : l.kind = .decorator) :
    statementsIn p 0 decorators (l :: rest) =
      statementsIn p 0 (decorators ++ [decoratorOf l]) rest := by
  rw [statementsIn, hp, if_neg (by decide), if_pos hkind]

theorem statementsIn_head (hp : p l) (hkind : l.kind ≠ .decorator)
    (hopens : l.opensBlock) :
    statementsIn p 0 decorators (l :: rest) =
      ⟨l, blockOf l rest, decorators⟩ :: statementsIn p (blockOf l rest).length [] rest := by
  rw [statementsIn, hp, if_neg (by decide), if_neg hkind, if_pos hopens]

theorem statementsIn_plain (hp : p l) (hkind : l.kind ≠ .decorator)
    (hopens : l.opensBlock = false) :
    statementsIn p 0 decorators (l :: rest) = ⟨l, [], []⟩ :: statementsIn p 0 [] rest := by
  rw [statementsIn, hp, if_neg hkind, hopens]
  rfl

end

theorem LogicalLine.isTop_iff : l.isTop ↔ ¬ (!l.isCode || l.indent > 0) := by
  simp [isTop]

theorem LogicalLine.isMember_iff {indent : Nat} {doc : Option LogicalLine} :
    l.isMember indent doc ↔ ¬ (!l.isCode || l.indent ≠ indent || some l = doc) := by
  simp [isMember]

theorem readModule_eq (skip : Nat) (decorators : List Decorator) (o : Outline)
    (ls : List LogicalLine) :
    readModule s skip decorators o ls =
      (statementsIn LogicalLine.isTop skip decorators ls).foldl (enter s) o := by
  fun_induction readModule s skip decorators o ls with
  | case1 => rfl
  | case2 _ _ _ _ _ ih => exact ih
  | case3 _ _ l _ hpass ih =>
    have hnot : l.isTop = false := by
      rw [← Bool.not_eq_true, LogicalLine.isTop_iff, not_not]
      exact hpass
    rw [ih, statementsIn_pass hnot]
  | case4 _ _ _ _ htop hkind ih =>
    rw [ih, statementsIn_decorator (LogicalLine.isTop_iff.2 htop) hkind]
  | case5 _ _ _ _ htop hkind _ _ hclass _ ih =>
    rw [ih, statementsIn_head (LogicalLine.isTop_iff.2 htop) hkind
      (by simp [LogicalLine.opensBlock, hclass]), foldl_cons, enter, hclass]
  | case6 _ _ _ _ htop hkind _ _ hdef hclass _ ih =>
    rw [ih, statementsIn_head (LogicalLine.isTop_iff.2 htop) hkind
      (by simp [LogicalLine.opensBlock, hdef]), foldl_cons, enter, hclass, hdef]
  | case7 _ _ _ _ htop hkind hclass hdef ih =>
    rw [ih, statementsIn_plain (LogicalLine.isTop_iff.2 htop) hkind
      (by simp [LogicalLine.opensBlock, hclass, hdef]), foldl_cons, enter, hclass, hdef]

theorem readMembers_eq (owner : String) (indent : Nat) (doc : Option LogicalLine) (skip : Nat)
    (decorators : List Decorator) (m : Members) (ls : List LogicalLine) :
    readMembers s owner indent doc skip decorators m ls =
      (statementsIn (LogicalLine.isMember indent doc) skip decorators ls).foldl
        (Members.enter s owner) m := by
  fun_induction readMembers s owner indent doc skip decorators m ls with
  | case1 => rfl
  | case2 _ _ _ _ _ ih => exact ih
  | case3 _ _ l _ hpass ih =>
    have hnot : l.isMember indent doc = false := by
      rw [← Bool.not_eq_true, LogicalLine.isMember_iff, not_not]
      exact hpass
    rw [ih, statementsIn_pass hnot]
  | case4 _ _ _ _ hmember hkind ih =>
    rw [ih, statementsIn_decorator (LogicalLine.isMember_iff.2 hmember) hkind]
  | case5 _ _ _ _ hmember hkind _ _ hdef _ ih =>
    rw [ih, statementsIn_head (LogicalLine.isMember_iff.2 hmember) hkind
      (by simp [LogicalLine.opensBlock, hdef]), foldl_cons, Members.enter, hdef]
  | case6 _ _ _ _ hmember hkind _ _ hclass hdef ih =>
    rw [ih, statementsIn_head (LogicalLine.isMember_iff.2 hmember) hkind
      (by simp [LogicalLine.opensBlock, hclass]), foldl_cons, Members.enter, hdef, hclass]
  | case7 _ _ _ _ hmember hkind hdef hclass ih =>
    rw [ih, statementsIn_plain (LogicalLine.isMember_iff.2 hmember) hkind
      (by simp [LogicalLine.opensBlock, hclass, hdef]), foldl_cons, Members.enter, hdef,
      hclass]

/-- How far the statements of a block are indented: as far as the first. -/
def indentIn (block : List LogicalLine) : Nat :=
  ((block.find? (·.isCode)).map (·.indent)).getD 0

theorem statementsIn_eq_nil {p : LogicalLine → Bool} (h : ∀ l ∈ ls, p l = false)
    (decorators : List Decorator) : statementsIn p 0 decorators ls = [] := by
  induction ls with
  | nil => rfl
  | cons l rest ih =>
    obtain ⟨hl, hrest⟩ := forall_mem_cons.1 h
    rw [statementsIn_pass hl, ih hrest]

theorem membersOf_eq (owner : String) (doc : Option LogicalLine) (block : List LogicalLine) :
    membersOf s owner doc block =
      (statementsIn (LogicalLine.isMember (indentIn block) doc) 0 [] block).foldl
        (Members.enter s owner) {} := by
  rw [membersOf, indentIn]
  split
  · next first hfirst => rw [readMembers_eq, hfirst, map_some, getD_some]
  · next hnone =>
    -- There is no statement in the block.
    rw [statementsIn_eq_nil fun l hl => ?_, foldl_nil]
    rw [LogicalLine.isMember, Bool.eq_false_iff.2 (find?_eq_none.1 hnone l hl)]
    rfl

/-! ## What statements declare -/

/-- The class that a statement declares. -/
def Declared.class? (s : Script) (d : Declared) : Option TypeDef :=
  (classHeader? d.head.code).map (classOf s d)

/-- The function that a statement of a module declares. -/
def Declared.function? (s : Script) (d : Declared) : Option Callable :=
  if (classHeader? d.head.code).isSome then none
  else (defHeader? d.head.code).map (callableOf s d · none)

/-- The value that a statement of a module makes. -/
def Declared.value? (s : Script) (d : Declared) : Option Binding :=
  if d.head.opensBlock || (imports? d.head.code).isSome then none else bindingOf? s d.head

/-- The value is listed as a constant. -/
def isConstant (b : Binding) : Bool :=
  isConstantName b.name.toList

/-- The imports that a statement of a module makes. -/
def Declared.imports (d : Declared) : Imports :=
  if d.head.opensBlock then [] else (imports? d.head.code).getD []

theorem enter_eq (o : Outline) (d : Declared) :
    enter s o d =
      { o with
        imports := o.imports ++ d.imports
        functions := o.functions ++ (d.function? s).toList
        types := o.types ++ (d.class? s).toList
        constants := o.constants ++ (d.value? s).toList.filter isConstant
        vars := o.vars ++ (d.value? s).toList.filter (!isConstant ·) } := by
  rw [enter, Declared.imports, Declared.function?, Declared.class?, Declared.value?,
    LogicalLine.opensBlock]
  cases hclass : classHeader? d.head.code with
  | some header => simp
  | none =>
    cases hdef : defHeader? d.head.code with
    | some header => simp
    | none =>
      rw [addStatement]
      cases himports : imports? d.head.code with
      | some imports => simp
      | none =>
        cases hb : bindingOf? s d.head with
        | none => simp
        | some b => cases hname : isConstant b <;> simp_all [isConstant]

/-- What is entered of the statements of a module. -/
theorem foldl_enter_eq (o : Outline) (ds : List Declared) :
    ds.foldl (enter s) o =
      { o with
        imports := o.imports ++ ds.flatMap Declared.imports
        functions := o.functions ++ ds.filterMap (·.function? s)
        types := o.types ++ ds.filterMap (·.class? s)
        constants := o.constants ++ (ds.filterMap (·.value? s)).filter isConstant
        vars := o.vars ++ (ds.filterMap (·.value? s)).filter (!isConstant ·) } := by
  induction ds generalizing o with
  | nil => simp
  | cons d ds ih =>
    have hcons : ∀ {α : Type} (f : Declared → Option α),
        (d :: ds).filterMap f = (f d).toList ++ ds.filterMap f := by
      intro α f
      cases hf : f d <;> simp [hf]
    rw [foldl_cons, ih, enter_eq]
    simp [hcons]

/-- An accessor: the property that it belongs to, what it does with it, and the function. -/
structure Accessor where
  property : String
  access : Access
  function : Callable

/-- The function as an accessor, if its decorators make it one. -/
def accessor? (f : Callable) : Option Accessor :=
  (accessOf? f.decorators).map fun (access, name) => ⟨name.getD f.name, access, f⟩

/-- The function that a statement of a class declares. -/
def functionOf? (s : Script) (owner : String) (d : Declared) : Option Callable :=
  (defHeader? d.head.code).map (callableOf s d · (some owner))

/-- The property with one more accessor. -/
def Accessor.addTo (s : Script) (a : Accessor) (p : Property) : Property :=
  Property.withAccessor s a.access a.function p

/-- The property that an accessor makes if there is none of its name. -/
def Accessor.fresh (s : Script) (a : Accessor) : Property :=
  a.addTo s { name := a.property, filePath := s.path, span := a.function.span,
              signature := "@property " ++ a.property, code := "" }

/-- Merges an accessor into the properties. -/
def merge (s : Script) (ps : List Property) (a : Accessor) : List Property :=
  mergeAccessor s a.property a.access a.function ps

/-- What an accessor makes of a property that has `Q`, or of none, keeps `Q`. -/
theorem forall_mem_foldl_merge {s : Script} {Q : Property → Prop} {as : List Accessor}
    (hfresh : ∀ a ∈ as, Q (a.fresh s)) (hadd : ∀ a ∈ as, ∀ p, Q p → Q (a.addTo s p)) :
    ∀ p ∈ as.foldl (merge s) [], Q p := by
  refine List.foldlRecOn (motive := fun ps : List Property => ∀ p ∈ ps, Q p) as _ (by simp)
    fun ps hps a ha => ?_
  rw [merge]
  induction ps with
  | nil => exact forall_mem_singleton.2 (hfresh a ha)
  | cons p ps ih =>
    obtain ⟨hp, hps⟩ := forall_mem_cons.1 hps
    rw [mergeAccessor]
    split
    · exact forall_mem_cons.2 ⟨hadd a ha p hp, hps⟩
    · exact forall_mem_cons.2 ⟨hp, ih hps⟩

/-- The field that a statement of a class makes. -/
def Declared.field? (d : Declared) : Option Field :=
  if d.head.opensBlock then none
  else (assigned? d.head.code).map fun a =>
    { name := String.ofList a.name, type := String.ofList a.type, line := d.head.first }

/-- A statement of a class makes a field, or adds its function to the methods or to the
    properties, if it declares one. -/
theorem Members.enter_eq (owner : String) (m : Members) (d : Declared) :
    m.enter s owner d =
      { fields := m.fields ++ d.field?.toList
        methods := m.methods ++ (functionOf? s owner d).toList.filter (accessor? · |>.isNone)
        properties :=
          ((functionOf? s owner d).bind accessor?).toList.foldl (merge s) m.properties } := by
  rw [enter, functionOf?, Declared.field?, LogicalLine.opensBlock]
  cases hdef : defHeader? d.head.code with
  | none =>
    cases classHeader? d.head.code with
    | some header => simp
    | none =>
      rw [addField]
      cases assigned? d.head.code <;> simp
  | some header =>
    simp only [addFunction, map_some, accessor?, bind_some]
    generalize callableOf s d header (some owner) = f
    cases haccess : accessOf? f.decorators with
    | none => simp [haccess]
    | some access => simp [haccess, merge]

theorem Members.foldl_enter_eq (owner : String) (m : Members) (ds : List Declared) :
    ds.foldl (Members.enter s owner) m =
      { fields := m.fields ++ ds.filterMap (·.field?)
        methods :=
          m.methods ++ (ds.filterMap (functionOf? s owner)).filter (accessor? · |>.isNone)
        properties :=
          ((ds.filterMap (functionOf? s owner)).filterMap accessor?).foldl (merge s)
            m.properties } := by
  induction ds generalizing m with
  | nil => simp
  | cons d ds ih =>
    rw [foldl_cons, ih, Members.enter_eq]
    cases hfield : d.field? <;> cases hf : functionOf? s owner d with
    | none => simp [hfield, hf]
    | some f => cases ha : accessor? f <;> simp [hfield, hf, ha]

/-- The statements in the body of a class. -/
def bodyOf (s : Script) (c : Declared) : List Declared :=
  statementsIn (LogicalLine.isMember (indentIn c.block) ((docOf? s c.block).map (·.1))) 0 [] c.block

/-- The functions of a class. -/
def functionsIn (s : Script) (owner : String) (c : Declared) : List Callable :=
  (bodyOf s c).filterMap (functionOf? s owner)

/-- The accessors among the functions of a class. -/
def accessorsIn (s : Script) (owner : String) (c : Declared) : List Accessor :=
  (functionsIn s owner c).filterMap accessor?

/-- The members of a class are what its statements make. -/
theorem classOf_eq (c : Declared) (header : ClassHeader) :
    (classOf s c header).fields = (bodyOf s c).filterMap (·.field?) ∧
      (classOf s c header).methods =
        (functionsIn s (String.ofList header.name) c).filter (accessor? · |>.isNone) ∧
      (classOf s c header).properties =
        (accessorsIn s (String.ofList header.name) c).foldl (merge s) [] := by
  have hmembers := (membersOf_eq s (String.ofList header.name) ((docOf? s c.block).map (·.1))
    c.block).trans (Members.foldl_enter_eq ..)
  exact ⟨congrArg Members.fields hmembers, congrArg Members.methods hmembers,
    congrArg Members.properties hmembers⟩

/-! ## The lines of statements -/

theorem blockOf_append_drop (l : LogicalLine) (rest : List LogicalLine) :
    blockOf l rest ++ rest.drop (blockOf l rest).length = rest :=
  prefix_iff_eq_append.1 (List.take_prefix ..)

/-- The last line of a declaration is that of its block, or its head. -/
theorem Declared.getLast?_lines (d : Declared) :
    (d.head :: d.block).getLast? = some (d.block.getLast?.getD d.head) :=
  getLast?_cons

theorem InSequence.last_le (h : InSequence ls) {y : LogicalLine} (hy : ls.getLast? = some y) :
    ∀ x ∈ ls, x.last ≤ y.last := by
  obtain ⟨before, rfl⟩ := getLast?_eq_some_iff.1 hy
  have hown : y.first ≤ y.last := h.2 y (by simp)
  intro x hx
  rcases mem_append.1 hx with hx | hx
  · have hbefore : x.last < y.first := (pairwise_append.1 h.1).2.2 x hx y (by simp)
    omega
  · rw [mem_singleton.1 hx]

/-- The lines of a statement follow each other: its decorators, its head, and its block. Only
    classes and functions have blocks and decorators. -/
structure Declared.Sound (d : Declared) : Prop where
  first_le : d.firstLine ≤ d.head.first
  lines : InSequence (d.head :: d.block)
  plain : d.head.opensBlock = false → d.block = [] ∧ d.decorators = []

namespace Declared.Sound

variable {d : Declared}

theorem head_le (h : d.Sound) : d.head.first ≤ d.head.last :=
  h.lines.2 d.head mem_cons_self

theorem le_lastLine (h : d.Sound) : ∀ x ∈ d.head :: d.block, x.last ≤ d.lastLine :=
  h.lines.last_le d.getLast?_lines

theorem firstLine_le (h : d.Sound) : d.firstLine ≤ d.lastLine :=
  le_trans h.first_le (le_trans h.head_le (h.le_lastLine d.head mem_cons_self))

/-- The block stands below the head, up to the end of the statement. -/
theorem block_between (h : d.Sound) :
    ∀ l ∈ d.block, d.head.first < l.first ∧ l.last ≤ d.lastLine := by
  intro l hl
  have hbelow : d.head.last < l.first := (pairwise_cons.1 h.lines.1).1 l hl
  exact ⟨lt_of_le_of_lt h.head_le hbelow, h.le_lastLine l (mem_cons_of_mem _ hl)⟩

end Declared.Sound

section

variable {p : LogicalLine → Bool} {skip n m : Nat} {decorators : List Decorator}
  {ls rest : List LogicalLine} {l : LogicalLine}

theorem Pending.sound_head (h : Pending decorators (l :: rest)) (hopens : l.opensBlock) :
    Declared.Sound ⟨l, blockOf l rest, decorators⟩ := by
  refine ⟨?_, h.lines.sublist ((take_sublist ..).cons_cons l), fun hnot => ?_⟩
  rotate_left
  · cases hopens.symm.trans hnot
  cases decorators with
  | nil => exact le_refl _
  | cons d ds => exact h.above d mem_cons_self l mem_cons_self

theorem Pending.sound_plain (h : Pending decorators (l :: rest)) :
    Declared.Sound ⟨l, [], []⟩ :=
  ⟨le_refl _, h.lines.sublist ((nil_sublist rest).cons_cons l), fun _ => ⟨rfl, rfl⟩⟩

theorem sound_of_mem_statementsIn (h : Pending decorators ls) :
    ∀ d ∈ statementsIn p skip decorators ls, d.Sound := by
  fun_induction statementsIn p skip decorators ls with
  | case1 => simp
  | case2 _ _ _ _ ih => exact ih h.tail
  | case3 _ _ _ _ ih => exact ih h.tail
  | case4 _ _ _ _ _ ih => exact ih h.decorator
  | case5 _ _ _ _ _ hopens ih =>
    exact forall_mem_cons.2 ⟨h.sound_head hopens, ih h.clear⟩
  | case6 _ _ _ _ _ _ ih => exact forall_mem_cons.2 ⟨h.sound_plain, ih h.clear⟩

/-- The lines of a statement are some of those that are read. -/
theorem subset_of_mem_statementsIn :
    ∀ d ∈ statementsIn p skip decorators ls, d.head :: d.block ⊆ ls := by
  fun_induction statementsIn p skip decorators ls with
  | case1 => simp
  | case2 _ _ _ _ ih => exact fun d hd => subset_cons_of_subset _ (ih d hd)
  | case3 _ _ _ _ ih => exact fun d hd => subset_cons_of_subset _ (ih d hd)
  | case4 _ _ _ _ _ ih => exact fun d hd => subset_cons_of_subset _ (ih d hd)
  | case5 _ l rest _ _ _ ih =>
    exact forall_mem_cons.2
      ⟨cons_subset_cons l (take_subset ..), fun d hd => subset_cons_of_subset _ (ih d hd)⟩
  | case6 _ l _ _ _ _ ih =>
    exact forall_mem_cons.2
      ⟨cons_subset_cons l (nil_subset _), fun d hd => subset_cons_of_subset _ (ih d hd)⟩

theorem mem_of_mem_block :
    ∀ d ∈ statementsIn p skip decorators ls, ∀ l ∈ d.block, l ∈ ls :=
  fun d hd _ hl => subset_of_mem_statementsIn d hd (mem_cons_of_mem _ hl)

/-- Statements start no earlier than the decorators and the lines that they are made of. -/
theorem le_firstLine_of_mem_statementsIn (hdecorators : ∀ d ∈ decorators, n ≤ d.line)
    (hls : ∀ l ∈ ls.drop skip, n ≤ l.first) :
    ∀ d ∈ statementsIn p skip decorators ls, n ≤ d.firstLine := by
  fun_induction statementsIn p skip decorators ls with
  | case1 => simp
  | case2 _ _ _ _ ih => exact ih hdecorators hls
  | case3 _ _ _ _ ih => exact ih hdecorators (forall_mem_cons.1 hls).2
  | case4 _ l _ _ _ ih =>
    obtain ⟨hl, hrest⟩ := forall_mem_cons.1 hls
    exact ih (forall_mem_append.2 ⟨hdecorators, forall_mem_singleton.2 hl⟩) hrest
  | case5 decorators l rest _ _ _ ih =>
    obtain ⟨hl, hrest⟩ := forall_mem_cons.1 hls
    refine forall_mem_cons.2 ⟨?_, ih (by simp) fun x hx => hrest x (mem_of_mem_drop hx)⟩
    cases decorators with
    | nil => exact hl
    | cons d ds => exact hdecorators d mem_cons_self
  | case6 _ _ _ _ _ _ ih =>
    obtain ⟨hl, hrest⟩ := forall_mem_cons.1 hls
    exact forall_mem_cons.2 ⟨hl, ih (by simp) hrest⟩

theorem lastLine_le_of_mem_statementsIn (hls : ∀ l ∈ ls, l.last ≤ m) :
    ∀ d ∈ statementsIn p skip decorators ls, d.lastLine ≤ m :=
  fun d hd => hls _ (subset_of_mem_statementsIn d hd (mem_of_getLast? d.getLast?_lines))

/-- Each statement ends before the next one starts: what is read behind a block starts behind
    its last line. -/
theorem pairwise_statementsIn (h : Pending decorators ls) :
    (statementsIn p skip decorators ls).Pairwise fun d e => d.lastLine < e.firstLine := by
  fun_induction statementsIn p skip decorators ls with
  | case1 => exact .nil
  | case2 _ _ _ _ ih => exact ih h.tail
  | case3 _ _ _ _ ih => exact ih h.tail
  | case4 _ _ _ _ _ ih => exact ih h.decorator
  | case5 decorators l rest _ _ _ ih =>
    refine .cons (le_firstLine_of_mem_statementsIn (by simp) fun x hx => ?_) (ih h.clear)
    have hlast := mem_of_getLast? (Declared.getLast?_lines ⟨l, blockOf l rest, decorators⟩)
    have hlines : InSequence ((l :: blockOf l rest) ++ rest.drop (blockOf l rest).length) := by
      rw [cons_append, blockOf_append_drop]
      exact h.lines
    exact (pairwise_append.1 hlines.1).2.2 _ hlast x hx
  | case6 decorators l rest _ _ _ ih =>
    refine .cons (le_firstLine_of_mem_statementsIn (by simp) fun x hx => ?_) (ih h.clear)
    exact (pairwise_cons.1 h.lines.1).1 x hx

end

/-! ## Modules -/

/-- The statements of a module. -/
def statementsOf (physical : List (List Char)) : List Declared :=
  statementsIn LogicalLine.isTop 0 [] (logicalLines physical)

theorem pending_logicalLines (physical : List (List Char)) : Pending [] (logicalLines physical) :=
  .of_lines (inSequence_logicalLines physical)

/-- The statements of a module are on its lines. -/
theorem of_mem_statementsOf {physical : List (List Char)} {d : Declared}
    (hd : d ∈ statementsOf physical) :
    d.Sound ∧ 1 ≤ d.firstLine ∧ d.lastLine ≤ physical.length := by
  have htiles := tiles_logicalLines physical
  refine ⟨sound_of_mem_statementsIn (pending_logicalLines physical) d hd, ?_, ?_⟩
  · refine le_firstLine_of_mem_statementsIn (by simp) (fun l hl => ?_) d hd
    exact htiles.first_ge l (mem_of_mem_drop hl)
  · refine lastLine_le_of_mem_statementsIn (fun l hl => ?_) d hd
    exact Nat.lt_succ_iff.1 (htiles.last_lt l hl)

/-- A module is documented by one of its lines, if at all. -/
theorem addDoc_eq (ls : List LogicalLine) (o : Outline) :
    ∃ doc docFile docSpan, addDoc s ls o = { o with doc, docFile, docSpan } ∧
      (doc = o.doc ∧ docSpan = o.docSpan ∨
        ∃ l ∈ ls, docFile = s.path ∧ docSpan = Span.lines l.first l.last) := by
  rw [addDoc]
  split
  · next l doc hdoc =>
    obtain ⟨x, hx, hdoc⟩ := bind_eq_some_iff.1 hdoc
    obtain ⟨_, _, ⟨⟩⟩ := bind_eq_some_iff.1 hdoc
    split
    · exact ⟨_, _, _, rfl, .inr ⟨l, mem_of_find?_eq_some hx, rfl, rfl⟩⟩
    · exact ⟨_, _, _, rfl, .inl ⟨rfl, rfl⟩⟩
  · exact ⟨_, _, _, rfl, .inl ⟨rfl, rfl⟩⟩

/-- The outline of a module lists what its statements declare. -/
theorem outline_eq (path : String) (text : List Char) :
    let s : Script := ⟨Path.slashed path, Text.lines text⟩
    let ds := statementsOf (Text.lines text)
    ∃ imports doc docFile docSpan, outline path text =
      { language := .python
        path := s.path
        package := (Path.stem? path).getD ""
        doc, docFile, docSpan, imports
        functions := ds.filterMap (·.function? s)
        types := ds.filterMap (·.class? s)
        constants := (ds.filterMap (·.value? s)).filter isConstant
        vars := (ds.filterMap (·.value? s)).filter (!isConstant ·) } ∧
      (doc = "" ∧ docSpan = {} ∨ ∃ l ∈ logicalLines (Text.lines text),
        docFile = s.path ∧ docSpan = Span.lines l.first l.last) := by
  intro s ds
  obtain ⟨doc, docFile, docSpan, hdoc, hlines⟩ := addDoc_eq s (logicalLines s.physical)
    { language := .python, path := s.path, package := (Path.stem? path).getD "" }
  refine ⟨ds.flatMap Declared.imports, doc, docFile, docSpan,
    (readModule_eq s 0 [] _ _).trans ((foldl_enter_eq s _ ds).trans ?_), hlines⟩
  rw [hdoc]
  rfl

theorem mem_values_outline {path : String} {text : List Char} {b : Binding} :
    b ∈ (outline path text).constants ++ (outline path text).vars ↔
      ∃ d ∈ statementsOf (Text.lines text),
        d.value? ⟨Path.slashed path, Text.lines text⟩ = some b := by
  obtain ⟨_, _, _, _, h, -⟩ := outline_eq path text
  rw [h, List.mem_append, List.mem_filter, List.mem_filter]
  cases isConstant b <;> simp

theorem imports_outline (path : String) (text : List Char) :
    (outline path text).imports = (statementsOf (Text.lines text)).flatMap Declared.imports := by
  have hdoc : ∀ s ls o, (addDoc s ls o).imports = o.imports := by
    intro s ls o
    obtain ⟨_, _, _, h, -⟩ := addDoc_eq s ls o
    rw [h]
  rw [outline, readModule_eq, foldl_enter_eq]
  simp [hdoc, statementsOf]

end CodeAtlas.Python
