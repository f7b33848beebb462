import Mathlib.Order.Monotone.Basic
import Mathlib.Order.MinMax
import CodeAtlas.Proofs.Python.Comment

/-!
# Lines under other numbers

What is read of lines depends on their numbers in one way only: symbols tell on which lines
they stand. So if the lines of a module get other numbers that keep their order, the symbols
are the same with the new numbers, apart from the text between their lines. This is seen from
the inside out, as every function commutes with the change of numbers.

* `Outline.sketch`: what an outline tells, under other numbers and without the text of its
  symbols;
* `statementsIn_renumber`: statements;
* `sketch_callableOf`, `sketch_withAccessor`, `sketch_classOf`: symbols;
* `sketch_outlineOf`: the outline of lines.
-/

namespace CodeAtlas

open List

/-! ## Sketches -/

section

variable (σ : Nat → Nat)

/-- The same lines under other numbers. -/
def Span.renumber (s : Span) : Span :=
  ⟨σ s.startLine, σ s.endLine, σ s.nameStart, σ s.nameEnd⟩

/-- The call under another line number. -/
def CallSite.renumber (c : CallSite) : CallSite :=
  { c with line := σ c.line }

/-- The field under another line number. -/
def Field.renumber (f : Field) : Field :=
  { f with line := σ f.line }

/-- What is told of a function, under other line numbers, but not its text. -/
def Callable.sketch (f : Callable) : Callable :=
  { f with span := f.span.renumber σ, code := "", bodyCalls := f.bodyCalls.map (.renumber σ) }

/-- What is told of a property, under other line numbers, but not its text. -/
def Property.sketch (p : Property) : Property :=
  { p with span := p.span.renumber σ, code := "" }

/-- What is told of a value, under other line numbers, but not its text. -/
def Binding.sketch (b : Binding) : Binding :=
  { b with span := b.span.renumber σ, code := "" }

/-- What is told of a type and its members, under other line numbers, but not their text. -/
def TypeDef.sketch (t : TypeDef) : TypeDef :=
  { t with
    span := t.span.renumber σ
    code := ""
    fields := t.fields.map (.renumber σ)
    methods := t.methods.map (.sketch σ)
    properties := t.properties.map (.sketch σ)
    constants := t.constants.map (.sketch σ) }

/-- What is told of a section, under other line numbers, but not its text. -/
def Section.sketch (s : Section) : Section :=
  { s with span := s.span.renumber σ, code := "" }

/-- What an outline tells, under other line numbers, but not the text of its symbols. -/
def Outline.sketch (o : Outline) : Outline :=
  { o with
    docSpan := o.docSpan.renumber σ
    functions := o.functions.map (.sketch σ)
    types := o.types.map (.sketch σ)
    constants := o.constants.map (.sketch σ)
    vars := o.vars.map (.sketch σ)
    sections := o.sections.map (.sketch σ) }

end

variable {σ : Nat → Nat}

theorem Span.renumber_lines (hσ : Monotone σ) (start stop : Nat) :
    (Span.lines start stop).renumber σ = Span.lines (σ start) (σ stop) := by
  simp [lines, renumber, hσ.map_max]

theorem Span.renumber_withName (hσ : Monotone σ) (s : Span) (start stop : Nat) :
    (s.withName start stop).renumber σ = (s.renumber σ).withName (σ start) (σ stop) := by
  simp [withName, renumber, hσ.map_max]

namespace Python

/-! ## Statements -/

section

variable (σ : Nat → Nat)

/-- The same line under other numbers. -/
def LogicalLine.renumber (l : LogicalLine) : LogicalLine :=
  { l with first := σ l.first, last := σ l.last }

/-- The decorator under another line number. -/
def Decorator.renumber (d : Decorator) : Decorator :=
  { d with line := σ d.line }

/-- The declaration under other line numbers. -/
def Declared.renumber (d : Declared) : Declared :=
  ⟨d.head.renumber σ, d.block.map (.renumber σ), d.decorators.map (.renumber σ)⟩

end

theorem LogicalLine.renumber_injective (hσ : Function.Injective σ) :
    Function.Injective (LogicalLine.renumber σ) := by
  rintro ⟨first, last, indent, kind, code⟩ ⟨first', last', indent', kind', code'⟩ h
  simp only [renumber, LogicalLine.mk.injEq] at h ⊢
  exact ⟨hσ h.1, hσ h.2.1, h.2.2⟩

theorem blockLengthFrom_renumber (indent passed : Nat) (ls : List LogicalLine) :
    blockLengthFrom indent passed (ls.map (.renumber σ)) = blockLengthFrom indent passed ls := by
  fun_induction blockLengthFrom indent passed ls with
  | case1 => rfl
  | case2 passed l rest hquiet ih =>
    rw [map_cons, blockLengthFrom, ih]
    exact if_pos hquiet
  | case3 passed l rest hcode hindent =>
    exact (if_neg hcode).trans (if_pos hindent)
  | case4 passed l rest hcode hindent ih =>
    rw [map_cons, blockLengthFrom, ih]
    exact (if_neg hcode).trans (if_neg hindent)

theorem blockOf_renumber (head : LogicalLine) (below : List LogicalLine) :
    blockOf (head.renumber σ) (below.map (.renumber σ)) =
      (blockOf head below).map (.renumber σ) := by
  rw [blockOf, blockOf, blockLengthFrom_renumber, map_take]
  rfl

theorem statementsIn_renumber {p p' : LogicalLine → Bool} (hp : ∀ l, p' (l.renumber σ) = p l)
    (skip : Nat) (decorators : List Decorator) (ls : List LogicalLine) :
    statementsIn p' skip (decorators.map (.renumber σ)) (ls.map (.renumber σ)) =
      (statementsIn p skip decorators ls).map (.renumber σ) := by
  fun_induction statementsIn p skip decorators ls with
  | case1 => rfl
  | case2 decorators l rest n ih => exact ih
  | case3 decorators l rest hpass ih =>
    exact (statementsIn_pass ((hp l).trans (by simpa using hpass))).trans ih
  | case4 decorators l rest hselected hkind ih =>
    rw [map_append] at ih
    exact (statementsIn_decorator ((hp l).trans (by simpa using hselected)) hkind).trans ih
  | case5 decorators l rest hselected hkind hopens ih =>
    refine (statementsIn_head ((hp l).trans (by simpa using hselected)) hkind hopens).trans ?_
    rw [blockOf_renumber, length_map, map_cons, ← ih]
    rfl
  | case6 decorators l rest hselected hkind hopens ih =>
    have hplain : l.opensBlock = false := by simpa using hopens
    refine (statementsIn_plain ((hp l).trans (by simpa using hselected)) hkind hplain).trans ?_
    rw [map_cons, ← ih]
    rfl

theorem Declared.firstLine_renumber (d : Declared) : (d.renumber σ).firstLine = σ d.firstLine := by
  obtain ⟨head, block, decorators⟩ := d
  cases decorators <;> rfl

theorem Declared.lastLine_renumber (d : Declared) : (d.renumber σ).lastLine = σ d.lastLine := by
  rw [lastLine, lastLine, renumber, getLast?_map]
  cases d.block.getLast? <;> rfl

theorem Declared.span_renumber (hσ : Monotone σ) (d : Declared) :
    (d.renumber σ).span = d.span.renumber σ := by
  rw [span, span, Span.renumber_withName hσ, Span.renumber_lines hσ, firstLine_renumber,
    lastLine_renumber]
  rfl

theorem Declared.decorators_renumber (d : Declared) :
    (d.renumber σ).decorators.map (·.text) = d.decorators.map (·.text) := by
  rw [renumber, map_map]
  rfl

/-! ## Symbols -/

variable {s s' : Script} {block ls : List LogicalLine} {d : Declared}

theorem docOf?_renumber (hraw : ∀ l ∈ block, s'.raw (l.renumber σ) = s.raw l) :
    docOf? s' (block.map (.renumber σ)) =
      (docOf? s block).map fun doc => (doc.1.renumber σ, doc.2) := by
  have hfind : (block.map (.renumber σ)).find? (·.isCode) =
      (block.find? (·.isCode)).map (LogicalLine.renumber σ) := find?_map ..
  rw [docOf?, docOf?, hfind]
  cases hline : block.find? (·.isCode) with
  | none => rfl
  | some line =>
    simp only [Option.map_some, Option.bind_eq_bind, Option.bind_some,
      hraw line (mem_of_find?_eq_some hline)]
    cases docstring? (s.raw line) <;> rfl

theorem map_fst_renumber (doc : Option (LogicalLine × List Char)) :
    (doc.map fun doc => (doc.1.renumber σ, doc.2)).map (·.1) =
      (doc.map (·.1)).map (LogicalLine.renumber σ) := by
  cases doc <;> rfl

theorem renumber_eq_iff (hσ : Function.Injective σ) (l : LogicalLine) (doc : Option LogicalLine) :
    some (l.renumber σ) = doc.map (LogicalLine.renumber σ) ↔ some l = doc := by
  rw [← Option.map_some]
  exact (Option.map_injective (LogicalLine.renumber_injective hσ)).eq_iff

/-- The statements in a block, but for its documentation. -/
theorem filter_renumber (hσ : Function.Injective σ) (block : List LogicalLine)
    (doc : Option LogicalLine) :
    ((block.map (LogicalLine.renumber σ)).filter fun l =>
        l.kind = .code && some l ≠ doc.map (LogicalLine.renumber σ)) =
      (block.filter fun l => l.kind = .code && some l ≠ doc).map (LogicalLine.renumber σ) := by
  rw [filter_map]
  refine congrArg (List.map _) (filter_congr fun l _ => ?_)
  simp only [Function.comp_apply, ne_eq, renumber_eq_iff hσ]
  rfl

theorem sketch_callableOf (hσ : StrictMono σ) (hpath : s'.path = s.path)
    (hraw : ∀ l ∈ d.block, s'.raw (l.renumber σ) = s.raw l) (header : DefHeader)
    (owner : Option String) :
    (callableOf s' (d.renumber σ) header owner).sketch id =
      (callableOf s d header owner).sketch σ := by
  have hspan : (d.renumber σ).span.renumber id = d.span.renumber σ := d.span_renumber hσ.monotone
  have hblock : (d.renumber σ).block = d.block.map (LogicalLine.renumber σ) := rfl
  simp only [callableOf, Callable.sketch, hblock, docOf?_renumber hraw, map_fst_renumber,
    filter_renumber hσ.injective, flatMap_map, d.decorators_renumber, hspan, hpath]
  cases docOf? s d.block <;> rfl

/-! ## Members -/

/-- Of an accessor and a property, only what a sketch tells matters to the merged one's. -/
theorem sketch_withAccessor (hσ : Monotone σ) (access : Access) (f : Callable) (p : Property) :
    (Property.withAccessor s' access (f.sketch σ) (p.sketch σ)).sketch id =
      (Property.withAccessor s access f p).sketch σ := by
  have hreturns : (f.sketch σ).returns = f.returns := rfl
  cases access with
  | get =>
    simp only [Property.withAccessor, hreturns]
    cases f.returns <;>
      simp [Property.sketch, Callable.sketch, Span.renumber, hσ.map_min, hσ.map_max]
  | set =>
    simp [Property.withAccessor, Property.sketch, Callable.sketch, Span.renumber, hσ.map_min,
      hσ.map_max]
  | delete =>
    simp [Property.withAccessor, Property.sketch, Callable.sketch, Span.renumber, hσ.map_min,
      hσ.map_max]

theorem sketch_mergeAccessor (hσ : Monotone σ) (hpath : s'.path = s.path) (name : String)
    (access : Access) (f : Callable) (ps : List Property) :
    (mergeAccessor s' name access (f.sketch σ) (ps.map (Property.sketch σ))).map
        (Property.sketch id) =
      (mergeAccessor s name access f ps).map (Property.sketch σ) := by
  induction ps with
  | nil =>
    rw [map_nil, mergeAccessor, mergeAccessor, map_singleton, map_singleton,
      ← @sketch_withAccessor σ s s' hσ, hpath]
    rfl
  | cons p ps ih =>
    have hname : (p.sketch σ).name = p.name := rfl
    have hrest : (ps.map (Property.sketch σ)).map (Property.sketch id) =
        ps.map (Property.sketch σ) := map_map
    rw [map_cons, mergeAccessor, mergeAccessor, hname]
    split
    · rw [map_cons, map_cons, sketch_withAccessor hσ, hrest]
    · rw [map_cons, ih]
      rfl

/-- What is told of the members of a class, under other line numbers, but not their text. -/
def Members.sketch (σ : Nat → Nat) (m : Members) : Members :=
  ⟨m.fields.map (.renumber σ), m.methods.map (.sketch σ), m.properties.map (.sketch σ)⟩

theorem sketch_sketch_callable (f : Callable) : (f.sketch σ).sketch id = f.sketch σ := by
  simp only [Callable.sketch, map_map]
  rfl

namespace Members

variable (m : Members)

theorem sketch_sketch : (m.sketch σ).sketch id = m.sketch σ := by
  simp only [sketch, map_map, Function.comp_def, sketch_sketch_callable]
  rfl

theorem sketch_concat_fields (f : Field) :
    ({ m with fields := m.fields ++ [f] } : Members).sketch σ =
      { m.sketch σ with fields := (m.sketch σ).fields ++ [f.renumber σ] } := by
  simp [sketch]

theorem sketch_concat_methods (f : Callable) :
    ({ m with methods := m.methods ++ [f] } : Members).sketch σ =
      { m.sketch σ with methods := (m.sketch σ).methods ++ [f.sketch σ] } := by
  simp [sketch]

/-- Of members and a function, only what a sketch tells matters to that of all of them. -/
theorem sketch_addFunction (hσ : Monotone σ) (hpath : s'.path = s.path) (m : Members)
    (f : Callable) :
    ((m.sketch σ).addFunction s' (f.sketch σ)).sketch id = (m.addFunction s f).sketch σ := by
  have hdecorators : (f.sketch σ).decorators = f.decorators := rfl
  rw [addFunction, addFunction, hdecorators]
  split
  · next access name _ =>
    have hmerged := sketch_mergeAccessor hσ hpath (name.getD f.name) access f m.properties
    exact congrArg₂ (fun n ps => { n with properties := ps }) m.sketch_sketch hmerged
  · rw [sketch_concat_methods, sketch_concat_methods, sketch_sketch, sketch_sketch_callable]

/-- A statement of a class is entered in the same way under other numbers. -/
theorem sketch_enter (hσ : StrictMono σ) (hpath : s'.path = s.path) (owner : String)
    (hraw : ∀ l ∈ d.block, s'.raw (l.renumber σ) = s.raw l) {m m' : Members}
    (hm : m'.sketch id = m.sketch σ) :
    (m'.enter s' owner (d.renumber σ)).sketch id = (m.enter s owner d).sketch σ := by
  have hcode : (d.renumber σ).head.code = d.head.code := rfl
  rw [enter, enter, hcode]
  split
  · rw [← sketch_addFunction monotone_id rfl, hm, sketch_callableOf hσ hpath hraw,
      sketch_addFunction hσ.monotone hpath]
  · exact hm
  · rw [addField, addField, hcode]
    split
    · rw [sketch_concat_fields, sketch_concat_fields, hm]
      rfl
    · exact hm

end Members

/-- The statements on lines are entered in the same way under other numbers, if each is. -/
theorem foldl_renumber {α β : Type} {add add' : α → Declared → α} {sketch sketch' : α → β}
    {ds : List Declared}
    (hadd : ∀ d ∈ ds, ∀ a a', sketch' a' = sketch a →
      sketch' (add' a' (d.renumber σ)) = sketch (add a d))
    {a a' : α} (ha : sketch' a' = sketch a) :
    sketch' ((ds.map (Declared.renumber σ)).foldl add' a') = sketch (ds.foldl add a) := by
  rw [foldl_map]
  exact foldl_rel (r := fun a' a => sketch' a' = sketch a) ha
    fun d hd a' a ha => hadd d hd a a' ha

theorem sketch_membersOf (hσ : StrictMono σ) (hpath : s'.path = s.path) (owner : String)
    (doc : Option LogicalLine) (hraw : ∀ l ∈ block, s'.raw (l.renumber σ) = s.raw l) :
    (membersOf s' owner (doc.map (.renumber σ)) (block.map (.renumber σ))).sketch id =
      (membersOf s owner doc block).sketch σ := by
  have hindent : indentIn (block.map (LogicalLine.renumber σ)) = indentIn block := by
    rw [indentIn, find?_map, Option.map_map]
    rfl
  have hmember : ∀ l : LogicalLine,
      (l.renumber σ).isMember (indentIn block) (doc.map (LogicalLine.renumber σ)) =
        l.isMember (indentIn block) doc := by
    intro l
    simp only [LogicalLine.isMember, ne_eq, renumber_eq_iff hσ.injective]
    rfl
  rw [membersOf_eq, membersOf_eq, hindent]
  have hstatements := statementsIn_renumber hmember 0 [] block
  rw [map_nil] at hstatements
  rw [hstatements]
  refine foldl_renumber (fun d hd m m' hm => ?_) rfl
  exact Members.sketch_enter hσ hpath owner
    (fun l hl => hraw l (mem_of_mem_block d hd l hl)) hm

theorem sketch_classOf (hσ : StrictMono σ) (hpath : s'.path = s.path)
    (hraw : ∀ l ∈ d.block, s'.raw (l.renumber σ) = s.raw l) (header : ClassHeader) :
    (classOf s' (d.renumber σ) header).sketch id = (classOf s d header).sketch σ := by
  have hspan : (d.renumber σ).span.renumber id = d.span.renumber σ := d.span_renumber hσ.monotone
  have hblock : (d.renumber σ).block = d.block.map (LogicalLine.renumber σ) := rfl
  have hmembers := sketch_membersOf hσ hpath (String.ofList header.name)
    ((docOf? s d.block).map (·.1)) hraw
  simp only [classOf, TypeDef.sketch, hblock, docOf?_renumber hraw, map_fst_renumber,
    d.decorators_renumber, hspan, hpath]
  generalize membersOf s' _ _ _ = m' at hmembers ⊢
  generalize membersOf s _ _ _ = m at hmembers ⊢
  have hfields : m'.fields.map (Field.renumber id) = m.fields.map (Field.renumber σ) :=
    congrArg Members.fields hmembers
  have hmethods : m'.methods.map (Callable.sketch id) = m.methods.map (Callable.sketch σ) :=
    congrArg Members.methods hmembers
  have hproperties :
      m'.properties.map (Property.sketch id) = m.properties.map (Property.sketch σ) :=
    congrArg Members.properties hmembers
  -- The types that methods mention are told by their sketches.
  have hdeps : m'.methods.flatMap (·.typeDeps) = m.methods.flatMap (·.typeDeps) := by
    have h := congrArg (List.flatMap Callable.typeDeps) hmethods
    rwa [flatMap_map, flatMap_map] at h
  rw [hfields, hmethods, hproperties, hdeps]
  cases docOf? s d.block <;> rfl

theorem sketch_bindingOf? (hσ : Monotone σ) (hpath : s'.path = s.path) (l : LogicalLine) :
    (bindingOf? s' (l.renumber σ)).map (Binding.sketch id) =
      (bindingOf? s l).map (Binding.sketch σ) := by
  have hcode : (l.renumber σ).code = l.code := rfl
  simp only [bindingOf?, hcode, hpath]
  cases assigned? l.code with
  | none => rfl
  | some a =>
    simp only [Option.bind_eq_bind, Option.bind_some, Option.map_some, Option.pure_def,
      Binding.sketch, Span.renumber_lines hσ]
    rfl

/-! ## Modules -/

theorem sketch_enter_eq (s : Script) (o : Outline) (d : Declared) :
    (enter s o d).sketch σ =
      let u := o.sketch σ
      { u with
        imports := u.imports ++ d.imports
        functions := u.functions ++ ((d.function? s).map (.sketch σ)).toList
        types := u.types ++ ((d.class? s).map (.sketch σ)).toList
        constants := u.constants ++ ((d.value? s).map (.sketch σ)).toList.filter isConstant
        vars := u.vars ++ ((d.value? s).map (.sketch σ)).toList.filter (!isConstant ·) } := by
  have hfilter : ∀ p : Binding → Bool, (∀ b, p (b.sketch σ) = p b) →
      ((d.value? s).map (.sketch σ)).toList.filter p =
        ((d.value? s).toList.filter p).map (.sketch σ) := by
    intro p hp
    rw [Option.toList_map, filter_map]
    exact congrArg _ (filter_congr fun b _ => hp b)
  rw [enter_eq, hfilter _ fun _ => rfl, hfilter _ fun _ => rfl]
  simp [Outline.sketch, Option.toList_map]

section

variable (hσ : StrictMono σ) (hpath : s'.path = s.path)
  (hraw : ∀ l ∈ d.block, s'.raw (l.renumber σ) = s.raw l)

include hσ hpath

theorem sketch_value? :
    ((d.renumber σ).value? s').map (.sketch id) = (d.value? s).map (Binding.sketch σ) := by
  have hhead : (d.renumber σ).head = d.head.renumber σ := rfl
  rw [Declared.value?, Declared.value?, hhead]
  split
  · next h => rw [if_pos (by exact h)]; rfl
  · next h => rw [if_neg (by exact h), sketch_bindingOf? hσ.monotone hpath]

include hraw

theorem sketch_class? :
    ((d.renumber σ).class? s').map (.sketch id) = (d.class? s).map (TypeDef.sketch σ) := by
  rw [Declared.class?, Declared.class?, Option.map_map, Option.map_map]
  exact Option.map_congr fun header _ => sketch_classOf hσ hpath hraw header

theorem sketch_function? :
    ((d.renumber σ).function? s').map (.sketch id) =
      (d.function? s).map (Callable.sketch σ) := by
  have hcode : (d.renumber σ).head.code = d.head.code := rfl
  rw [Declared.function?, Declared.function?, hcode]
  split
  · rfl
  · rw [Option.map_map, Option.map_map]
    exact Option.map_congr fun header _ => sketch_callableOf hσ hpath hraw header none

/-- A statement of a module is entered in the same way under other numbers. -/
theorem sketch_enter {o o' : Outline} (ho : o'.sketch id = o.sketch σ) :
    (enter s' o' (d.renumber σ)).sketch id = (enter s o d).sketch σ := by
  have himports : (d.renumber σ).imports = d.imports := rfl
  rw [sketch_enter_eq, sketch_enter_eq, ho, himports, sketch_function? hσ hpath hraw,
    sketch_class? hσ hpath hraw, sketch_value? hσ hpath]

end

section

variable {o o' : Outline} (ho : o'.sketch id = o.sketch σ)

include ho

theorem sketch_addDoc (hσ : Monotone σ) (hpath : s'.path = s.path)
    (hraw : ∀ l ∈ ls, s'.raw (l.renumber σ) = s.raw l) :
    (addDoc s' (ls.map (.renumber σ)) o').sketch id = (addDoc s ls o).sketch σ := by
  rw [addDoc, addDoc, docOf?_renumber hraw]
  cases docOf? s ls with
  | none => exact ho
  | some doc =>
    obtain ⟨l, text⟩ := doc
    have hindent : (l.renumber σ).indent = l.indent := rfl
    have hspan : (Span.lines (l.renumber σ).first (l.renumber σ).last).renumber id =
        (Span.lines l.first l.last).renumber σ := (Span.renumber_lines hσ ..).symm
    simp only [Option.map_some, hindent]
    split
    · rw [hpath]
      exact congrArg₂ (fun (u : Outline) docSpan =>
        { u with doc := String.ofList text, docFile := s.path, docSpan }) ho hspan
    · exact ho

end

/-- The outline of lines under other numbers, which keep their order. -/
theorem sketch_outlineOf (hσ : StrictMono σ) (hzero : σ 0 = 0) (hpath : s'.path = s.path)
    (package : String) (hraw : ∀ l ∈ ls, s'.raw (l.renumber σ) = s.raw l) :
    (outlineOf s' package (ls.map (.renumber σ))).sketch id =
      (outlineOf s package ls).sketch σ := by
  have htop : ∀ l : LogicalLine, (l.renumber σ).isTop = l.isTop := fun _ => rfl
  have hstatements := statementsIn_renumber htop 0 [] ls
  rw [map_nil] at hstatements
  rw [outlineOf, hstatements]
  refine foldl_renumber (fun d hd o o' ho => ?_) (sketch_addDoc ?_ hσ.monotone hpath hraw)
  · exact sketch_enter hσ hpath (fun l hl => hraw l (mem_of_mem_block d hd l hl)) ho
  · simp [Outline.sketch, Span.renumber, hzero, hpath]

end Python

end CodeAtlas
