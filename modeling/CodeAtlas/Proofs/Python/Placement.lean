import CodeAtlas.Proofs.Placement
import CodeAtlas.Proofs.Python.Declared
import CodeAtlas.Proofs.TextSize

/-!
# Where the symbols of Python modules stand

A symbol has the lines of the statement that declares it, from its decorators to the end of its
block, with the line of its name among them, and the text of these lines. The members of a class
are inside of it. A property that is merged of several accessors has the lines of all of them,
and so that of its name, and its text is taken anew with each of them (`Sits`).

* `Declared.Sound.sits`: what a statement declares;
* `Accessor.sits_addTo`: properties;
* `sits_classOf`, `sits_outline`: classes and modules.
-/

namespace CodeAtlas

open List Option Nat

namespace Span

/-- There are lines in the span, and they are among the first `n`. -/
def Among (n : Nat) (s : Span) : Prop :=
  1 ≤ s.startLine ∧ s.startLine ≤ s.endLine ∧ s.endLine ≤ n

/-- The span and the lines of the name in it are inside of another. -/
structure Inside (outer s : Span) : Prop where
  start : outer.startLine ≤ s.startLine
  name_start : s.startLine ≤ s.nameStart
  name : s.nameStart ≤ s.nameEnd
  name_stop : s.nameEnd ≤ s.endLine
  stop : s.endLine ≤ outer.endLine

theorem Inside.among {n : Nat} {outer s : Span} (hfirst : 1 ≤ outer.startLine)
    (hlast : outer.endLine ≤ n) (h : outer.Inside s) : s.Among n :=
  ⟨le_trans hfirst h.start,
    le_trans h.name_start (le_trans h.name h.name_stop), le_trans h.stop hlast⟩

end Span

namespace Python

variable {d : Declared}

/-! ## Statements -/

theorem Declared.Sound.endLine (h : d.Sound) : d.span.endLine = d.lastLine :=
  max_eq_left h.firstLine_le

theorem Declared.Sound.pending (h : d.Sound) : Pending [] d.block :=
  .of_lines (h.lines.sublist (sublist_cons_self ..))

/-- The lines of a statement with the line of its name. -/
theorem Declared.Sound.inside (h : d.Sound) {outer : Span} (hstart : outer.startLine ≤ d.firstLine)
    (hstop : d.lastLine ≤ outer.endLine) : outer.Inside d.span := by
  have hhead : d.head.first ≤ d.lastLine :=
    le_trans h.head_le (h.le_lastLine d.head mem_cons_self)
  have hname : d.span.nameEnd = d.head.first := max_self _
  have hend : d.span.endLine = d.lastLine := h.endLine
  refine ⟨hstart, h.first_le, le_max_left .., ?_, ?_⟩
  · rw [hname, hend]
    exact hhead
  · rw [hend]
    exact hstop

/-- The statements in a block are inside of the statement that it belongs to. -/
theorem Declared.Sound.inside_of_mem (h : d.Sound) {p : LogicalLine → Bool} {e : Declared}
    (he : e ∈ statementsIn p 0 [] d.block) : d.span.Inside e.span := by
  have hfirst : d.firstLine ≤ e.firstLine := by
    refine le_firstLine_of_mem_statementsIn (by simp) (fun l hl => ?_) e he
    exact le_trans h.first_le (le_of_lt (h.block_between l hl).1)
  have hlast : e.lastLine ≤ d.lastLine :=
    lastLine_le_of_mem_statementsIn (fun l hl => (h.block_between l hl).2) e he
  exact (sound_of_mem_statementsIn h.pending e he).inside hfirst (h.endLine ▸ hlast)

/-- A symbol of the script: its lines are inside of others, and its text is that of its
    lines. -/
structure Sits (s : Script) (outer : Span) (file : String) (span : Span) (code : String) :
    Prop where
  file : file = s.path
  inside : outer.Inside span
  code : code = String.ofList (s.excerpt span.startLine span.endLine)

variable {s : Script} {outer : Span} {P : String → Nat → Prop}

theorem Declared.Sound.sits (h : d.Sound) (hstart : outer.startLine ≤ d.firstLine)
    (hstop : d.lastLine ≤ outer.endLine) : Sits s outer s.path d.span (d.code s) := by
  refine ⟨rfl, h.inside hstart hstop, ?_⟩
  rw [h.endLine]
  rfl

/-- A value has the lines of its statement. -/
theorem Declared.Sound.span_value (h : d.Sound) {b : Binding} (hb : d.value? s = some b) :
    b.filePath = s.path ∧ b.span = d.span ∧ b.code = d.code s := by
  rw [Declared.value?] at hb
  split at hb
  · cases hb
  · next hplain =>
    rw [Bool.not_eq_true, Bool.or_eq_false_iff] at hplain
    obtain ⟨hblock, hdecorators⟩ := h.plain hplain.1
    obtain ⟨a, _, ⟨⟩⟩ := bind_eq_some_iff.1 hb
    obtain ⟨head, block, decorators⟩ := d
    subst hblock hdecorators
    simp [Declared.span, Declared.firstLine, Declared.lastLine, Declared.code, Script.raw,
      Span.lines, Span.withName]

/-! ## Members -/

/-- With one more accessor, a property stays inside, and has the text of its lines. -/
theorem Accessor.sits_addTo {a : Accessor} (ha : outer.Inside a.function.span) {p : Property}
    (hfile : p.filePath = s.path) (hp : outer.Inside p.span) :
    Sits s outer (a.addTo s p).filePath (a.addTo s p).span (a.addTo s p).code := by
  obtain ⟨property, access, f⟩ := a
  obtain ⟨hstart, hstartName, hname, hnameStop, hstop⟩ := hp
  obtain ⟨hstart', hstartName', hname', hnameStop', hstop'⟩ := ha
  have houter : outer.startLine ≤ min p.span.startLine f.span.startLine :=
    Nat.le_min.2 ⟨hstart, hstart'⟩
  have houter' : max p.span.endLine f.span.endLine ≤ outer.endLine :=
    Nat.max_le.2 ⟨hstop, hstop'⟩
  rw [addTo, Property.withAccessor.eq_def]
  cases access with
  | get =>
    have hinside : outer.Inside ⟨min p.span.startLine f.span.startLine,
        max p.span.endLine f.span.endLine, f.span.nameStart, f.span.nameEnd⟩ :=
      ⟨houter, le_trans (min_le_right ..) hstartName', hname',
        le_trans hnameStop' (le_max_right ..), houter'⟩
    cases f.returns <;> exact ⟨hfile, hinside, rfl⟩
  | _ =>
    exact ⟨hfile, ⟨houter, le_trans (min_le_left ..) hstartName, hname,
      le_trans hnameStop (le_max_left ..), houter'⟩, rfl⟩

/-- The class and its members. -/
structure ClassSits (s : Script) (outer : Span) (t : TypeDef) : Prop where
  own : Sits s outer t.filePath t.span t.code
  fields : ∀ f ∈ t.fields, f.line ≤ t.span.endLine
  methods : ∀ f ∈ t.methods, Sits s t.span f.filePath f.span f.code
  properties : ∀ p ∈ t.properties, Sits s t.span p.filePath p.span p.code
  constants : t.constants = []

theorem sits_classOf (hd : d.Sound) (hstart : outer.startLine ≤ d.firstLine)
    (hstop : d.lastLine ≤ outer.endLine) (header : ClassHeader) :
    ClassSits s outer (classOf s d header) := by
  obtain ⟨hfields, hmethods, hproperties⟩ := classOf_eq s d header
  have hfunctions : ∀ f ∈ functionsIn s (String.ofList header.name) d,
      Sits s d.span f.filePath f.span f.code := by
    intro f hf
    obtain ⟨e, he, hf⟩ := mem_filterMap.1 hf
    obtain ⟨head, -, rfl⟩ := map_eq_some_iff.1 hf
    have hinside := hd.inside_of_mem he
    exact (sound_of_mem_statementsIn hd.pending e he).sits hinside.start
      (le_trans (le_max_left ..) hinside.stop)
  refine ⟨hd.sits hstart hstop, fun f hf => ?_, fun f hf => ?_, fun p hp => ?_, rfl⟩
  · rw [hfields] at hf
    obtain ⟨e, he, hf⟩ := mem_filterMap.1 hf
    rw [Declared.field?] at hf
    split at hf
    · cases hf
    · obtain ⟨a, -, rfl⟩ := map_eq_some_iff.1 hf
      have hinside := hd.inside_of_mem he
      exact le_trans hinside.name (le_trans hinside.name_stop hinside.stop)
  · rw [hmethods] at hf
    exact hfunctions f (mem_filter.1 hf).1
  · have haccessor : ∀ a ∈ accessorsIn s (String.ofList header.name) d,
        d.span.Inside a.function.span := by
      intro a ha
      obtain ⟨f, hf, ha⟩ := mem_filterMap.1 ha
      obtain ⟨x, -, rfl⟩ := map_eq_some_iff.1 ha
      exact (hfunctions f hf).inside
    rw [hproperties] at hp
    exact forall_mem_foldl_merge
      (Q := fun p => Sits s d.span p.filePath p.span p.code)
      (fun a ha => Accessor.sits_addTo (haccessor a ha) rfl (haccessor a ha))
      (fun a ha p hp => Accessor.sits_addTo (haccessor a ha) hp.file hp.inside) p hp

/-! ## Modules -/

/-- All lines of a script. -/
def Script.whole (s : Script) : Span :=
  { startLine := 1, endLine := s.physical.length }

/-- The symbols of a module. -/
structure OutlineSits (s : Script) (o : Outline) : Prop where
  doc : o.doc = "" ∧ o.docSpan = {} ∨ ∃ l ∈ logicalLines s.physical,
    o.docFile = s.path ∧ o.docSpan = Span.lines l.first l.last
  functions : ∀ f ∈ o.functions, Sits s s.whole f.filePath f.span f.code
  types : ∀ t ∈ o.types, ClassSits s s.whole t
  constants : ∀ b ∈ o.constants, Sits s s.whole b.filePath b.span b.code
  vars : ∀ b ∈ o.vars, Sits s s.whole b.filePath b.span b.code
  sections : o.sections = []

theorem sits_outline (path : String) (text : List Char) :
    OutlineSits ⟨Path.slashed path, Text.lines text⟩ (outline path text) := by
  obtain ⟨imports, doc, docFile, docSpan, h, hdoc⟩ := outline_eq path text
  have hvalues : ∀ b ∈ (statementsOf (Text.lines text)).filterMap
      (·.value? ⟨Path.slashed path, Text.lines text⟩), Sits ⟨Path.slashed path, Text.lines text⟩
        (Script.whole ⟨Path.slashed path, Text.lines text⟩) b.filePath b.span b.code := by
    intro b hb
    obtain ⟨d, hd, hb⟩ := mem_filterMap.1 hb
    obtain ⟨hsound, hfirst, hlast⟩ := of_mem_statementsOf hd
    obtain ⟨hfile, hspan, hcode⟩ := hsound.span_value hb
    rw [hfile, hspan, hcode]
    exact hsound.sits hfirst hlast
  rw [h]
  refine ⟨hdoc, fun f hf => ?_, fun t ht => ?_, fun b hb => ?_, fun b hb => ?_, rfl⟩
  · obtain ⟨d, hd, hf⟩ := mem_filterMap.1 hf
    obtain ⟨hsound, hfirst, hlast⟩ := of_mem_statementsOf hd
    rw [Declared.function?] at hf
    split at hf
    · cases hf
    · obtain ⟨header, -, rfl⟩ := map_eq_some_iff.1 hf
      exact hsound.sits hfirst hlast
  · obtain ⟨d, hd, ht⟩ := mem_filterMap.1 ht
    obtain ⟨hsound, hfirst, hlast⟩ := of_mem_statementsOf hd
    obtain ⟨header, -, rfl⟩ := map_eq_some_iff.1 ht
    exact sits_classOf hsound hfirst hlast header
  · exact hvalues b (mem_filter.1 hb).1
  · exact hvalues b (mem_filter.1 hb).1

theorem Sits.standsIn {n : Nat} (hpath : ∀ k ≤ n + 1, P s.path k) (hn : outer.endLine ≤ n + 1)
    {file : String} {span : Span} {code : String} (h : Sits s outer file span code) :
    StandsIn P file span :=
  ⟨h.file ▸ hpath _ (Nat.max_le.2 ⟨le_trans h.inside.stop hn, le_add_left 1 n⟩),
    h.inside.name_start, le_trans h.inside.name h.inside.name_stop, h.inside.name_stop⟩

/-- All that the outline of a module lists stands in its file. -/
theorem placed_outline {path : String} {text : List Char}
    (hpath : ∀ k ≤ text.length + 1, P (Path.slashed path) k) : (outline path text).Placed P := by
  have hsits := sits_outline path text
  have hn : (Text.lines text).length ≤ text.length + 1 := Text.length_lines_le text
  refine ⟨fun hne => ?_, fun f hf => (hsits.functions f hf).standsIn hpath hn, fun t ht => ?_,
    fun b hb => (hsits.constants b hb).standsIn hpath hn,
    fun b hb => (hsits.vars b hb).standsIn hpath hn, by simp [hsits.sections]⟩
  · rcases hsits.doc with ⟨hdoc, _⟩ | ⟨l, hl, hfile, hspan⟩
    · simp [hdoc] at hne
    · have htiles := tiles_logicalLines (Text.lines text)
      have hlast := le_trans (le_of_lt_succ (htiles.last_lt l hl)) hn
      rw [hfile, hspan]
      exact standsIn_lines hpath (le_trans (htiles.inSequence.2 l hl) hlast) hlast
  · have htype := hsits.types t ht
    have hlast := le_trans htype.own.inside.stop hn
    exact ⟨htype.own.standsIn hpath hn,
      fun f hf => htype.own.file ▸ hpath _ (le_trans (htype.fields f hf) hlast),
      fun f hf => (htype.methods f hf).standsIn hpath hlast,
      fun p hp => (htype.properties p hp).standsIn hpath hlast, by simp [htype.constants]⟩

end Python

end CodeAtlas
