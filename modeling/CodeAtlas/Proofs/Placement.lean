import CodeAtlas.Location
import CodeAtlas.Proofs.Grammar.Extent
import CodeAtlas.Proofs.Metadata

/-!
# Where symbols stand

A symbol stands in a file, on some lines, among which are those of its name (`StandsIn`);
which files and lines these may be is left to a predicate. A chunk is made of these in the same
way for every kind of symbol, so that the chunks of an outline stand on lines counted from one,
with the selection within them (`Chunk.WellPlaced`), if all of its symbols stand somewhere
(`Outline.Placed`). What is entered into the metadata of a chunk does not move it.

* `standsIn_lines`: lines with a name on the first of them;
* `Grammar.OnLines.standsIn`: a declaration in the tree of a text, with a name inside of it;
* `Outline.Placed.stands`: the chunks of an outline;
* `Route.stands_toChunk`: the chunk of a route.
-/

namespace CodeAtlas

open List Nat

/-- A symbol with these lines stands in a file of some sort up to a line of some sort, and the
    lines of its name are among them. -/
structure StandsIn (P : String → Nat → Prop) (file : String) (s : Span) : Prop where
  place : P file (max s.endLine 1)
  start_le : s.startLine ≤ s.nameStart
  name_le : s.nameStart ≤ s.endLine
  stop_le : s.nameEnd ≤ s.endLine

variable {P : String → Nat → Prop} {file : String} {n : Nat}

theorem standsIn_lines (hfile : ∀ k ≤ n + 1, P file k) {start stop : Nat} (hstart : start ≤ n + 1)
    (hstop : stop ≤ n + 1) : StandsIn P file (Span.lines start stop) :=
  ⟨hfile _ (Nat.max_le.2 ⟨Nat.max_le.2 ⟨hstop, hstart⟩, le_add_left 1 n⟩), le_refl _,
    le_max_right .., le_max_right ..⟩

namespace Grammar

variable {κ : Type} {decl : ParseTree κ}

theorem ParseTree.startLine_le_endLine (t : ParseTree κ) : t.startLine ≤ t.endLine :=
  le_max_right ..

theorem OnLines.standsIn_span (h : OnLines (n + 1) decl) (hfile : ∀ k ≤ n + 1, P file k) :
    StandsIn P file decl.span :=
  standsIn_lines hfile (le_trans decl.startLine_le_endLine h.last) h.last

/-- A declaration with a name inside of it. -/
theorem OnLines.standsIn (h : OnLines (n + 1) decl) (hfile : ∀ k ≤ n + 1, P file k)
    {name : ParseTree κ} (hname : Inside decl name) :
    StandsIn P file (decl.spanWithName (some name)) := by
  have hordered := name.startLine_le_endLine
  have hlast : name.endLine ≤ (decl.spanWithName (some name)).endLine :=
    le_trans hname.stop_le (le_max_left ..)
  exact ⟨(h.standsIn_span hfile).place, hname.start_le, le_trans hordered hlast,
    Nat.max_le.2 ⟨hlast, le_trans hordered hlast⟩⟩

/-- A declaration with the name that it has as a part, if it has one. -/
theorem OnLines.standsIn_part? (h : OnLines (n + 1) decl) (hfile : ∀ k ≤ n + 1, P file k)
    (r : Role) : StandsIn P file (decl.spanWithName (decl.part? r)) := by
  cases hname : decl.part? r with
  | none => exact h.standsIn_span hfile
  | some name =>
    exact h.standsIn hfile (h.nested.inside.of_mem (ParseTree.mem_of_part? hname).1)

end Grammar

/-! ## Chunks -/

/-- The chunk stands in a file of some sort on lines counted from one, and its selection, if
    it has one, is within them. -/
structure Chunk.WellPlaced (P : String → Prop) (c : Chunk) : Prop where
  file : P c.filePath
  first : 1 ≤ c.startLine
  last : c.startLine ≤ c.endLine
  both : c.selectionStart.isSome = c.selectionEnd.isSome
  selection : ∀ start ∈ c.selectionStart, ∀ stop ∈ c.selectionEnd,
    c.startLine ≤ start ∧ start ≤ stop ∧ stop ≤ c.endLine

/-- The chunk stands in a file of some sort up to a line of some sort. -/
def Chunk.Stands (P : String → Nat → Prop) (c : Chunk) : Prop :=
  c.WellPlaced (P · c.endLine)

namespace Chunk.Stands

variable {c : Chunk}

theorem bare (h : c.Stands P) : c.bare.Stands P :=
  ⟨h.file, h.first, h.last, h.both, h.selection⟩

theorem of_bare (h : c.bare.Stands P) : c.Stands P :=
  ⟨h.file, h.first, h.last, h.both, h.selection⟩

theorem setMeta (h : c.Stands P) (key : String) (value : Json) : (c.setMeta key value).Stands P :=
  of_bare (c.bare_setMeta value ▸ h.bare)

theorem setFlag (h : c.Stands P) (key : String) (on : Bool) : (c.setFlag key on).Stands P :=
  of_bare (c.bare_setFlag on ▸ h.bare)

end Chunk.Stands

namespace Outline

variable {o : Outline}

/-- A chunk has the place of its symbol, whatever else it says. -/
theorem stands_baseChunk {s : Span} (h : StandsIn P file s) (kind : ChunkKind)
    (name package : String) (parent : Option String) (signature docstring code : String) :
    Chunk.Stands P { o.baseChunk kind name file s with
      package, parent, signature, docstring, code } := by
  obtain ⟨hplace, hstart, hname, hstop⟩ := h
  have hend : max s.endLine (max s.startLine 1) = max s.endLine 1 := by omega
  rw [baseChunk_eq]
  refine ⟨?_, le_max_right .., le_max_right .., ?_, ?_⟩
  · rwa [hend]
  · split <;> rfl
  · intro start hs stop he
    dsimp only at hs he ⊢
    split at hs
    · next hpos =>
      rw [if_pos hpos] at he
      cases hs
      cases he
      omega
    · cases hs

end Outline

/-- The type and its members stand somewhere. -/
structure TypeDef.Placed (P : String → Nat → Prop) (t : TypeDef) : Prop where
  type : StandsIn P t.filePath t.span
  fields : ∀ f ∈ t.fields, P t.filePath f.line
  methods : ∀ f ∈ t.methods, StandsIn P f.filePath f.span
  properties : ∀ p ∈ t.properties, StandsIn P p.filePath p.span
  constants : ∀ b ∈ t.constants, StandsIn P b.filePath b.span

namespace Outline

/-- All symbols of the outline stand somewhere, and so does its documentation. Sections are on six
    levels. -/
structure Placed (P : String → Nat → Prop) (o : Outline) : Prop where
  doc : o.doc.isEmpty = false → StandsIn P o.docFile o.docSpan
  functions : ∀ f ∈ o.functions, StandsIn P f.filePath f.span
  types : ∀ t ∈ o.types, t.Placed P
  constants : ∀ b ∈ o.constants, StandsIn P b.filePath b.span
  vars : ∀ b ∈ o.vars, StandsIn P b.filePath b.span
  sections : ∀ s ∈ o.sections, StandsIn P s.filePath s.span ∧ s.level ≤ 6

variable {o : Outline}

theorem stands_fileChunk? (h : o.doc.isEmpty = false → StandsIn P o.docFile o.docSpan)
    {c : Chunk} (hc : o.fileChunk? = some c) : c.Stands P := by
  rw [fileChunk?] at hc
  split at hc
  · cases hc
  · next hdoc =>
    cases hc
    exact (stands_baseChunk (h (Bool.eq_false_iff.2 hdoc)) ..).setMeta _ _

theorem stands_callableChunk {f : Callable} (h : StandsIn P f.filePath f.span) (kind : ChunkKind)
    (parent : Option String) : (o.callableChunk f kind parent).Stands P := by
  refine .of_bare ?_
  rw [bare_callableChunk]
  exact stands_baseChunk h ..

theorem stands_bindingChunk {b : Binding} (h : StandsIn P b.filePath b.span) (kind : ChunkKind)
    (parent : Option String) : (o.bindingChunk b kind parent).Stands P := by
  refine .of_bare ?_
  rw [bare_bindingChunk]
  exact stands_baseChunk h ..

theorem stands_typeChunks {t : TypeDef} (h : t.Placed P) : ∀ c ∈ o.typeChunks t, c.Stands P := by
  have htype : (o.typeChunk t).Stands P := by
    refine .of_bare ?_
    rw [bare_typeChunk]
    exact stands_baseChunk h.type ..
  refine forall_typeChunks (fun _ _ => htype.setMeta _ _)
    (fun f hf => stands_callableChunk (h.methods f hf) ..) (fun p hp => .of_bare ?_)
    fun b hb => (stands_bindingChunk (h.constants b hb) ..).setFlag _ _
  rw [bare_propertyChunk]
  exact stands_baseChunk (h.properties p hp) ..

/-- The chunks of an outline are placed as its symbols are. -/
theorem Placed.stands (h : o.Placed P) {c : Chunk} (hc : c ∈ o.chunks) : c.Stands P :=
  forall_chunks (fun _ => stands_fileChunk? h.doc)
    (fun f hf => stands_callableChunk (h.functions f hf) ..)
    (fun t ht => stands_typeChunks (h.types t ht))
    (fun b hb => stands_bindingChunk (h.constants b hb) ..)
    (fun b hb => stands_bindingChunk (h.vars b hb) ..)
    (fun s hs => ((stands_baseChunk (h.sections s hs).1 ..).setMeta _ _).setMeta _ _) c hc

end Outline

/-- The chunk of a route has no selection. -/
theorem Route.stands_toChunk {r : Route} (hplace : P r.filePath (max r.endLine r.line))
    (hline : 1 ≤ r.line) : r.toChunk.Stands P := by
  refine .of_bare ?_
  rw [bare_toChunk]
  exact ⟨hplace, hline, le_max_right .., rfl, by rintro start ⟨⟩⟩

end CodeAtlas
