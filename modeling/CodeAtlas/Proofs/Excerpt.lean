import CodeAtlas.Proofs.Markdown.Placement
import CodeAtlas.Proofs.Python.Layout

/-!
# The text of symbols

A symbol of a module or a document tells its lines and their text (`Shows`). Lines may change
after a symbol was made: a property has all lines between its accessors, a section loses the
blank lines at its end. The text is then taken anew. All lines are there, so that none of the
bounds on them is ever reached, neither in the outline nor when a chunk is made of it.

* `exists_excerpt_of_mem_chunks`: a chunk has the lines and the text of a symbol;
* `Python.shows_of_mem_excerpts`: modules;
* `Markdown.shows_of_mem_excerpts`: documents;
* `code_eq_lines`: the chunks of both.
-/

namespace CodeAtlas

open List Nat

variable {c : Chunk} {lines : List (List Char)} (path : String)

open Text (joinWith)

/-- The lines of the span are among the given ones, and this is their text. -/
structure Shows (lines : List (List Char)) (s : Span) (code : String) : Prop where
  among : s.Among lines.length
  code : code =
    String.ofList (joinWith ['\n'] ((lines.take s.endLine).drop (s.startLine - 1)))

/-- The lines and the text of a type and of its members. -/
def TypeDef.excerpts (t : TypeDef) : List (Span × String) :=
  (t.span, t.code) :: t.methods.map (fun f => (f.span, f.code)) ++
    t.properties.map (fun p => (p.span, p.code)) ++ t.constants.map fun b => (b.span, b.code)

/-- The lines and the text of all symbols. -/
def Outline.excerpts (o : Outline) : List (Span × String) :=
  o.functions.map (fun f => (f.span, f.code)) ++ o.types.flatMap TypeDef.excerpts ++
    o.constants.map (fun b => (b.span, b.code)) ++ o.vars.map (fun b => (b.span, b.code)) ++
    o.sections.map fun s => (s.span, s.code)

/-! ## Chunks -/

/-- The lines of the chunk are among the given ones, and this is their text. -/
structure Chunk.ShowsLines (lines : List (List Char)) (c : Chunk) : Prop where
  first : 1 ≤ c.startLine
  ordered : c.startLine ≤ c.endLine
  last : c.endLine ≤ lines.length
  code : c.code =
    String.ofList (joinWith ['\n'] ((lines.take c.endLine).drop (c.startLine - 1)))

/-- The chunk has the text of a symbol, and its lines, counted from one. -/
structure Chunk.Quotes (e : Span × String) (c : Chunk) : Prop where
  first : c.startLine = max e.1.startLine 1
  last : c.endLine = max e.1.endLine (max e.1.startLine 1)
  code : c.code = e.2

theorem Chunk.Quotes.showsLines {e : Span × String} (h : c.Quotes e) (he : Shows lines e.1 e.2) :
    c.ShowsLines lines := by
  obtain ⟨⟨hfirst, hordered, hlast⟩, hcode⟩ := he
  have hstart : c.startLine = e.1.startLine := h.first.trans (max_eq_left hfirst)
  have hstop : c.endLine = e.1.endLine := by
    rw [h.last, max_eq_left hfirst, max_eq_left hordered]
  constructor
  · exact hstart ▸ hfirst
  · rw [hstart, hstop]
    exact hordered
  · exact hstop ▸ hlast
  · rw [hstart, hstop, h.code]
    exact hcode

namespace Outline

variable {o : Outline}

theorem quotes_of_bare {kind : ChunkKind} {name file : String} {s : Span}
    {package signature docstring code : String} {parent : Option String}
    (h : c.bare = { o.baseChunk kind name file s with
      package, parent, signature, docstring, code }) : c.Quotes (s, code) := by
  rw [baseChunk_eq] at h
  exact ⟨congrArg Chunk.startLine h, congrArg Chunk.endLine h, congrArg Chunk.code h⟩

theorem exists_excerpt_of_mem_typeChunks {t : TypeDef} :
    ∀ c ∈ o.typeChunks t, ∃ e ∈ t.excerpts, c.Quotes e := by
  simp only [TypeDef.excerpts, cons_append, mem_cons, mem_append]
  exact forall_typeChunks
    (fun _ _ => ⟨(t.span, t.code), .inl rfl,
      quotes_of_bare ((Chunk.bare_setMeta _ _).trans (o.bare_typeChunk t))⟩)
    (fun f hf => ⟨(f.span, f.code), .inr (.inl (.inl (mem_map_of_mem hf))),
      quotes_of_bare (bare_callableChunk ..)⟩)
    (fun p hp => ⟨(p.span, p.code), .inr (.inl (.inr (mem_map_of_mem hp))),
      quotes_of_bare (bare_propertyChunk ..)⟩)
    fun b hb => ⟨(b.span, b.code), .inr (.inr (mem_map_of_mem hb)),
      quotes_of_bare ((Chunk.bare_setFlag ..).trans (bare_bindingChunk ..))⟩

/-- Every chunk but that of the unit is one of a symbol. -/
theorem exists_excerpt_of_mem_chunks :
    ∀ c ∈ o.chunks, c.kind ≠ .file → ∃ e ∈ o.excerpts, c.Quotes e := by
  simp only [excerpts, mem_append]
  refine forall_chunks (fun c hc hkind => absurd (o.kind_fileChunk? hc) hkind)
    (fun f hf _ => ⟨(f.span, f.code), .inl (.inl (.inl (.inl (mem_map_of_mem hf)))),
      quotes_of_bare (bare_callableChunk ..)⟩) (fun t ht c hc _ => ?_)
    (fun b hb _ => ⟨(b.span, b.code), .inl (.inl (.inr (mem_map_of_mem hb))),
      quotes_of_bare (bare_bindingChunk ..)⟩)
    (fun b hb _ => ⟨(b.span, b.code), .inl (.inr (mem_map_of_mem hb)),
      quotes_of_bare (bare_bindingChunk ..)⟩)
    fun s hs _ => ⟨(s.span, s.code), .inr (mem_map_of_mem hs),
      quotes_of_bare (o.bare_sectionChunk s)⟩
  obtain ⟨e, he, hquotes⟩ := exists_excerpt_of_mem_typeChunks c hc
  exact ⟨e, .inl (.inl (.inl (.inr (mem_flatMap.2 ⟨t, ht, he⟩)))), hquotes⟩

end Outline

/-! ## Modules -/

namespace Python

variable {s : Script} {outer span : Span} {file code : String}

theorem Sits.shows (h : Sits s outer file span code) (hfirst : 1 ≤ outer.startLine)
    (hlast : outer.endLine ≤ s.physical.length) : Shows s.physical span code :=
  ⟨h.inside.among hfirst hlast, h.code⟩

theorem shows_of_mem_excerpts (text : List Char) :
    ∀ e ∈ (outline path text).excerpts, Shows (Text.lines text) e.1 e.2 := by
  have hsits := sits_outline path text
  have hwhole : ∀ {file code : String} {span : Span}, Sits ⟨Path.slashed path, Text.lines text⟩
      (Script.whole ⟨Path.slashed path, Text.lines text⟩) file span code →
      Shows (Text.lines text) span code := fun h => h.shows (le_refl _) (le_refl _)
  simp only [Outline.excerpts, forall_mem_append, forall_mem_map, hsits.sections, not_mem_nil,
    false_imp_iff, implies_true, and_true]
  have htypes : ∀ t ∈ (outline path text).types, ∀ e ∈ t.excerpts,
      Shows (Text.lines text) e.1 e.2 := by
    intro t ht
    have htype := hsits.types t ht
    have hamong := (hwhole htype.own).among
    simp only [TypeDef.excerpts, htype.constants, map_nil, append_nil, cons_append,
      forall_mem_cons, forall_mem_append, forall_mem_map]
    exact ⟨hwhole htype.own, fun f hf => (htype.methods f hf).shows hamong.1 hamong.2.2,
      fun p hp => (htype.properties p hp).shows hamong.1 hamong.2.2⟩
  refine ⟨⟨⟨fun f hf => hwhole (hsits.functions f hf), fun e he => ?_⟩,
    fun b hb => hwhole (hsits.constants b hb)⟩, fun b hb => hwhole (hsits.vars b hb)⟩
  obtain ⟨t, ht, he⟩ := mem_flatMap.1 he
  exact htypes t ht e he

end Python

/-! ## Documents -/

namespace Markdown

/-- A heading is on a line of its document. -/
theorem line_of_mem_headings {text : List Char} :
    ∀ h ∈ (Content.ofText text).headings, 1 ≤ h.line ∧ h.line ≤ (Text.lines text).length := by
  intro h hh
  obtain ⟨title, tail, hx⟩ := exists_of_mem_headings h hh
  obtain ⟨before, rest, htext, hrest, hline, _⟩ := in_of_mem_blocksOf _ hx
  rw [hline, htext]
  exact ⟨succ_pos _, Text.count_lt_length_linesFrom hrest [] _⟩

theorem le_trimBlankLines {first last : Nat} (h : first ≤ last) :
    first ≤ trimBlankLines lines first last := by
  fun_induction trimBlankLines lines first last with
  | case1 => exact h
  | case2 _ hblank ih =>
    rw [Bool.and_eq_true, decide_eq_true_eq] at hblank
    exact ih (Nat.lt_succ_iff.1 hblank.1)
  | case3 => exact h

theorem shows_sectionOf {file : String} {h : Heading} (hh : 1 ≤ h.line ∧ h.line ≤ lines.length)
    (path : List String) {next? : Option Heading}
    (hnext : ∀ next ∈ next?, next.line ≤ lines.length) :
    Shows lines (sectionOf file lines h path next?).span
      (sectionOf file lines h path next?).code := by
  have hfirst : h.line ≤ lastLine lines h next? := le_trimBlankLines (Nat.le_max_right ..)
  have hlast : lastLine lines h next? ≤ lines.length := lastLine_le (Nat.le_refl _) hh.2 hnext
  have hstop : (sectionOf file lines h path next?).span.endLine = lastLine lines h next? :=
    Nat.max_eq_left hfirst
  refine ⟨⟨hh.1, ?_, ?_⟩, ?_⟩
  · exact hstop ▸ hfirst
  · exact hstop ▸ hlast
  · rw [hstop]
    rfl

theorem shows_of_mem_sections (text : List Char) :
    ∀ s ∈ (outline path text).sections, Shows (Text.lines text) s.span s.code := by
  have hheadings : ∀ h ∈ (Content.ofText text).headings.reverse,
      1 ≤ h.line ∧ h.line ≤ (Text.lines text).length := fun h hh =>
    line_of_mem_headings h (mem_reverse.1 hh)
  intro s hs
  obtain ⟨h, hh, path, next?, hnext, rfl⟩ := exists_of_mem_sectionsWith hs
  exact shows_sectionOf (hheadings h hh) path fun next hn => (hheadings next (hnext next hn)).2

theorem shows_of_mem_excerpts (text : List Char) :
    ∀ e ∈ (outline path text).excerpts, Shows (Text.lines text) e.1 e.2 := by
  simp only [Outline.excerpts, outline, map_nil, flatMap_nil, nil_append,
    forall_mem_map]
  exact shows_of_mem_sections path text

end Markdown

/-- The text of every chunk of a module or a document, but that of the unit, is that of the
    chunk's lines, which are lines of the file. -/
theorem code_eq_lines (path : String) (text : List Char) :
    (∀ c ∈ (Python.outline path text).chunks, c.kind ≠ .file → c.ShowsLines (Text.lines text)) ∧
      ∀ c ∈ (Markdown.outline path text).chunks, c.kind ≠ .file →
        c.ShowsLines (Text.lines text) := by
  constructor
  · intro c hc hkind
    obtain ⟨e, he, hquotes⟩ := Outline.exists_excerpt_of_mem_chunks c hc hkind
    exact hquotes.showsLines (Python.shows_of_mem_excerpts path text e he)
  · intro c hc hkind
    obtain ⟨e, he, hquotes⟩ := Outline.exists_excerpt_of_mem_chunks c hc hkind
    exact hquotes.showsLines (Markdown.shows_of_mem_excerpts path text e he)

/-- A class whose property has its accessors around a method. -/
def tray : List Char :=
  ["class Tray:", "    @property", "    def size(self): return 1", "    def put(self): pass",
    "    @size.setter", "    def size(self, n): pass"].flatMap fun line => line.toList ++ ['\n']

/-- Two sections, the first of which ends in blank lines. -/
def notes : List Char :=
  "# A\nb\n\n \nC\n---".toList

theorem code_eq_lines_tray_notes :
    (∃ c ∈ (Python.outline "tray.py" tray).chunks, c.kind = .property ∧ c.startLine = 2 ∧
      c.endLine = 6 ∧ c.ShowsLines (Text.lines tray)) ∧
    ∃ c ∈ (Markdown.outline "notes.md" notes).chunks, c.kind = .section ∧ c.startLine = 1 ∧
      c.endLine = 2 ∧ c.code = "# A\nb" ∧ c.ShowsLines (Text.lines notes) := by
  have hmodule : (Python.outline "tray.py" tray).chunks.map
      (fun c => (c.kind, c.startLine, c.endLine)) =
        [(.class, 1, 6), (.method, 4, 4), (.property, 2, 6)] := by decide +kernel
  have hdocument : (Markdown.outline "notes.md" notes).chunks.map
      (fun c => (c.kind, c.startLine, c.endLine, c.code)) =
        [(.section, 1, 2, "# A\nb"), (.section, 5, 6, "C\n---")] := by decide +kernel
  have hproperty : (.property, 2, 6) ∈ (Python.outline "tray.py" tray).chunks.map
      (fun c => (c.kind, c.startLine, c.endLine)) := by simp [hmodule]
  have hsection : (.section, 1, 2, "# A\nb") ∈ (Markdown.outline "notes.md" notes).chunks.map
      (fun c => (c.kind, c.startLine, c.endLine, c.code)) := by simp [hdocument]
  obtain ⟨c, hc, hplace⟩ := mem_map.1 hproperty
  obtain ⟨d, hd, hplace'⟩ := mem_map.1 hsection
  simp only [Prod.mk.injEq] at hplace hplace'
  refine ⟨⟨c, hc, hplace.1, hplace.2.1, hplace.2.2, ?_⟩,
    ⟨d, hd, hplace'.1, hplace'.2.1, hplace'.2.2.1, hplace'.2.2.2, ?_⟩⟩
  · exact (code_eq_lines "tray.py" tray).1 c hc (by rw [hplace.1]; decide)
  · exact (code_eq_lines "notes.md" notes).2 d hd (by rw [hplace'.1]; decide)

end CodeAtlas
