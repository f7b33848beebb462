import CodeAtlas.Proofs.Go.Item

/-!
# What is visible outside of a Go package

An outline may be asked for what is exported only. That is taken from the whole outline
by the names of things and of their receivers (`Outline.visible`), but for one case: a
function that makes values of a type is left out together with the type, even if its own
name is exported.

* `functions_exported`: the functions that remain;
* `items_exported`: all that remains, item by item;
* `exported_chunks`: how the chunks with and without the restriction are related.
-/

namespace CodeAtlas

open Go List

variable (directory : String) {o : Outline}

/-- A type with what is exported of its methods. Those that an interface asks for stay. -/
def TypeDef.visible (t : TypeDef) : TypeDef :=
  { t with
    methods := if t.kind = .interface then t.methods
      else t.methods.filter (isExported ·.name) }

/-- What is exported of an outline: functions by their name and that of their receiver's
    type, methods by their name and that of their type, all else by its name. Functions may
    have to satisfy one more condition. -/
def Outline.visible (keeps : Callable → Bool) (o : Outline) : Outline :=
  { o with
    functions := o.functions.filter fun f =>
      isExported f.name && f.receiver.all isExported && keeps f
    types := (o.types.filter (isExported ·.name)).map TypeDef.visible
    constants := o.constants.filter (isExported ·.name)
    vars := o.vars.filter (isExported ·.name) }

/-- The function makes no values of a type that is not exported. -/
def Callable.makesVisible (f : Callable) : Bool :=
  f.constructs.all isExported

open Callable (makesVisible)

namespace Go

open PackageDoc

variable {files : List File}

/-! ## Receivers -/

theorem receiver_of_mem_keyedDeclarations {d : Declaration} (hd : d ∈ keyedDeclarations files) :
    (∀ f, d = .func f → f.receiverType = none) ∧
      ∀ m, d = .method m → m.receiverType.isSome = m.receiver.isSome := by
  obtain ⟨key, _, d', rfl, i, f, s, _, _, hmem⟩ := exists_of_mem_keyedDeclarations hd
  rw [declarationsAt_eq] at hmem
  obtain ⟨x, _, hx⟩ := mem_filterMap.1 hmem
  cases x with
  | func =>
    obtain ⟨name, _, rfl⟩ := Option.map_eq_some_iff.1 hx
    constructor
    · rintro f ⟨⟩
      rfl
    · rintro m ⟨⟩
  | method =>
    obtain ⟨name, _, rfl⟩ := Option.map_eq_some_iff.1 hx
    constructor
    · rintro f ⟨⟩
    · rintro m ⟨⟩
      simp [funcDoc]
  | type | value =>
    obtain ⟨_, _, rfl⟩ := Option.map_eq_some_iff.1 hx
    constructor
    · rintro f ⟨⟩
    · rintro m ⟨⟩

/-- What makes values of a type has no receiver. -/
theorem receiverType_of_mem_constructors {t : TypeDoc}
    (ht : t ∈ (ofFiles files false).types) {f : FuncDoc} (hf : f ∈ t.constructors) :
    f.receiverType = none := by
  have hitem : (f, some t.name) ∈ (ofFiles files false).functionItems :=
    mem_append_left _ (mem_flatMap.2 ⟨t, ht, mem_map_of_mem hf⟩)
  obtain ⟨p, _, hfuncs, _, _, hcompleted⟩ := completed_ofFiles files
  obtain ⟨g, hg, heq⟩ := mem_map.1 (hcompleted.functions.mem_iff.1 hitem)
  obtain ⟨rfl, hmade⟩ := Prod.mk.inj heq
  rcases mem_append.1 hg with hg | hg
  · rw [hfuncs] at hg
    obtain ⟨d, hd, hg⟩ := mem_filterMap.1 hg
    exact (receiver_of_mem_keyedDeclarations hd).1 g (Declaration.func?_eq_some.1 hg)
  · -- A method with a receiver produces nothing.
    obtain ⟨d, hd, hg⟩ := mem_filterMap.1 (mem_filter.1 hg).1
    have hsame := (receiver_of_mem_keyedDeclarations hd).2 g (Declaration.method?_eq_some.1 hg)
    cases hreceiver : g.receiver with
    | none => rwa [hreceiver, Option.isSome_none, Option.isSome_eq_false_iff,
        Option.isNone_iff_eq_none] at hsame
    | some r => simp [madeType?, FuncDoc.produces?, hreceiver] at hmade

/-! ## What remains -/

theorem ofFiles_exported (files : List File) :
    ofFiles files true = (ofFiles files false).exported := rfl

theorem functions_packageOutline (files : List File) (exportedOnly : Bool) :
    (packageOutline directory files exportedOnly).functions =
      (ofFiles files exportedOnly).types.flatMap (fun t =>
        t.constructors.map (constructor files (locationIndex files) t.name)) ++
      (ofFiles files exportedOnly).funcs.map (callable files (locationIndex files)) := rfl

theorem functions_exported (files : List File) :
    (packageOutline directory files true).functions =
      ((packageOutline directory files false).visible makesVisible).functions := by
  rw [functions_packageOutline, ofFiles_exported, Outline.visible, functions_packageOutline,
    filter_append, filter_flatMap, exported, flatMap_map, flatMap_filter]
  congr 1
  · refine congrArg List.flatten (map_congr_left fun t ht => ?_)
    by_cases hexported : isExported t.name
    · rw [if_pos hexported, filter_map]
      refine congrArg (List.map _) (filter_congr fun f hf => ?_)
      have hreceiver := receiverType_of_mem_constructors ht hf
      simp [constructor, callable, makesVisible, hreceiver, hexported]
    · -- All that makes values of the type goes with it.
      rw [if_neg hexported]
      refine (filter_eq_nil_iff.2 fun g hg => ?_).symm
      obtain ⟨f, _, rfl⟩ := mem_map.1 hg
      simp [constructor, makesVisible, hexported]
  · rw [filter_map]
    refine congrArg (List.map _) (filter_congr fun f _ => ?_)
    cases hreceiver : f.receiverType <;> simp [callable, makesVisible, hreceiver]

/-- The type with what is visible of it only. -/
def exportedType (t : TypeDoc) : TypeDoc :=
  { t with
    methods := t.methods.filter (isExported ·.name)
    constructors := t.constructors.filter (isExported ·.name)
    fields := t.fields.filter fun f => f.embedded || isExported f.name }

/-- A type that remains has its methods with exported names. -/
theorem items_exportedType (t : TypeDoc) :
    (typeDef files (locationIndex files) (exportedType t)).items =
      (typeDef files (locationIndex files) t).visible.items := by
  rw [items_typeDef, TypeDef.items]
  by_cases hinterface : t.kind = .interface
  · have hexported : (exportedType t).kind = .interface := hinterface
    have hvisible : (typeDef files (locationIndex files) t).visible.kind = .interface := hinterface
    rw [if_pos hexported, if_pos hvisible]
    rfl
  · have hexported : (exportedType t).kind ≠ .interface := hinterface
    have hvisible : (typeDef files (locationIndex files) t).visible.kind ≠ .interface := hinterface
    have hmethods : (typeDef files (locationIndex files) t).visible.methods =
        (t.methods.filter (isExported ·.name)).map (callable files (locationIndex files)) := by
      simp only [TypeDef.visible, typeDef, if_neg hinterface, filter_map]
      rfl
    rw [if_neg hexported, if_neg hvisible, hmethods, map_map, map_map]
    rfl

/-- What remains, item by item. -/
theorem items_exported (files : List File) :
    (packageOutline directory files true).items =
      ((packageOutline directory files false).visible makesVisible).items := by
  have htypes : (packageOutline directory files true).types.flatMap TypeDef.items =
      ((packageOutline directory files false).visible makesVisible).types.flatMap
        TypeDef.items := by
    change ((((ofFiles files false).types.filter (isExported ·.name)).map exportedType).map
        (typeDef files (locationIndex files))).flatMap TypeDef.items =
      ((((ofFiles files false).types.map (typeDef files (locationIndex files))).filter
        (isExported ·.name)).map TypeDef.visible).flatMap TypeDef.items
    rw [filter_map, flatMap_map, flatMap_map, flatMap_map, flatMap_map]
    exact congrArg (List.flatMap · _) (funext fun t => items_exportedType t)
  have hconstants : (packageOutline directory files true).constants =
      ((packageOutline directory files false).visible makesVisible).constants := by
    change ((ofFiles files false).consts.filter (isExported ·.name)).map
        (binding files (locationIndex files)) =
      ((ofFiles files false).consts.map (binding files (locationIndex files))).filter
        (isExported ·.name)
    rw [filter_map]
    rfl
  have hvars : (packageOutline directory files true).vars =
      ((packageOutline directory files false).visible makesVisible).vars := by
    change ((ofFiles files false).vars.filter (isExported ·.name)).map
        (binding files (locationIndex files)) =
      ((ofFiles files false).vars.map (binding files (locationIndex files))).filter
        (isExported ·.name)
    rw [filter_map]
    rfl
  rw [Outline.items, Outline.items, functions_exported, htypes, hconstants, hvars]

end Go

/-! ## Chunks -/

namespace Outline

/-- What is visible is part of the whole, in the same order. -/
theorem items_visible_sublist (o : Outline) (keeps : Callable → Bool) :
    (o.visible keeps).items.Sublist o.items := by
  have htype : ∀ t : TypeDef, t.visible.items.Sublist t.items := by
    intro t
    rw [TypeDef.visible]
    refine List.Sublist.cons_cons _ ?_
    split
    · exact List.Sublist.refl _
    · exact filter_sublist.map _
  have htypes : ∀ ts : List TypeDef,
      (((ts.filter (isExported ·.name)).map TypeDef.visible).flatMap TypeDef.items).Sublist
        (ts.flatMap TypeDef.items) := by
    intro ts
    induction ts with
    | nil => exact List.Sublist.refl _
    | cons t ts ih =>
      rw [filter_cons]
      split
      · exact (htype t).append ih
      · exact ih.trans (sublist_append_right _ _)
  exact (((filter_sublist.map _).append (htypes o.types)).append
    (filter_sublist.map _)).append (filter_sublist.map _)

theorem IsGo.visible (ho : o.IsGo) (keeps : Callable → Bool) : (o.visible keeps).IsGo where
  language := ho.language
  types t ht := by
    obtain ⟨t', ht', rfl⟩ := mem_map.1 ht
    exact ho.types t' (mem_filter.1 ht').1
  sections := ho.sections

end Outline

namespace Go

theorem isGo_packageOutline (files : List File) (exportedOnly : Bool) :
    (packageOutline directory files exportedOnly).IsGo := by
  refine ⟨?_, fun t ht => ?_, ?_⟩
  · rw [packageOutline]
    split <;> rfl
  · obtain ⟨t', _, rfl⟩ := mem_map.1 ht
    exact ⟨rfl, rfl, rfl⟩
  · rw [packageOutline]
    split <;> rfl

/-- What is said of the package itself does not depend on the restriction. -/
theorem header_exported (files : List File) :
    (packageOutline directory files true).fileChunk? =
        (packageOutline directory files false).fileChunk? ∧
      (packageOutline directory files true).package =
        (packageOutline directory files false).package := by
  simp only [packageOutline, ofFiles_exported]
  generalize PackageDoc.ofFiles files false = p
  have hfile : p.exported.docFile = p.docFile := rfl
  rw [hfile]
  cases p.docFile <;> exact ⟨rfl, rfl⟩

theorem itemChunk_congr {o' : Outline} (hlanguage : o.language = o'.language)
    (hpackage : o.package = o'.package) : o.itemChunk = o'.itemChunk := by
  funext x
  simp only [Outline.itemChunk, Outline.baseChunk_eq, hlanguage, hpackage]

/-- With the restriction, the chunks are those of what is visible; functions that make
    values of a type which is not exported are left out as well. -/
theorem map_bare_chunks_exported (files : List File) :
    (packageOutline directory files true).chunks.map Chunk.bare =
      ((packageOutline directory files false).visible makesVisible).chunks.map
        Chunk.bare := by
  have hgo := isGo_packageOutline directory files
  obtain ⟨hfile, hpackage⟩ := header_exported directory files
  have hitem : (packageOutline directory files true).itemChunk =
      ((packageOutline directory files false).visible makesVisible).itemChunk :=
    itemChunk_congr ((hgo true).language.trans (hgo false).language.symm) hpackage
  rw [Outline.map_bare_chunks (hgo true), Outline.map_bare_chunks ((hgo false).visible _),
    items_exported, hfile, hitem]
  rfl

end Go

/-- One more condition leaves all chunks as they are exactly if all functions that are
    visible satisfy it. -/
theorem Outline.map_bare_chunks_visible_iff (o : Outline) (keeps : Callable → Bool) :
    (o.visible keeps).chunks.map Chunk.bare =
        (o.visible fun _ => true).chunks.map Chunk.bare ↔
      ∀ f ∈ o.functions, isExported f.name → f.receiver.all isExported →
        keeps f := by
  constructor
  · intro h
    -- All other chunks are the same on both sides, so the functions are equal in number.
    have hlength := congrArg List.length h
    have hfile : (o.visible keeps).fileChunk? = (o.visible fun _ => true).fileChunk? := rfl
    have htypes : (o.visible keeps).types.flatMap (o.visible keeps).typeChunks =
      (o.visible fun _ => true).types.flatMap (o.visible fun _ => true).typeChunks := rfl
    have hconstants : (o.visible keeps).constants = (o.visible fun _ => true).constants := rfl
    have hvars : (o.visible keeps).vars = (o.visible fun _ => true).vars := rfl
    have hsections : (o.visible keeps).sections = (o.visible fun _ => true).sections := rfl
    simp only [length_map, chunks, length_append, hfile, htypes, hconstants, hvars,
      hsections] at hlength
    have hsublist : (o.visible keeps).functions.Sublist (o.visible fun _ => true).functions :=
      monotone_filter_right _ fun f hf => by
        simp only [Bool.and_eq_true, Bool.and_true] at hf ⊢
        exact hf.1
    have heq := hsublist.eq_of_length (by omega)
    intro f hf hname hreceiver
    have hmem : f ∈ (o.visible keeps).functions := by
      rw [heq]
      exact mem_filter.2 ⟨hf, by rw [hname, hreceiver]; rfl⟩
    have hkeeps := (mem_filter.1 hmem).2
    rw [hname, hreceiver] at hkeeps
    exact hkeeps
  · intro h
    have hfilter : (o.functions.filter fun f =>
        isExported f.name && f.receiver.all isExported && keeps f) =
        o.functions.filter fun f => isExported f.name && f.receiver.all isExported && true := by
      refine filter_congr fun f hf => ?_
      by_cases hvisible : (isExported f.name && f.receiver.all isExported)
      · rw [h f hf (Bool.and_eq_true_iff.1 hvisible).1 (Bool.and_eq_true_iff.1 hvisible).2]
      · rw [Bool.not_eq_true] at hvisible
        rw [hvisible, Bool.false_and, Bool.false_and]
    rw [visible, visible, hfilter]

namespace Go

/-- What makes values of a type is listed without a receiver. -/
theorem receiver_of_constructs {directory : String} {files : List File} {f : Callable}
    (hf : f ∈ (packageOutline directory files false).functions) {t : String}
    (ht : f.constructs = some t) : f.receiver = none := by
  rcases mem_append.1 hf with hf | hf
  · obtain ⟨type, htype, hf⟩ := mem_flatMap.1 hf
    obtain ⟨g, hg, rfl⟩ := mem_map.1 hf
    exact receiverType_of_mem_constructors htype hg
  · obtain ⟨g, _, rfl⟩ := mem_map.1 hf
    cases ht

/-- The chunks of what is exported are those of what is visible in the whole package,
    exactly if every exported function that makes values of a type makes those of an
    exported one. In any case the chunks that are missing are those of the functions that
    make values of types which are not exported. -/
theorem exported_chunks (directory : String) (contents : List (String × Bytes)) (full : Outline)
    (hfull : outline? directory contents false = some full) :
    ∃ o, outline? directory contents true = some o ∧
      o.chunks.map Chunk.bare =
        (full.visible Callable.makesVisible).chunks.map Chunk.bare ∧
      (o.chunks.map Chunk.bare = (full.visible fun _ => true).chunks.map Chunk.bare ↔
        ∀ f ∈ full.functions, isExported f.name = true →
          ∀ t, f.constructs = some t → isExported t = true) := by
  obtain ⟨hfiles, rfl⟩ := outline?_eq_some.1 hfull
  have hchunks := map_bare_chunks_exported directory (goFiles contents)
  refine ⟨_, outline?_eq_some.2 ⟨hfiles, rfl⟩, hchunks, ?_⟩
  rw [hchunks, Outline.map_bare_chunks_visible_iff]
  constructor
  · intro h f hf hname t ht
    have hreceiver := receiver_of_constructs hf ht
    have hmakes := h f hf hname (by rw [hreceiver]; rfl)
    rwa [Callable.makesVisible, ht] at hmakes
  · intro h f hf hname _
    rw [Callable.makesVisible]
    cases ht : f.constructs with
    | none => rfl
    | some t => exact h f hf hname t ht

/-- A package with an exported type, a function that makes its values, and a function
    that is not exported. -/
def shownServer : List (String × Bytes) :=
  [("p/a.go", bytesOf ("package p\n\ntype Server struct\x7b\x7d\n\n" ++
    "func New() *Server \x7b return nil \x7d\n\nfunc open() \x7b\x7d\n"))]

/-- Where the type is exported, nothing but the other function is left out. -/
theorem exported_chunks_shown :
    ∃ full o, outline? "p" shownServer false = some full ∧
      outline? "p" shownServer true = some o ∧
      full.chunks.map (·.name) = ["New", "open", "Server"] ∧
      o.chunks.map (·.name) = ["New", "Server"] ∧
      o.chunks.map Chunk.bare = (full.visible fun _ => true).chunks.map Chunk.bare := by
  have hall : (outline? "p" shownServer false).map (fun full =>
      (full.chunks.map (·.name), full.functions.all fun f =>
        !isExported f.name || f.constructs.all isExported)) =
      some (["New", "open", "Server"], true) := by decide +kernel
  have hexported : (outline? "p" shownServer true).map (fun o => o.chunks.map (·.name)) =
      some ["New", "Server"] := by decide +kernel
  obtain ⟨full, hfull, hnames⟩ := Option.map_eq_some_iff.1 hall
  obtain ⟨hnames, hmakes⟩ := Prod.mk.inj hnames
  obtain ⟨o, ho, _, hiff⟩ := exported_chunks "p" shownServer full hfull
  rw [ho, Option.map_some, Option.some_inj] at hexported
  refine ⟨full, o, hfull, ho, hnames, hexported, hiff.2 fun f hf hname t ht => ?_⟩
  have hf' := all_eq_true.1 hmakes f hf
  rwa [hname, ht] at hf'

/-- The same with a type that is not exported. -/
def hiddenServer : List (String × Bytes) :=
  [("p/a.go", bytesOf ("package p\n\ntype server struct\x7b\x7d\n\n" ++
    "func New() *server \x7b return nil \x7d\n"))]

/-- An exported function is left out because of the type that it makes values of. -/
theorem hidden_constructor_missing :
    (outline? "p" hiddenServer false).map (fun full =>
        (full.visible fun _ => true).chunks.map fun c => (c.kind, c.name)) =
      some [(.function, "New")] ∧
    (outline? "p" hiddenServer true).map (fun o => o.chunks.map fun c => (c.kind, c.name)) =
      some [] := by
  constructor <;> decide +kernel

end Go

end CodeAtlas
