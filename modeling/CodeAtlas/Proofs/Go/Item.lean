import CodeAtlas.Proofs.Go.Function
import CodeAtlas.Proofs.Metadata

/-!
# What the outline of a Go package lists

The chunks of a Go package, but for one about the package itself, are told by *items*: a
symbol, the kind of its chunk, and the type that it is listed under. There is one for each
symbol of the outline, except for the methods that an interface asks for, which have no
declaration of their own.

Without regard to their order, the items are those of the sites of the package. What is
said at a site, together with the types that the package declares, decides how it is
listed (`Declaration.role?`); path, lines and source are those of the site
(`Declared.symbol`).

* `map_bare_chunks`: the chunks of a Go outline, item by item;
* `map_symbolOf_keyedDeclarations`: the symbol of every declaration is that of its site;
* `items_perm`: the items of a package are those of its sites.
-/

namespace CodeAtlas

open List

/-- What a chunk says of a declaration, but for its kind and where it is listed. -/
structure Symbol where
  name : String
  filePath : String
  span : Span
  signature : String
  doc : String
  code : String

/-- A symbol with the kind of its chunk and the type that it is listed under. -/
structure Item where
  kind : ChunkKind
  parent : Option String
  symbol : Symbol

def Callable.symbol (f : Callable) : Symbol :=
  ⟨f.name, f.filePath, f.span, f.signature, f.doc, f.code⟩

def TypeDef.symbol (t : TypeDef) : Symbol :=
  ⟨t.name, t.filePath, t.span, t.signature, t.doc, t.code⟩

def Binding.symbol (b : Binding) : Symbol :=
  ⟨b.name, b.filePath, b.span, b.signature, b.doc, b.code⟩

/-- The items of a type and of its methods, unless it is an interface. -/
def TypeDef.items (t : TypeDef) : List Item :=
  ⟨Outline.chunkKindOf t.kind, none, t.symbol⟩ ::
    if t.kind = .interface then []
    else t.methods.map fun m => ⟨.method, some t.name, m.symbol⟩

namespace Outline

variable {o : Outline}

/-- The items of an outline. -/
def items (o : Outline) : List Item :=
  o.functions.map (fun f => ⟨.function, f.constructs, f.symbol⟩) ++
    o.types.flatMap TypeDef.items ++
    o.constants.map (fun b => ⟨.const, none, b.symbol⟩) ++
    o.vars.map (fun b => ⟨.var, none, b.symbol⟩)

/-- The chunk of an item, but for its metadata. -/
def itemChunk (o : Outline) (x : Item) : Chunk :=
  { o.baseChunk x.kind x.symbol.name x.symbol.filePath x.symbol.span with
    parent := x.parent, signature := x.symbol.signature, docstring := x.symbol.doc
    code := x.symbol.code }

/-- The outline has nothing that is unknown to Go. -/
structure IsGo (o : Outline) : Prop where
  language : o.language = .go
  types : ∀ t ∈ o.types, t.namespaceName = "" ∧ t.properties = [] ∧ t.constants = []
  sections : o.sections = []

theorem map_bare_typeChunks (ho : o.language = .go) {t : TypeDef}
    (ht : t.namespaceName = "" ∧ t.properties = [] ∧ t.constants = []) :
    (o.typeChunks t).map Chunk.bare = t.items.map o.itemChunk := by
  obtain ⟨hnamespace, hproperties, hconstants⟩ := ht
  have htype : (o.typeChunk t).bare =
      o.itemChunk ⟨chunkKindOf t.kind, none, t.symbol⟩ := by
    rw [bare_typeChunk, hnamespace]
    simp [itemChunk, baseChunk_eq, TypeDef.symbol]
  have hmethods : (t.methods.map (o.callableChunk · .method (some t.name))).map Chunk.bare =
      t.methods.map fun m => o.itemChunk ⟨.method, some t.name, m.symbol⟩ := by
    rw [map_map]
    exact map_congr_left fun m _ => o.bare_callableChunk m .method (some t.name)
  rw [typeChunks, TypeDef.items]
  by_cases hinterface : t.kind = .interface
  · rw [if_pos ⟨hinterface, ho⟩, if_pos hinterface]
    simp only [map_cons, map_nil, Chunk.bare_setMeta, htype]
  · rw [if_neg (fun h => hinterface h.1), if_neg hinterface, hproperties, hconstants]
    simp only [map_nil, append_nil, map_cons, Chunk.bare_setMeta, htype, hmethods,
      map_map, Function.comp_def]

theorem map_bare_chunks (ho : o.IsGo) :
    o.chunks.map Chunk.bare =
      (o.fileChunk?.map Chunk.bare).toList ++ o.items.map o.itemChunk := by
  have htypes : (o.types.flatMap o.typeChunks).map Chunk.bare =
      (o.types.flatMap TypeDef.items).map o.itemChunk := by
    rw [map_flatMap, map_flatMap]
    exact congrArg List.flatten
      (map_congr_left fun t ht => map_bare_typeChunks ho.language (ho.types t ht))
  rw [chunks, items, ho.sections]
  simp only [map_append, map_nil, append_nil, Option.toList_map, map_map, append_assoc]
  congr 2
  · exact map_congr_left fun f _ => o.bare_callableChunk f .function f.constructs
  · congr 2
    · exact map_congr_left fun b _ => o.bare_bindingChunk b .const none
    · exact map_congr_left fun b _ => o.bare_bindingChunk b .var none

end Outline

namespace Go

open Grammar PackageDoc

variable {files : List File} {p : Declaration × Declared} {isConst : Bool} (ds : List Declaration)

/-! ## Symbols of declarations -/

namespace Declaration

/-- The declaration as it is written out without what it holds. -/
def signature : Declaration → String
  | .func f => f.signature
  | .method f => f.signature
  | .type t => t.signature
  | .value v => v.signature

/-- The documentation of a declaration. -/
def doc : Declaration → String
  | .func f => f.doc
  | .method f => f.doc
  | .type t => t.doc
  | .value v => v.doc

/-- The declaration without its key. -/
def unkeyed (d : Declaration) : Declaration :=
  d.withKey ""

@[simp] theorem key_withKey (d : Declaration) (key : String) : (d.withKey key).key = key := by
  cases d <;> rfl

/-- A key takes the place of another, and nothing else changes. -/
@[simp] theorem kept_withKey (d : Declaration) (key : String) :
    (d.withKey key).name = d.name ∧ (d.withKey key).file = d.file ∧
      (d.withKey key).signature = d.signature ∧ (d.withKey key).doc = d.doc ∧
      (d.withKey key).unkeyed = d.unkeyed := by
  cases d <;> exact ⟨rfl, rfl, rfl, rfl, rfl⟩

end Declaration

/-- The symbol that the outline of a package has for a declaration. -/
def symbolOf (files : List File) (d : Declaration) : Symbol :=
  let place := locate files (locationIndex files) d.key
  ⟨d.name, pathOr files place.1 d.file, place.2.1, d.signature, d.doc, place.2.2⟩

/-- The symbol of what is said at a site, with the path, lines and source of that. -/
def Declared.symbol (x : Declared) (d : Declaration) : Symbol :=
  ⟨d.name, x.file.path, x.place.span, d.signature, d.doc, x.place.excerpt x.file.source⟩

/-- What is said in a package, with the sites. -/
def paired (files : List File) : List (Declaration × Declared) :=
  (declared files).filterMap fun x => x.says?.map (·, x)

theorem mem_paired : p ∈ paired files ↔ p.2 ∈ declared files ∧ p.2.says? = some p.1 := by
  rw [paired, mem_filterMap]
  constructor
  · rintro ⟨x, hx, hp⟩
    obtain ⟨d, hd, rfl⟩ := Option.map_eq_some_iff.1 hp
    exact ⟨hx, hd⟩
  · rintro ⟨hx, hd⟩
    exact ⟨p.2, hx, by rw [hd]; rfl⟩

theorem located_eq_paired (files : List File) :
    located files = (paired files).map fun p => (p.1, p.2.place) := by
  rw [located_eq, paired, map_filterMap]
  simp only [Option.map_map, Function.comp_def]

/-- Under the key that leads to the site, the symbol is that of the site, and the path is that
    of its file. -/
theorem symbolOf_withKey (hp : p ∈ paired files) {key : String}
    (hkey : (locationIndex files).get? key = some p.2.place) :
    symbolOf files (p.1.withKey key) = p.2.symbol p.1 ∧
      (locate files (locationIndex files) key).1 = p.2.file.path := by
  obtain ⟨hx, hd⟩ := mem_paired.1 hp
  have hfile : files[p.2.place.file]? = some p.2.file := (mem_declared.1 hx).1
  have hpath : pathOr files p.2.file.path p.1.file = p.2.file.path := by
    -- Without a path of its own, the declaration is given that of its file.
    rw [pathOr, (name_of_says? hx hd).1, (mem_declared.1 hx).1, Option.map_some, Option.getD_some,
      ite_self]
  rw [symbolOf]
  simp only [Declaration.key_withKey, locate_eq hkey hfile, Declaration.kept_withKey, hpath]
  exact ⟨rfl, trivial⟩

/-- The symbol of every declaration is that of its site, and so is the path that its key
    leads to. -/
theorem map_symbolOf_keyedDeclarations (hnames : NamesUnmarked files) :
    (keyedDeclarations files).map (fun d =>
        (d.unkeyed, symbolOf files d, (locate files (locationIndex files) d.key).1)) =
      (paired files).map fun p => (p.1.unkeyed, p.2.symbol p.1, p.2.file.path) := by
  refine ext_getElem? fun i => ?_
  rw [getElem?_map, getElem?_map, keyedDeclarations_eq, getElem?_zipWith,
    located_eq_paired, map_map, getElem?_map]
  cases hp : (paired files)[i]? with
  | none => cases (Keys.assign (bases files))[i]? <;> rfl
  | some p =>
    have hbase : (bases files)[i]? = some p.1.base := by
      rw [bases, located_eq_paired, map_map, getElem?_map, hp]
      rfl
    have hplace : (places files)[i]? = some p.2.place := by
      rw [places, located_eq_paired, map_map, getElem?_map, hp]
      rfl
    have hkey := Keys.getElem?_assign (bases files) i
    rw [hbase] at hkey
    generalize (Keys.next _ p.1.base).1 = key at hkey
    have hget := Location.get?_assign length_bases (unmarked_bases hnames) hkey
    rw [← locationIndex_eq, hplace] at hget
    rw [hkey]
    simp only [Option.map_some, Function.comp_apply, Declaration.kept_withKey,
      Declaration.key_withKey, symbolOf_withKey (mem_of_getElem? hp) hget]

/-! ## How declarations are listed -/

/-- The kind of the first type of a name that is declared. -/
def kindIn (ds : List Declaration) (name : String) : Option TypeKind :=
  ((ds.filterMap Declaration.type?).find? (·.name == name)).map (·.kind)

/-- The kind of the chunk of a declaration, and the type that it is listed under. A method
    is listed under its type, and not at all if that is an interface; where there is no
    such type it is a function. -/
def Declaration.role? (kindOf? : String → Option TypeKind) :
    Declaration → Option (ChunkKind × Option String)
  | .func f => some (.function, madeType? kindOf? f)
  | .method m =>
    if isLoose kindOf? m then some (.function, madeType? kindOf? m)
    else (methodItem? kindOf? m).map fun x => (.method, some x.2)
  | .type t => some (Outline.chunkKindOf t.kind, none)
  | .value v => some (if v.isConst then .const else .var, none)

theorem role?_unkeyed (kindOf? : String → Option TypeKind) (d : Declaration) :
    d.unkeyed.role? kindOf? = d.role? kindOf? := by
  cases d with
  | method m =>
    have hitem : (methodItem? kindOf? { m with key := "" }).map (fun x => x.2) =
        (methodItem? kindOf? m).map fun x => x.2 := by
      rw [methodItem?, methodItem?]
      cases m.receiverType with
      | none => rfl
      | some base =>
        rw [Option.bind_some, Option.bind_some]
        cases kindOf? base with
        | none => rfl
        | some kind => cases kind <;> rfl
    have hrole := congrArg (Option.map fun base => (ChunkKind.method, some base)) hitem
    rw [Option.map_map, Option.map_map] at hrole
    exact congrArg (ite _ _) hrole
  | _ => rfl

/-- The item of a declaration, from what is said and the symbol. -/
def itemOf? (kindOf? : String → Option TypeKind) (d : Declaration) (s : Symbol) : Option Item :=
  (d.role? kindOf?).map fun r => ⟨r.1, r.2, s⟩

/-- The item of a declaration with its key. -/
def keyedItem? (files : List File) (kindOf? : String → Option TypeKind) (d : Declaration) :
    Option Item :=
  itemOf? kindOf? d (symbolOf files d)

/-- The kinds of the types that a package declares. -/
def declaredKind? (files : List File) : String → Option TypeKind :=
  kindIn ((paired files).map Prod.fst)

/-- The item of a site. -/
def Declared.item? (files : List File) (x : Declared) : Option Item :=
  x.says?.bind fun d => itemOf? (declaredKind? files) d (x.symbol d)

theorem kindIn_unkeyed : kindIn (ds.map Declaration.unkeyed) = kindIn ds := by
  have htype : ∀ d : Declaration, d.unkeyed.type? = d.type?.map ({ · with key := "" }) := by
    intro d
    cases d <;> rfl
  funext name
  rw [kindIn, filterMap_map]
  simp only [Function.comp_def, htype]
  rw [← map_filterMap, find?_map, Option.map_map]
  rfl

theorem kindIn_keyedDeclarations (hnames : NamesUnmarked files) :
    kindIn (keyedDeclarations files) = declaredKind? files := by
  have h := congrArg (List.map Prod.fst) (map_symbolOf_keyedDeclarations hnames)
  rw [map_map, map_map] at h
  rw [declaredKind?, ← kindIn_unkeyed, ← kindIn_unkeyed ((paired files).map Prod.fst),
    map_map]
  exact congrArg kindIn h

/-- The items of the declarations with their keys are those of the sites. -/
theorem filterMap_keyedItem? (hnames : NamesUnmarked files) :
    (keyedDeclarations files).filterMap (keyedItem? files (kindIn (keyedDeclarations files))) =
      (declared files).filterMap (Declared.item? files) := by
  have h := congrArg (List.filterMap fun q => itemOf? (declaredKind? files) q.1 q.2.1)
    (map_symbolOf_keyedDeclarations hnames)
  rw [filterMap_map, filterMap_map, paired, filterMap_filterMap] at h
  simp only [Function.comp_def, itemOf?, role?_unkeyed] at h
  rw [kindIn_keyedDeclarations hnames]
  refine h.trans (congrArg (List.filterMap · _) (funext fun x => ?_))
  rw [Declared.item?]
  cases x.says? <;> rfl

/-! ## The items of a package -/

section items

variable (files)

/-- The item of a function. -/
def functionItem (x : FuncDoc × Option String) : Item :=
  ⟨.function, x.2, symbolOf files (.func x.1)⟩

/-- The item of a method of a type. -/
def methodItem (x : FuncDoc × String) : Item :=
  ⟨.method, some x.2, symbolOf files (.method x.1)⟩

/-- The item of a type. -/
def typeItem (t : TypeDoc) : Item :=
  ⟨Outline.chunkKindOf t.kind, none, symbolOf files (.type t)⟩

/-- The item of a constant or variable. -/
def valueItem (kind : ChunkKind) (v : ValueDoc) : Item :=
  ⟨kind, none, symbolOf files (.value v)⟩

theorem items_typeDef (t : TypeDoc) :
    (typeDef files (locationIndex files) t).items =
      typeItem files t :: (if t.kind = .interface then []
        else t.methods.map (·, t.name)).map (methodItem files) := by
  by_cases h : t.kind = .interface
  · simp only [TypeDef.items, typeDef, if_pos h]
    rfl
  · simp only [TypeDef.items, typeDef, if_neg h, map_map]
    rfl

/-- The items of a package, in the order of its outline. -/
theorem items_packageOutline (directory : String) (exportedOnly : Bool) :
    (packageOutline directory files exportedOnly).items =
      (ofFiles files exportedOnly).functionItems.map (functionItem files) ++
        (ofFiles files exportedOnly).types.flatMap (fun t =>
          typeItem files t :: (if t.kind = .interface then []
            else t.methods.map (·, t.name)).map (methodItem files)) ++
        (ofFiles files exportedOnly).consts.map (valueItem files .const) ++
        (ofFiles files exportedOnly).vars.map (valueItem files .var) := by
  simp only [Outline.items, packageOutline, functionItems, constructorItems, map_append,
    map_map, map_flatMap, flatMap_map, items_typeDef]
  rfl

end items

/-- Declarations are functions, methods, types, constants or variables. -/
theorem perm_by_form :
    ds.Perm ((ds.filterMap Declaration.func?).map .func ++
      ((ds.filterMap Declaration.method?).map .method ++
      ((ds.filterMap Declaration.type?).map .type ++
      ((ds.filterMap (Declaration.value? true)).map .value ++
        (ds.filterMap (Declaration.value? false)).map .value)))) := by
  induction ds with
  | nil => exact List.Perm.refl _
  | cons d ds ih =>
    refine (ih.cons d).trans ?_
    cases d with
    | func f => exact List.Perm.refl _
    | method m => exact perm_middle.symm
    | type t =>
      refine perm_middle.symm.trans (List.Perm.append_left _ ?_)
      exact perm_middle.symm
    | value v =>
      refine perm_middle.symm.trans (List.Perm.append_left _ ?_)
      refine perm_middle.symm.trans (List.Perm.append_left _ ?_)
      refine perm_middle.symm.trans (List.Perm.append_left _ ?_)
      cases hconst : v.isConst
      · simp only [filterMap_cons, Declaration.value?, hconst]
        exact perm_middle.symm
      · simp only [filterMap_cons, Declaration.value?, hconst]
        exact List.Perm.refl _

/-- Methods are listed as functions or under their types. -/
theorem filterMap_method_perm (files : List File) (kindOf? : String → Option TypeKind)
    (ms : List FuncDoc) :
    ((ms.map .method).filterMap (keyedItem? files kindOf?)).Perm
      ((ms.filter (isLoose kindOf?)).map (fun m => functionItem files (m, madeType? kindOf? m)) ++
        (ms.filterMap (methodItem? kindOf?)).map (methodItem files)) := by
  induction ms with
  | nil => exact List.Perm.refl _
  | cons m ms ih =>
    rw [map_cons]
    by_cases hloose : isLoose kindOf? m
    · have hitem : keyedItem? files kindOf? (.method m) =
          some (functionItem files (m, madeType? kindOf? m)) := by
        rw [keyedItem?, itemOf?, Declaration.role?, if_pos hloose]
        rfl
      rw [filterMap_cons_some hitem, filter_cons_of_pos hloose,
        filterMap_cons_none (methodItem?_of_isLoose hloose)]
      exact ih.cons _
    · have hitem : keyedItem? files kindOf? (.method m) =
          (methodItem? kindOf? m).map (methodItem files) := by
        rw [keyedItem?, itemOf?, Declaration.role?, if_neg hloose, Option.map_map]
        refine Option.map_congr fun x hx => ?_
        rw [← (methodItem?_eq_some.1 hx).1]
        rfl
      rw [filter_cons_of_neg hloose]
      cases hm : methodItem? kindOf? m with
      | none =>
        rw [filterMap_cons_none hm, filterMap_cons_none (by rw [hitem, hm]; rfl)]
        exact ih
      | some x =>
        rw [filterMap_cons_some hm, filterMap_cons_some (by rw [hitem, hm]; rfl)]
        exact (ih.cons _).trans perm_middle.symm

/-- The types of a package and their methods, each for itself. -/
theorem flatMap_typeItem_perm (files : List File) (p : PackageDoc) :
    (p.types.flatMap fun t => typeItem files t ::
        (if t.kind = .interface then [] else t.methods.map (·, t.name)).map (methodItem files)).Perm
      (p.methodItems.map (methodItem files) ++ (p.types.map core).map (typeItem files)) := by
  refine (map_append_flatMap_perm p.types (typeItem files) _).symm.trans ?_
  rw [methodItems, map_flatMap, map_map]
  exact perm_append_comm

theorem filterMap_value (files : List File) (kindOf? : String → Option TypeKind)
    (vs : List ValueDoc) (hvs : ∀ v ∈ vs, v.isConst = isConst) :
    (vs.map .value).filterMap (keyedItem? files kindOf?) =
      vs.map (valueItem files (if isConst then .const else .var)) := by
  rw [filterMap_map, ← filterMap_eq_map]
  refine filterMap_congr fun v hv => ?_
  rw [Function.comp_apply, keyedItem?, itemOf?, Declaration.role?, hvs v hv]
  rfl

theorem isConst_of_mem_filterMap {ds : List Declaration} {v : ValueDoc}
    (hv : v ∈ ds.filterMap (Declaration.value? isConst)) : v.isConst = isConst := by
  obtain ⟨d, _, hd⟩ := mem_filterMap.1 hv
  exact (Declaration.value?_eq_some.1 hd).2

/-- The items of a package are those of its declarations. -/
theorem items_perm_keyedDeclarations (directory : String) (files : List File) :
    (packageOutline directory files false).items.Perm
      ((keyedDeclarations files).filterMap
        (keyedItem? files (kindIn (keyedDeclarations files)))) := by
  obtain ⟨p, htypes, hfuncs, hconsts, hvars, hcompleted⟩ := completed_ofFiles files
  have hkind : p.kindOf? = kindIn (keyedDeclarations files) := by
    funext name
    rw [kindOf?, htypes, kindIn]
  have hfunctions : ((ofFiles files false).functionItems.map (functionItem files)).Perm
      ((p.funcs.map .func).filterMap (keyedItem? files p.kindOf?) ++
        (((keyedDeclarations files).filterMap Declaration.method?).filter
          (isLoose p.kindOf?)).map fun m => functionItem files (m, madeType? p.kindOf? m)) := by
    have h := hcompleted.functions.map (functionItem files)
    rw [map_map, map_append] at h
    rwa [filterMap_map, show keyedItem? files p.kindOf? ∘ Declaration.func =
      some ∘ (functionItem files ∘ fun f => (f, madeType? p.kindOf? f)) from rfl,
      filterMap_eq_map]
  have htypes' : ((ofFiles files false).types.map core).map (typeItem files) =
      (p.types.map .type).filterMap (keyedItem? files p.kindOf?) := by
    rw [hcompleted.types, map_map, filterMap_map, ← filterMap_eq_map]
    rfl
  have hconsts' := filterMap_value files p.kindOf? p.consts fun v hv =>
    isConst_of_mem_filterMap (hconsts ▸ hv)
  have hvars' := filterMap_value files p.kindOf? p.vars fun v hv =>
    isConst_of_mem_filterMap (hvars ▸ hv)
  have hmethods := (filterMap_method_perm files p.kindOf?
    ((keyedDeclarations files).filterMap Declaration.method?)).trans
      ((hcompleted.methods.map (methodItem files)).symm.append_left _)
  refine List.Perm.trans ?_ ((perm_by_form (keyedDeclarations files)).filterMap _).symm
  rw [← hkind, ← htypes, ← hfuncs, ← hconsts, ← hvars, items_packageOutline, hcompleted.consts,
    hcompleted.vars]
  simp only [filterMap_append, hconsts', hvars', ← htypes', append_assoc]
  -- Only the types and their methods change places.
  refine (hfunctions.append ((flatMap_typeItem_perm files _).append_right _)).trans ?_
  refine List.Perm.trans ?_ ((hmethods.symm.append_right _).append_left _)
  exact List.Perm.of_eq (by simp only [append_assoc]; rfl)

theorem items_perm (hnames : NamesUnmarked files) (directory : String) :
    (packageOutline directory files false).items.Perm
      ((declared files).filterMap (Declared.item? files)) := by
  rw [← filterMap_keyedItem? hnames]
  exact items_perm_keyedDeclarations directory files

end Go

end CodeAtlas
