import CodeAtlas.Proofs.Go.Listing
import CodeAtlas.Proofs.Go.Specification
import CodeAtlas.Proofs.Go.TypeName

/-!
# Functions that make values of a type

A function is listed as making values of the type whose name is taken from the text of its first
result, if the package declares such a type (`Declared.listedType?`). A function does make values
of a type if its first result is the type or a pointer to it (`Declared.MakesType`). The two
agree for plain results, such as `*List[T]`, but not for all: a function with a channel of `T`
for a result is listed with `T`, and one that results in a `Pair[K, V]` is not listed with
`Pair`.

* `madeType?_eq`: the name that is taken from the first result, by the type of that;
* `functions_perm`: the functions of a package, site by site;
* `constructors_listed`: which functions are listed with the types that they make values of.
-/

namespace CodeAtlas.Go

open Grammar PackageDoc List

variable {files : List File} {x : Declared}

/-! ## Types of a package -/

/-- The package declares a type of the name. -/
def declaresType (files : List File) (name : String) : Bool :=
  (firstType? files name).isSome

theorem isSome_declaredKind? (files : List File) (name : String) :
    (declaredKind? files name).isSome = declaresType files name := by
  have h := congrArg Option.isSome (map_declaredKind? files name)
  rwa [Option.isSome_map, Option.isSome_map] at h

theorem items_filter_function (o : Outline) :
    o.items.filter (·.kind = .function) =
      o.functions.map fun g => ⟨.function, g.constructs, g.symbol⟩ := by
  have hkind : ∀ kind, Outline.chunkKindOf kind ≠ .function := by
    rintro ⟨⟩ <;> decide
  have htypes : (o.types.flatMap TypeDef.items).filter (·.kind = .function) = [] := by
    rw [filter_eq_nil_iff]
    intro item hitem
    obtain ⟨t, _, hitem⟩ := mem_flatMap.1 hitem
    rcases mem_cons.1 hitem with rfl | hitem
    · simpa using hkind t.kind
    · split at hitem
      · cases hitem
      · obtain ⟨m, _, rfl⟩ := mem_map.1 hitem
        simp
  have hfunctions : (o.functions.map fun g => (⟨.function, g.constructs, g.symbol⟩ : Item)).filter
      (·.kind = .function) = o.functions.map fun g => ⟨.function, g.constructs, g.symbol⟩ := by
    rw [filter_eq_self]
    intro item hitem
    obtain ⟨g, _, rfl⟩ := mem_map.1 hitem
    rfl
  rw [Outline.items, filter_append, filter_append, filter_append, hfunctions, htypes]
  simp

section

variable (hfiles : ∀ f ∈ files, f.Parsed) {d : Declaration}

include hfiles

/-- The types of a package go by words. -/
theorem isWord_of_declaresType {name : String}
    (h : declaresType files name) : isWord name := by
  obtain ⟨spec, hspec⟩ := Option.isSome_iff_exists.1 h
  obtain ⟨x, hx, hspec⟩ := exists_of_findSome?_eq_some hspec
  obtain ⟨hfile, s, hs, hsite⟩ := mem_declared.1 hx
  rw [Declared.typeSpec?] at hspec
  split at hspec
  · next decl spec' hsite' =>
    rw [hsite'] at hsite
    rcases exists_of_mem_sitesAt hsite with ⟨_, h⟩ | ⟨_, h⟩ | ⟨hkind, spec'', hmem, h⟩ |
      ⟨_, _, _, _, _, _, _, h⟩
    · cases h
    · cases h
    · cases h
      obtain ⟨hholds, hany⟩ := holds_of_mem_specs hmem
      obtain ⟨name', hname', hword⟩ := exists_name (hfiles _ (mem_of_getElem? hfile))
        (.head (Sited.tree_mem_parts hs) hholds) (by simp [namingKinds, hany])
      rw [hname'] at hspec
      split at hspec
      · next hsame => exact eq_of_beq hsame ▸ hword
      · cases hspec
    · cases h
  · cases hspec

/-! ## First results -/

/-- The first result of what is declared at a site. -/
def Declared.firstResult? (x : Declared) : Option TypeExpr :=
  (resultsAt x.file.source x.site.whole).head?.map Prod.snd

/-- The type that a function is listed with: that whose name is taken from its first result. -/
def Declared.listedType? (files : List File) (x : Declared) : Option String :=
  match x.receiver? with
  | some _ => none
  | none => ((x.firstResult?.bind TypeExpr.nameShown?).map (String.ofList ·.1)).filter
      (declaresType files)

/-- The name that is taken from a text, if it is that of a type. -/
theorem filter_receiverBase (r : List Char) :
    (some (receiverBase (String.ofList (Text.afterLast ' ' r)))).filter (declaresType files) =
      ((nameIn? r).map (String.ofList ·.1)).filter (declaresType files) := by
  rw [receiverBase, String.toList_ofList, nameIn?]
  generalize ((Text.afterLast ' ' r).dropWhile (· == '*')).takeWhile (· != '[') = name
  have hword : isWord (String.ofList name) = (!name.isEmpty && name.all isWordPart) := by
    have hempty : (String.ofList name).isEmpty = name.isEmpty := by
      rw [Bool.eq_iff_iff, String.isEmpty_iff, List.isEmpty_iff, ← String.toList_inj,
        String.toList_ofList, String.toList_empty]
    rw [isWord, String.toList_ofList, hempty]
  rw [← hword]
  split
  · rfl
  · next hno =>
    refine Option.filter_some_neg (Bool.eq_false_iff.2 fun hdeclared => hno ?_)
    exact isWord_of_declaresType hfiles hdeclared

/-- The type that a function without a receiver is listed with. -/
theorem madeType?_eq (source : Source) (i : Nat) (decl : Sited Kind) (name : String) :
    madeType? (declaredKind? files) (funcDoc source i decl name none) =
      ((((resultsAt source decl.tree).head?.map Prod.snd).bind TypeExpr.nameShown?).map
        (String.ofList ·.1)).filter (declaresType files) := by
  have hreturns : (funcDoc source i decl name none).returns =
      TypeExpr.paramTexts (resultsAt source decl.tree) := by
    rw [resultsAt_eq, funcDoc]
    cases decl.tree.part? .result with
    | none => rfl
    | some r => exact resultsOf_eq source r
  have hproduces : (funcDoc source i decl name none).produces? =
      (TypeExpr.paramTexts (resultsAt source decl.tree)).head?.map fun r =>
        receiverBase (String.ofList (Text.afterLast ' ' r.toList)) := by
    rw [← hreturns]
    rfl
  rw [madeType?, hproduces, TypeExpr.paramTexts_eq_map, head?_map,
    funext (isSome_declaredKind? files)]
  cases (resultsAt source decl.tree).head? with
  | none => rfl
  | some p =>
    have hname : nameIn? (paramText p.1 p.2.text).toList = p.2.nameShown? := by
      rw [nameIn?_paramText, TypeExpr.nameIn?_text]
    simp only [Option.map_some, Option.bind_some]
    rw [filter_receiverBase hfiles, hname]

/-! ## Functions of a package -/

/-- What is declared at a site is listed as a function: it is one, or a method without a type. -/
def Declared.isFunction (files : List File) (x : Declared) : Bool :=
  match x.site with
  | .func _ => true
  | .method _ => (x.receiver?.bind (firstType? files)).isNone
  | _ => false

/-- How a site is listed, if as a function. -/
theorem filter_role? (hd : x.says? = some d) :
    (d.role? (declaredKind? files)).filter (·.1 = .function) =
      if x.isFunction files then some (.function, x.listedType? files) else none := by
  -- Types and values are listed by their form.
  have hother : x.receiver? = none → x.isFunction files = false →
      x.site.chunkKind ≠ .function → (d.role? (declaredKind? files)).filter (·.1 = .function) =
        if x.isFunction files then some (.function, x.listedType? files) else none := by
    intro hreceiver hfunction hkind
    rcases role_cases files hd with ⟨_, parent, hrole, _⟩ | ⟨base, hbase, _⟩ | ⟨base, _, hbase, _⟩
    · rw [hrole, hfunction]
      exact Option.filter_some_neg (decide_eq_false hkind)
    · cases hreceiver.symm.trans hbase
    · cases hreceiver.symm.trans hbase
  rw [Declared.says?] at hd
  cases hsite : x.site with
  | func decl =>
    rw [hsite] at hd
    obtain ⟨name, _, rfl⟩ := Option.map_eq_some_iff.1 hd
    simp only [Declaration.role?, Declared.isFunction, Declared.listedType?, Declared.receiver?,
      Declared.firstResult?, hsite]
    rw [madeType?_eq hfiles]
    rfl
  | method decl =>
    rw [hsite] at hd
    obtain ⟨name, _, rfl⟩ := Option.map_eq_some_iff.1 hd
    have hreceiver? : x.receiver? = (receiverOf x.file.source decl.tree).map (·.2) := by
      simp only [Declared.receiver?, hsite]
    have hfunction : x.isFunction files = (x.receiver?.bind (firstType? files)).isNone := by
      simp only [Declared.isFunction, hsite]
    cases hreceiver : receiverOf x.file.source decl.tree with
    | none =>
      have hloose : (Declaration.method (funcDoc x.file.source x.number decl
          (name.text x.file.source) none)).role? (declaredKind? files) =
            some (.function, madeType? (declaredKind? files)
              (funcDoc x.file.source x.number decl (name.text x.file.source) none)) := by
        rw [Declaration.role?]
        simp [isLoose, funcDoc]
      rw [hreceiver] at hreceiver?
      rw [hloose, hfunction, madeType?_eq hfiles]
      simp only [Declared.listedType?, hreceiver?, Declared.firstResult?, hsite]
      rfl
    | some r =>
      rw [hreceiver, Option.map_some] at hreceiver?
      rw [hfunction, hreceiver?, Option.bind_some, Declared.listedType?, hreceiver?]
      rcases role?_method files
        (m := funcDoc x.file.source x.number decl (name.text x.file.source) (some r)) rfl
        (Option.some_ne_none r.1) with ⟨hfirst, hrole⟩ | ⟨spec, hfirst, hrole⟩
      · rw [hrole, hfirst]
        rfl
      · rw [hrole, hfirst]
        split <;> rfl
  | type decl spec =>
    refine hother ?_ ?_ ?_
    · simp only [Declared.receiver?, hsite]
    · simp only [Declared.isFunction, hsite]
    · rw [hsite, Site.chunkKind]
      split <;> decide
  | value isConst decl spec number name =>
    refine hother ?_ ?_ ?_
    · simp only [Declared.receiver?, hsite]
    · simp only [Declared.isFunction, hsite]
    · rw [hsite, Site.chunkKind]
      cases isConst <;> decide

/-- The item of a site that is listed as a function. -/
theorem filter_item? (hd : x.says? = some d) :
    (x.item? files).filter (·.kind = .function) =
      if x.isFunction files then some ⟨.function, x.listedType? files, x.symbol d⟩ else none := by
  have hrole := congrArg (Option.map fun r => (⟨r.1, r.2, x.symbol d⟩ : Item))
    (filter_role? hfiles hd)
  rw [Declared.item?, hd, Option.bind_some, itemOf?, Option.filter_map]
  refine hrole.trans ?_
  split <;> rfl

/-- The symbol is that of what is declared at a site. -/
structure Declared.ShownBy (x : Declared) (g : Callable) : Prop where
  name : ∃ name, x.site.name? = some name ∧ g.name = name.text x.file.source
  filePath : g.filePath = x.file.path
  startLine : g.span.startLine = x.site.whole.startLine
  code : g.code = x.site.whole.text x.file.source

/-- The functions of a package, site by site, with the types that they are listed with. -/
theorem functions_perm (directory : String) :
    ∃ listed : List Callable, (packageOutline directory files false).functions.Perm listed ∧
      List.Forall₂ (fun x g => x.ShownBy g ∧ g.constructs = x.listedType? files)
        ((declared files).filter (Declared.isFunction files)) listed := by
  have hperm := (items_perm (namesUnmarked_of_parsed hfiles) directory).filter
    (·.kind = .function)
  rw [items_filter_function, filter_filterMap] at hperm
  have hitems : List.Forall₂ (fun (item : Item) (g : Callable) =>
      item = ⟨.function, g.constructs, g.symbol⟩)
        ((packageOutline directory files false).functions.map fun g =>
          ⟨.function, g.constructs, g.symbol⟩) (packageOutline directory files false).functions :=
    forall₂_map_left_iff.2 (forall₂_same.2 fun _ _ => rfl)
  obtain ⟨listed, hlisted, hfunctions⟩ := perm_comp_forall₂ hperm.symm hitems
  refine ⟨listed, hfunctions.symm, forall₂_filter_of_filterMap (fun x hx => ?_)
    (fun x hx item hitem g hg => ?_) hlisted⟩
  · obtain ⟨name, hname, _⟩ := (named_of_parsed hfiles hx).name
    obtain ⟨d, hd⟩ := exists_says? hx hname
    rw [filter_item? hfiles hd]
    split <;> simp_all
  · obtain ⟨name, hname, _⟩ := (named_of_parsed hfiles hx).name
    obtain ⟨d, hd⟩ := exists_says? hx hname
    obtain ⟨_, name', hname', htext⟩ := name_of_says? hx hd
    rw [filter_item? hfiles hd] at hitem
    split at hitem
    · cases hitem
      obtain ⟨hconstructs, hsymbol⟩ : x.listedType? files = g.constructs ∧
          x.symbol d = g.symbol := by
        injection hg with _ hconstructs hsymbol
        exact ⟨hconstructs, hsymbol⟩
      refine ⟨⟨⟨name', hname', ?_⟩, ?_, ?_, ?_⟩, hconstructs.symm⟩
      · rw [← htext]
        exact (congrArg Symbol.name hsymbol).symm
      · exact (congrArg Symbol.filePath hsymbol).symm
      · have hspan : x.place.span.startLine = x.site.whole.startLine := by
          rw [Declared.place, Site.place, hname']
          rfl
        rw [← hspan]
        exact (congrArg (·.span.startLine) hsymbol).symm
      · exact (congrArg Symbol.code hsymbol).symm
    · cases hitem

end

/-- The chunks of functions, with the types that these are listed with. -/
theorem chunks_filter_function {o : Outline} (ho : o.IsGo) :
    (o.chunks.filter (·.kind = .function)).map (fun c => (c.name, c.filePath, c.parent)) =
      o.functions.map fun g => (g.name, g.filePath, g.constructs) := by
  have hfile : (o.fileChunk?.map Chunk.bare).toList.filter (·.kind = .function) = [] := by
    rw [filter_eq_nil_iff]
    intro c hc
    obtain ⟨c', hc', rfl⟩ := Option.map_eq_some_iff.1 (Option.mem_toList.1 hc)
    have hkind : c'.kind = .file := o.kind_fileChunk? hc'
    simp [Chunk.bare, hkind]
  have hitem : ∀ item, (o.itemChunk item).kind = item.kind ∧
      (o.itemChunk item).name = item.symbol.name ∧
      (o.itemChunk item).filePath = item.symbol.filePath ∧
      (o.itemChunk item).parent = item.parent := by
    intro item
    rw [Outline.itemChunk, Outline.baseChunk_eq]
    exact ⟨rfl, rfl, rfl, rfl⟩
  have hchunks := congrArg (fun cs => (cs.filter fun c : Chunk => c.kind = .function).map
    fun c => (c.name, c.filePath, c.parent)) (Outline.map_bare_chunks ho)
  rw [filter_append, hfile, nil_append, filter_map, filter_map] at hchunks
  simp only [Function.comp_def, hitem, items_filter_function, map_map] at hchunks
  exact hchunks

/-! ## Functions and the types that they make values of -/

/-- The names of the type parameters of what is declared at a site. -/
def Declared.typeParams (x : Declared) : List String :=
  (((x.site.whole.part? .typeParameters).map solidNodes).getD []).flatMap fun p =>
    (p.partsAs .name).map (·.text x.file.source)

/-- What is declared at a site makes values of a type of the package: its first result is the
    type or a pointer to it, and not a type parameter of that name. -/
def Declared.MakesType (files : List File) (x : Declared) (name : String) : Prop :=
  declaresType files name = true ∧ name ∉ x.typeParams ∧
    ∃ t w, x.firstResult? = some t ∧ t.made? = some w ∧ w.1 = name

/-- The first result is plain, no type parameter has the name of a type of the package, and no
    type has the name of maps. -/
structure Declared.IsPlain (files : List File) (x : Declared) : Prop where
  result : ∀ t, x.firstResult? = some t → t.isPlain = true
  typeParams : ∀ name ∈ x.typeParams, declaresType files name = false
  map : declaresType files "map" = false

/-- A function with a plain result is listed with the type that it makes values of. -/
theorem listedType?_of_isPlain (hreceiver : x.receiver? = none) (hplain : x.IsPlain files)
    (name : String) : x.listedType? files = some name ↔ x.MakesType files name := by
  rw [Declared.listedType?, hreceiver, Option.filter_eq_some_iff, and_comm]
  refine and_congr_right fun hdeclared => ?_
  have hparam : name ∉ x.typeParams := fun hmem =>
    Bool.false_ne_true ((hplain.typeParams name hmem).symm.trans hdeclared)
  rw [and_iff_right hparam]
  have hmap : name.toList ≠ "map".toList := by
    intro heq
    rw [String.toList_inj.1 heq, hplain.map] at hdeclared
    cases hdeclared
  have hlist : ∀ found : Option (List Char × Bool), found.map (String.ofList ·.1) = some name ↔
      found.map Prod.fst = some name.toList := by
    intro found
    cases found with
    | none => simp
    | some p => simp [← String.toList_inj]
  cases hresult : x.firstResult? with
  | none => simp
  | some t =>
    rw [Option.bind_some, hlist]
    rcases TypeExpr.nameShown?_of_isPlain (hplain.result t hresult) with hshown | ⟨hshown, hnone⟩
    · rw [hshown, Option.map_eq_some_iff]
      constructor
      · rintro ⟨w, hw, hname⟩
        exact ⟨t, w, rfl, hw, String.toList_inj.1 hname⟩
      · rintro ⟨_, w, ⟨⟩, hw, rfl⟩
        exact ⟨w, hw, rfl⟩
    · rw [hshown]
      constructor
      · intro heq
        exact absurd (Option.some.inj heq).symm hmap
      · rintro ⟨_, w, ⟨⟩, hw, _⟩
        cases hnone.symm.trans hw

/-- A package lists its functions, each of them once, and with each there is the type whose name
    is taken from its first result; the chunks of functions have these types for parents. If the
    first result is plain, a function is listed with a type if and only if it makes values of
    that. -/
theorem constructors_listed (directory : String) (contents : List (String × Bytes))
    (exportedOnly : Bool) (o : Outline) (h : outline? directory contents exportedOnly = some o) :
    (o.chunks.filter (·.kind = .function)).map (fun c => (c.name, c.filePath, c.parent)) =
      o.functions.map (fun g => (g.name, g.filePath, g.constructs)) ∧
    ∃ listed : List Callable,
      o.functions.Perm (listed.filter fun g => !exportedOnly ||
        (isExported g.name && g.receiver.all isExported && g.makesVisible)) ∧
      List.Forall₂ (fun x g =>
          x.ShownBy g ∧ g.constructs = x.listedType? (goFiles contents) ∧
          (x.receiver? = none → x.IsPlain (goFiles contents) → ∀ name,
            g.constructs = some name ↔ x.MakesType (goFiles contents) name))
        ((declared (goFiles contents)).filter (Declared.isFunction (goFiles contents))) listed := by
  have hfiles : ∀ f ∈ goFiles contents, f.Parsed := parsed_of_mem_goFiles
  obtain ⟨_, rfl⟩ := outline?_eq_some.1 h
  refine ⟨chunks_filter_function (isGo_packageOutline directory _ exportedOnly), ?_⟩
  obtain ⟨listed, hperm, hlisted⟩ := functions_perm hfiles directory
  refine ⟨listed, ?_, hlisted.imp fun x g ⟨hshown, hconstructs⟩ => ?_⟩
  · cases exportedOnly with
    | false => simpa using hperm
    | true =>
      rw [functions_exported]
      exact hperm.filter _
  · refine ⟨hshown, hconstructs, fun hreceiver hplain name => ?_⟩
    rw [hconstructs, listedType?_of_isPlain hreceiver hplain]

/-- A package with functions that result in a pointer to an instance of one of its types, a
    channel of such, an instance with two arguments, and a slice. -/
def makers : List (String × Bytes) :=
  [("p/a.go", bytesOf ("package p\n\ntype List[E any] struct\x7b\x7d\n\n" ++
    "type Pair[K, V any] struct\x7b\x7d\n\n" ++
    "func NewList() (l *List[int], err error) \x7b return \x7d\n\n" ++
    "func Each() chan List[int] \x7b return nil \x7d\n")),
    ("p/b.go", bytesOf ("package p\n\nfunc (u U) Get() List[int] \x7b panic(0) \x7d\n\n" ++
    "func NewPair() Pair[int, string] \x7b panic(0) \x7d\n\n" ++
    "func Slice() []List[int] \x7b return nil \x7d\n"))]

/-- The pointer counts, whatever the name of the result, and the slice does not. Nor does the
    instance with two arguments, but the channel does. -/
theorem constructors_listed_makers :
    ∃ o, outline? "p" makers false = some o ∧
      o.functions.map (fun g => (g.name, g.constructs)) =
        [("NewList", some "List"), ("Each", some "List"), ("NewPair", none), ("Slice", none),
          ("Get", none)] ∧
      (o.chunks.filter (·.kind = .function)).map (fun c => (c.name, c.filePath, c.parent)) =
        o.functions.map (fun g => (g.name, g.filePath, g.constructs)) ∧
      ∃ listed : List Callable,
        o.functions.Perm (listed.filter fun g => !false ||
          (isExported g.name && g.receiver.all isExported && g.makesVisible)) ∧
        List.Forall₂ (fun x g =>
            x.ShownBy g ∧ g.constructs = x.listedType? (goFiles makers) ∧
            (x.receiver? = none → x.IsPlain (goFiles makers) → ∀ name,
              g.constructs = some name ↔ x.MakesType (goFiles makers) name))
          ((declared (goFiles makers)).filter (Declared.isFunction (goFiles makers))) listed := by
  have hfunctions : (outline? "p" makers false).map
      (fun o => o.functions.map fun g => (g.name, g.constructs)) =
      some [("NewList", some "List"), ("Each", some "List"), ("NewPair", none), ("Slice", none),
        ("Get", none)] := by decide +kernel
  obtain ⟨o, ho, hfunctions⟩ := Option.map_eq_some_iff.1 hfunctions
  exact ⟨o, ho, hfunctions, constructors_listed "p" makers false o ho⟩

/-- A function that results in a channel of a type of the package. -/
def channelMaker : List (String × Bytes) :=
  [("p/a.go", bytesOf "package p\n\ntype T int\n\nfunc Each() chan T \x7b return nil \x7d\n")]

/-- A function is listed with the type that goes through the channel. -/
theorem channel_listed_as_constructor :
    ∃ o, outline? "p" channelMaker false = some o ∧
      o.functions.map (fun g => (g.name, g.returns, g.constructs)) =
        [("Each", ["chan T"], some "T")] ∧
      (o.chunks.filter (·.kind = .function)).map (fun c => (c.name, c.parent)) =
        [("Each", some "T")] := by
  have hfunctions : (outline? "p" channelMaker false).map (fun o =>
      (o.functions.map (fun g => (g.name, g.returns, g.constructs)),
        (o.chunks.filter (·.kind = .function)).map fun c => (c.name, c.parent))) =
      some ([("Each", ["chan T"], some "T")], [("Each", some "T")]) := by decide +kernel
  obtain ⟨o, ho, hfunctions⟩ := Option.map_eq_some_iff.1 hfunctions
  obtain ⟨hfunctions, hchunks⟩ := Prod.mk.inj hfunctions
  exact ⟨o, ho, hfunctions, hchunks⟩

end CodeAtlas.Go
