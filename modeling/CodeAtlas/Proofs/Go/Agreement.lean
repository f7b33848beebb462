import CodeAtlas.Proofs.Go.Exported

/-!
# Two readings of a Go package

What the declarations of a package say and where they stand is gathered in two readings,
each of which hands out keys on its own. The keys are the same, in the same order, and no
two are equal, as long as no name holds the sign of numbers. So what is said of a
declaration is joined with its own place, and with no other: also if functions and types
share a name, if a name is declared again and again, or in several files.

The methods that an interface asks for have no keys. They are listed at the type with what
their elements say, without lines and source.

* `map_key_keyedDeclarations`, `map_fst_locationIndex`: the keys of both readings;
* `map_symbolOf_eq`: the symbols of all declarations;
* `exists_interface`: the symbols of the methods of interfaces;
* `readings_agree`: all of it, with what the outline lists.
-/

namespace CodeAtlas.Go

open Grammar List PackageDoc

variable {files : List File} {directory : String} {exportedOnly : Bool}

/-- The symbol of a site, if something is said there. -/
def Declared.symbol? (x : Declared) : Option Symbol :=
  x.says?.map x.symbol

/-! ## Keys -/

theorem map_key_keyedDeclarations (files : List File) :
    (keyedDeclarations files).map Declaration.key = Keys.assign (bases files) := by
  have hlength : ((located files).map Prod.fst).length = (Keys.assign (bases files)).length := by
    rw [Keys.length_assign, bases, length_map, length_map]
  rw [keyedDeclarations_eq, map_zipWith]
  simp only [Declaration.key_withKey]
  exact ext_getElem? fun i => by
    rw [getElem?_zipWith]
    by_cases hi : i < (Keys.assign (bases files)).length
    · rw [getElem?_eq_getElem hi, getElem?_eq_getElem (hlength ▸ hi)]
    · rw [getElem?_eq_none (Nat.le_of_not_lt hi)]

theorem map_fst_locationIndex (hnames : NamesUnmarked files) :
    (locationIndex files).map Prod.fst = Keys.assign (bases files) := by
  have hfst : ((Keys.assign (bases files)).zip (places files)).map Prod.fst =
      Keys.assign (bases files) := by
    refine map_fst_zip (Nat.le_of_eq ?_)
    rw [Keys.length_assign, length_bases]
  have hnodup : (((Keys.assign (bases files)).zip (places files)).map Prod.fst).Nodup := by
    rw [hfst]
    exact Keys.nodup_assign (unmarked_bases hnames)
  rw [locationIndex_eq, Location.Index.ofList_eq hnodup, hfst]

/-! ## Symbols -/

/-- The symbols of all declarations are those of their sites, one by one. -/
theorem map_symbolOf_eq (hnames : NamesUnmarked files) :
    (keyedDeclarations files).map (symbolOf files) =
      (declared files).filterMap Declared.symbol? := by
  have h := congrArg (List.map fun q => q.2.1) (map_symbolOf_keyedDeclarations hnames)
  rw [map_map, map_map, paired, map_filterMap] at h
  refine h.trans (congrArg (List.filterMap · _) (funext fun x => ?_))
  rw [Option.map_map]
  rfl

/-- What the outline lists are symbols of sites, no site twice. -/
theorem map_symbol_items_subperm (hnames : NamesUnmarked files) (directory : String)
    (exportedOnly : Bool) :
    ((packageOutline directory files exportedOnly).items.map Item.symbol).Subperm
      ((declared files).filterMap Declared.symbol?) := by
  have hall : ((packageOutline directory files false).items.map Item.symbol).Subperm
      ((declared files).filterMap Declared.symbol?) := by
    refine ((items_perm hnames directory).map Item.symbol).subperm.trans ?_
    rw [map_filterMap]
    refine (filterMap_sublist (fun x s hs => ?_) _).subperm
    -- An item is made of the symbol of its site.
    obtain ⟨item, hitem, rfl⟩ := Option.map_eq_some_iff.1 hs
    obtain ⟨d, hd, hitem⟩ := Option.bind_eq_some_iff.1 hitem
    obtain ⟨r, _, rfl⟩ := Option.map_eq_some_iff.1 hitem
    rw [Declared.symbol?, hd]
    rfl
  cases exportedOnly with
  | false => exact hall
  | true =>
    rw [items_exported]
    exact ((Outline.items_visible_sublist _ _).map _).subperm.trans hall

/-! ## Methods of interfaces -/

/-- The elements of the interface at a site that ask for methods. -/
def Site.elements : Site → List (Sited Kind)
  | .type _ spec =>
    (((spec.tree.part? .type).map Sited.partsOf).getD []).filter (·.tree.isKind .methodElem)
  | _ => []

/-- The symbol of a method that the interface at a site asks for. Name, signature and
    documentation are those of the element, the path is that of the file; there are no lines
    and no source. -/
def Declared.elementSymbol? (x : Declared) (s : Sited Kind) : Option Symbol :=
  (s.tree.part? .name).map fun name =>
    let m := funcDoc x.file.source x.number s (name.text x.file.source) none
    ⟨m.name, x.file.path, {}, m.methodSpec, m.doc, ""⟩

theorem interfaceMethods_typeDoc {source : Source} {i : Nat} {decl spec : Sited Kind}
    {name : String} (h : (typeDoc source i spec name).kind = .interface) :
    (typeDoc source i spec name).interfaceMethods =
      (Site.type decl spec).elements.filterMap fun s =>
        (s.tree.part? .name).map fun name => funcDoc source i s (name.text source) none := by
  cases htype : spec.tree.part? .type with
  | none => simp [typeDoc, htype] at h
  | some type =>
    have hmethods : (typeDoc source i spec name).interfaceMethods =
        interfaceMethods source i type := by
      simp only [typeDoc, htype] at h ⊢
      split_ifs at h ⊢
      rfl
    rw [hmethods, Site.elements, htype, interfaceMethods, Option.map_some, Option.getD_some,
      filterMap_filter]

/-- What is said of the methods of an interface is said by its elements. -/
theorem map_symbol_interfaceMethods {x : Declared} {t : TypeDoc}
    (ht : x.says? = some (.type t)) (hkind : t.kind = .interface) :
    t.interfaceMethods.map (fun m => (interfaceMethod x.file.path m).symbol) =
      x.site.elements.filterMap x.elementSymbol? := by
  obtain ⟨file, i, site⟩ := x
  cases site with
  | type decl spec =>
    obtain ⟨name, _, ht⟩ := Option.map_eq_some_iff.1 ht
    have hdoc : t.kind = (typeDoc file.source i spec (name.text file.source)).kind ∧
        t.interfaceMethods =
          (typeDoc file.source i spec (name.text file.source)).interfaceMethods := by
      rw [← Declaration.type.inj ht]
      split <;> exact ⟨rfl, rfl⟩
    rw [hdoc.2, interfaceMethods_typeDoc (hdoc.1.symm.trans hkind), map_filterMap]
    simp only [Option.map_map]
    rfl
  | _ =>
    obtain ⟨_, _, ht⟩ := Option.map_eq_some_iff.1 ht
    cases ht

/-- The types of a package are the declared ones, with their methods and constructors and
    perhaps without some fields. -/
theorem exists_type_of_mem_types {t : TypeDoc} (ht : t ∈ (ofFiles files exportedOnly).types) :
    ∃ u methods constructors fields, .type u ∈ keyedDeclarations files ∧
      t = { u with methods, constructors, fields } := by
  have hall : ∀ t ∈ (ofFiles files false).types, ∃ u methods constructors,
      .type u ∈ keyedDeclarations files ∧ t = { u with methods, constructors } := by
    intro t ht
    obtain ⟨p, htypes, _, _, _, hcompleted⟩ := completed_ofFiles files
    obtain ⟨u, hu, hcore⟩ := mem_map.1 (hcompleted.types ▸ mem_map_of_mem ht)
    rw [htypes] at hu
    obtain ⟨d, hd, hu⟩ := mem_filterMap.1 hu
    refine ⟨u, t.methods, t.constructors, Declaration.type?_eq_some.1 hu ▸ hd, ?_⟩
    exact congrArg (fun c : TypeDoc =>
      { c with methods := t.methods, constructors := t.constructors }) hcore.symm
  cases exportedOnly with
  | false =>
    obtain ⟨u, methods, constructors, hu, rfl⟩ := hall t ht
    exact ⟨u, methods, constructors, u.fields, hu, rfl⟩
  | true =>
    obtain ⟨t', ht', rfl⟩ := mem_map.1 ht
    obtain ⟨u, _, _, hu, rfl⟩ := hall t' (mem_filter.1 ht').1
    exact ⟨u, _, _, _, hu, rfl⟩

/-- An interface that the outline lists has the symbol of its site, and its methods have those
    of the elements there. -/
theorem exists_interface (hnames : NamesUnmarked files) {t : TypeDef}
    (ht : t ∈ (packageOutline directory files exportedOnly).types) (hkind : t.kind = .interface) :
    ∃ x ∈ declared files, x.symbol? = some t.symbol ∧
      t.methods.map Callable.symbol = x.site.elements.filterMap x.elementSymbol? := by
  obtain ⟨t', ht', rfl⟩ := mem_map.1 ht
  obtain ⟨u, methods, constructors, fields, hu, rfl⟩ := exists_type_of_mem_types ht'
  have hmem := mem_map_of_mem (f := fun d : Declaration =>
    (d.unkeyed, symbolOf files d, (locate files (locationIndex files) d.key).1)) hu
  rw [map_symbolOf_keyedDeclarations hnames] at hmem
  obtain ⟨⟨d, x⟩, hp, heq⟩ := mem_map.1 hmem
  obtain ⟨hx, hd⟩ := mem_paired.1 hp
  obtain ⟨hunkeyed, heq⟩ := Prod.mk.inj heq
  obtain ⟨hsymbol, hpath⟩ := Prod.mk.inj heq
  refine ⟨x, hx, by rw [Declared.symbol?, hd, Option.map_some, hsymbol]; rfl, ?_⟩
  cases d with
  | type v =>
    have hsame := Declaration.type.inj hunkeyed
    have hmethods := congrArg TypeDoc.interfaceMethods hsame
    have hinterface : u.kind = .interface := hkind
    rw [← map_symbol_interfaceMethods hd ((congrArg TypeDoc.kind hsame).trans hkind), hpath]
    simp only [typeDef, if_pos hinterface, map_map]
    exact congrArg (List.map _) hmethods.symm
  | _ => cases hunkeyed

/-- Both readings hand out the same keys in the same order, no two of them equal. Every
    declaration is found under its key, in a file of the package, and has the symbol of its
    own site; and so has all that the outline lists. Only the methods of an interface have
    no lines and no source: they say what its elements say. -/
theorem readings_agree (directory : String) (files : List File) (exportedOnly : Bool)
    (hnames : NamesUnmarked files) :
    (locationIndex files).map Prod.fst = (keyedDeclarations files).map Declaration.key ∧
    ((keyedDeclarations files).map Declaration.key).Nodup ∧
    (∀ d ∈ keyedDeclarations files, ∃ place file,
      (locationIndex files).get? d.key = some place ∧ files[place.file]? = some file) ∧
    (keyedDeclarations files).map (symbolOf files) =
      (declared files).filterMap Declared.symbol? ∧
    ((packageOutline directory files exportedOnly).items.map Item.symbol).Subperm
      ((declared files).filterMap Declared.symbol?) ∧
    ∀ t ∈ (packageOutline directory files exportedOnly).types, t.kind = .interface →
      ∃ x ∈ declared files, x.symbol? = some t.symbol ∧
        t.methods.map Callable.symbol = x.site.elements.filterMap x.elementSymbol? := by
  rw [map_fst_locationIndex hnames, map_key_keyedDeclarations]
  refine ⟨rfl, Keys.nodup_assign (unmarked_bases hnames), fun d hd => ?_,
    map_symbolOf_eq hnames, map_symbol_items_subperm hnames directory exportedOnly,
    fun t ht hkind => exists_interface hnames ht hkind⟩
  obtain ⟨place, hplace, hget⟩ := exists_get?_locationIndex hd
  obtain ⟨file, hfile⟩ := exists_file_of_mem_places hplace
  exact ⟨place, file, hget, hfile⟩

/-- Two files with a name that is declared in both, a function with the name of a type,
    constants without names of their own, and an interface. -/
def twins : List (String × Bytes) :=
  [("p/a.go", bytesOf ("package p\n\nfunc init() \x7b\x7d\n\ntype T struct\x7b\x7d\n\n" ++
      "const (\n\t_ = 1\n\t_, c = 2, 3\n)\n")),
    ("p/b.go", bytesOf ("package p\n\nfunc init() \x7b print() \x7d\n\nfunc T() \x7b\x7d\n\n" ++
      "func (t *T) Run() \x7b\x7d\n\ntype R interface \x7b\n\tRun()\n\x7d\n"))]

/-- Names that are there again are numbered in both readings, over all files. The second
    `init` has the path and source of the second file. -/
theorem readings_agree_twins :
    NamesUnmarked (goFiles twins) ∧
    (locationIndex (goFiles twins)).map Prod.fst =
      ["init", "T", "const:_", "const:_#2", "const:,", "const:c", "init#2", "T#2", "T.Run",
        "R"] ∧
    ((keyedDeclarations (goFiles twins)).map Declaration.key).Nodup ∧
    ((declared (goFiles twins)).filterMap Declared.symbol?).map
        (fun s => (s.name, s.filePath, s.code)) =
      [("init", "p/a.go", "func init() \x7b\x7d"), ("T", "p/a.go", "type T struct\x7b\x7d"),
        ("_", "p/a.go", "_ = 1"), ("_", "p/a.go", "_, c = 2, 3"), (",", "p/a.go", "_, c = 2, 3"),
        ("c", "p/a.go", "_, c = 2, 3"), ("init", "p/b.go", "func init() \x7b print() \x7d"),
        ("T", "p/b.go", "func T() \x7b\x7d"), ("Run", "p/b.go", "func (t *T) Run() \x7b\x7d"),
        ("R", "p/b.go", "type R interface \x7b\n\tRun()\n\x7d")] ∧
    ((packageOutline "p" (goFiles twins) false).items.map Item.symbol).Subperm
      ((declared (goFiles twins)).filterMap Declared.symbol?) ∧
    (packageOutline "p" (goFiles twins) false).types.map (fun t => (t.kind, t.methods.map
        fun m => (m.name, m.signature, m.span.startLine, m.code))) =
      [(.struct, [("Run", "func (t *T) Run()", 7, "func (t *T) Run() \x7b\x7d")]),
        (.interface, [("Run", "Run()", 0, "")])] ∧
    ∀ t ∈ (packageOutline "p" (goFiles twins) false).types, t.kind = .interface →
      ∃ x ∈ declared (goFiles twins), x.symbol? = some t.symbol ∧
        t.methods.map Callable.symbol = x.site.elements.filterMap x.elementSymbol? := by
  have hnames : NamesUnmarked (goFiles twins) := namesUnmarked_of_parsed parsed_of_mem_goFiles
  obtain ⟨_, hnodup, _, _, hitems, hinterfaces⟩ := readings_agree "p" (goFiles twins) false hnames
  exact ⟨hnames, by decide +kernel, hnodup, by decide +kernel, hitems, by decide +kernel,
    hinterfaces⟩

/-- An interface with one method. -/
def closer : List (String × Bytes) :=
  [("p/a.go", bytesOf "package p\n\ntype R interface \x7b\n\tClose() error\n\x7d\n")]

/-- The element of a method has a line and a source, which the symbol of the method lacks. -/
theorem interface_methods_unplaced :
    ((declared (goFiles closer)).flatMap fun x => x.site.elements.map fun s =>
        (s.tree.startLine, s.tree.text x.file.source)) = [(4, "Close() error")] ∧
    ((packageOutline "p" (goFiles closer) false).types.flatMap fun t => t.methods.map fun m =>
        (m.name, m.signature, m.span.startLine, m.code)) = [("Close", "Close() error", 0, "")] := by
  constructor <;> decide +kernel

end CodeAtlas.Go
