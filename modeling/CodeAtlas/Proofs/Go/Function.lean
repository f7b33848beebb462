import CodeAtlas.Proofs.Go.Member

/-!
# Functions of Go packages

Functions are moved to the types whose values they make, and methods without a type
become functions. On the way none is lost, and none is made up (`PackageDoc.functions`).
What the outline of a package says of a function is what stands at its place.

* `func_mem_functions`: every function that is declared is in the package;
* `func_or_method_of_mem_functions`: nothing else is, but methods;
* `exists_function_of_funcDecl`: what the outline says of a function;
* `filePath_of_mem_functions`: all functions of the outline are in the files.
-/

namespace CodeAtlas.Go

open Grammar List

variable {f : FuncDoc}

namespace PackageDoc

variable {files : List File}

/-- The functions of a package, those that make values of its types included. -/
def functions (p : PackageDoc) : List FuncDoc :=
  p.types.flatMap TypeDoc.constructors ++ p.funcs

theorem functions_eq (p : PackageDoc) : p.functions = p.functionItems.map Prod.fst := by
  simp [functions, functionItems, constructorItems, map_flatMap, Function.comp_def]

theorem func_mem_functions (hf : .func f ∈ keyedDeclarations files) :
    f ∈ (ofFiles files false).functions := by
  obtain ⟨p, _, hfuncs, _, _, hcompleted⟩ := completed_ofFiles files
  have hmem : f ∈ p.funcs := by
    rw [hfuncs]
    exact mem_filterMap.2 ⟨_, hf, rfl⟩
  rw [functions_eq, (hcompleted.functions.map Prod.fst).mem_iff, map_map]
  exact mem_map.2 ⟨f, mem_append_left _ hmem, rfl⟩

/-- Nothing else is in the package, but methods. -/
theorem func_or_method_of_mem_functions (hf : f ∈ (ofFiles files false).functions) :
    .func f ∈ keyedDeclarations files ∨ .method f ∈ keyedDeclarations files := by
  obtain ⟨p, _, hfuncs, _, _, hcompleted⟩ := completed_ofFiles files
  rw [functions_eq, (hcompleted.functions.map Prod.fst).mem_iff, map_map] at hf
  obtain ⟨f', hf', rfl⟩ := mem_map.1 hf
  rcases mem_append.1 hf' with hf' | hf'
  · rw [hfuncs] at hf'
    obtain ⟨d, hd, hf'⟩ := mem_filterMap.1 hf'
    exact .inl (Declaration.func?_eq_some.1 hf' ▸ hd)
  · obtain ⟨d, hd, hf'⟩ := mem_filterMap.1 (mem_filter.1 hf').1
    exact .inr (Declaration.method?_eq_some.1 hf' ▸ hd)

end PackageDoc

/-! ## The outline of a package -/

variable {files : List File} {directory : String} {file : File} {g : Callable}

/-- The symbol of a function, perhaps of one that makes values of a type. -/
def Tells (files : List File) (f : FuncDoc) (g : Callable) : Prop :=
  ∃ typeDeps constructs,
    g = { callable files (locationIndex files) f with typeDeps, constructs }

theorem exists_tells (directory : String) (hf : f ∈ (PackageDoc.ofFiles files false).functions) :
    ∃ g ∈ (packageOutline directory files false).functions, Tells files f g := by
  rcases mem_append.1 hf with hf | hf
  · obtain ⟨t, ht, hf⟩ := mem_flatMap.1 hf
    refine ⟨constructor files (locationIndex files) t.name f, mem_append_left _ ?_, _, _, rfl⟩
    exact mem_flatMap.2 ⟨t, ht, mem_map_of_mem hf⟩
  · exact ⟨_, mem_append_right _ (mem_map_of_mem hf), _, _, rfl⟩

theorem tells_of_mem_functions (hg : g ∈ (packageOutline directory files false).functions) :
    ∃ f ∈ (PackageDoc.ofFiles files false).functions, Tells files f g := by
  rcases mem_append.1 hg with hg | hg
  · obtain ⟨t, ht, hg⟩ := mem_flatMap.1 hg
    obtain ⟨f, hf, rfl⟩ := mem_map.1 hg
    exact ⟨f, mem_append_left _ (mem_flatMap.2 ⟨t, ht, hf⟩), _, _, rfl⟩
  · obtain ⟨f, hf, rfl⟩ := mem_map.1 hg
    exact ⟨f, mem_append_right _ hf, _, _, rfl⟩

theorem locate_eq {key : String} {place : Location}
    (hkey : (locationIndex files).get? key = some place) (hfile : files[place.file]? = some file) :
    locate files (locationIndex files) key =
      (file.path, place.span, place.excerpt file.source) := by
  simp only [locate, hkey, hfile]

theorem filePath_of_mem_functions (hg : g ∈ (packageOutline directory files false).functions) :
    ∃ file ∈ files, g.filePath = file.path := by
  obtain ⟨f, hf, _, _, rfl⟩ := tells_of_mem_functions hg
  have hkey : ∃ place ∈ places files, (locationIndex files).get? f.key = some place := by
    rcases PackageDoc.func_or_method_of_mem_functions hf with hf | hf
    · exact exists_get?_locationIndex hf
    · exact exists_get?_locationIndex hf
  obtain ⟨place, hplace, hkey⟩ := hkey
  obtain ⟨file, hfile⟩ := exists_file_of_mem_places hplace
  have hlocate := locate_eq hkey hfile
  simp only [callable, hlocate, pathOr]
  split
  · next hempty =>
    -- Without a path of its own, the function is in the file that declares it.
    cases hfile' : files[f.file]? with
    | none => exact ⟨file, mem_of_getElem? hfile, (String.isEmpty_iff.1 hempty).symm⟩
    | some file' => exact ⟨file', mem_of_getElem? hfile', rfl⟩
  · exact ⟨file, mem_of_getElem? hfile, rfl⟩

/-- A function that is declared at the top of a file, and its place. -/
theorem func_mem_located {i : Nat} (hfile : files[i]? = some file) {s : Sited Kind}
    (hs : s ∈ Sited.partsOf file.tree) (hkind : s.tree.isKind .funcDecl) {name : ParseTree Kind}
    (hname : s.tree.part? .name = some name) :
    (.func (funcDoc file.source i s (name.text file.source) none),
      .ofTree i s.tree (some name)) ∈ located files := by
  refine mem_located.2 ⟨i, file, hfile, s, hs, ?_⟩
  rw [ParseTree.isKind_iff] at hkind
  simp only [locatedAt, declarationsAt, locationsAt, hkind, hname]
  exact mem_singleton_self _

/-- What the outline of a package says of a function that is declared in it. -/
theorem exists_function_of_funcDecl (hfiles : ∀ f ∈ files, f.Parsed) (hfile : file ∈ files)
    {t : ParseTree Kind} (ht : t ∈ file.tree.parts) (hkind : t.isKind .funcDecl) :
    ∃ name, t.part? .name = some name ∧
      ∃ g ∈ (packageOutline directory files false).functions,
        g.name = name.text file.source ∧ g.filePath = file.path ∧
        g.span = t.spanWithName (some name) ∧ g.code = t.text file.source := by
  obtain ⟨i, hi⟩ := mem_iff_getElem?.1 hfile
  obtain ⟨name, hname, _⟩ := exists_name (hfiles file hfile) (.single ht)
    (any_eq_true.2 ⟨.funcDecl, by decide, hkind⟩)
  -- Declarations are listed among the nodes of a file, and a function is one.
  have hnode : t ∈ (Sited.partsOf file.tree).map Sited.tree := by
    rw [Sited.map_tree_partsOf]
    refine mem_filter.2 ⟨ht, ?_⟩
    cases t with
    | sign => cases hkind
    | node => rfl
  obtain ⟨s, hs, rfl⟩ := mem_map.1 hnode
  obtain ⟨key, hmem, hget⟩ := get?_locationIndex (namesUnmarked_of_parsed hfiles)
    (func_mem_located hi hs hkind hname)
  obtain ⟨g, hg, _, _, rfl⟩ := exists_tells directory
    (PackageDoc.func_mem_functions hmem)
  have hlocate := locate_eq hget hi
  refine ⟨name, hname, _, hg, rfl, ?_, ?_, ?_⟩
  · simp only [callable, hlocate, pathOr]
    split
    · simp [funcDoc, hi]
    · rfl
  · simp only [callable, hlocate]
    rfl
  · simp only [callable, hlocate]
    rfl

end CodeAtlas.Go
