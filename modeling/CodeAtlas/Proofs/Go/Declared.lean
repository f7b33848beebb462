import CodeAtlas.Proofs.Go.Naming
import CodeAtlas.Proofs.Go.Site
import CodeAtlas.Proofs.Location

/-!
# Declarations of Go packages

What the declarations of a package say and where they stand are gathered one by one, in
the same order and under the same base names, so that they can be told as pairs
(`located`), one for each site with a name (`located_eq`). In files that are parsed all
sites have names, and none of these holds the sign of numbers (`named_of_parsed`). So no
base name can be mistaken for a key with a number.

* `File.map_base_declarations`: the base names of the declarations are those of the places;
* `get?_locationIndex`: the place of a declaration is found;
* `exists_get?_locationIndex`: the key of every declaration leads to some place in the
  package, whatever its name.
-/

namespace CodeAtlas.Go

open Grammar List

variable {s : Sited Kind} {d : Declaration} {x : Site} (source : Source)

/-- The file is parsed. -/
def File.Parsed (f : File) : Prop :=
  parse? f.source = some f.tree

/-! ## Declarations and places side by side -/

/-- The base names of declarations are those of their places. -/
theorem map_base_declarationsAt (i : Nat) (s : Sited Kind) :
    (declarationsAt source i s).map Declaration.base =
      (locationsAt source i s.tree).map Prod.fst := by
  rw [declarationsAt_eq, locationsAt_eq, map_filterMap, map_filterMap]
  refine congrArg (List.filterMap · _) (funext fun x => ?_)
  rw [Site.entry?, Option.map_map]
  rfl

/-- The declarations at the top of a file together with their places. -/
def locatedAt (source : Source) (i : Nat) (s : Sited Kind) : List (Declaration × Location) :=
  (declarationsAt source i s).zip ((locationsAt source i s.tree).map Prod.snd)

theorem length_declarationsAt (i : Nat) (s : Sited Kind) :
    (declarationsAt source i s).length = ((locationsAt source i s.tree).map Prod.snd).length := by
  have h := congrArg List.length (map_base_declarationsAt source i s)
  rwa [length_map, length_map, ← length_map Prod.snd] at h

theorem map_fst_locatedAt (i : Nat) (s : Sited Kind) :
    (locatedAt source i s).map Prod.fst = declarationsAt source i s :=
  map_fst_zip (Nat.le_of_eq (length_declarationsAt source i s))

theorem map_snd_locatedAt (i : Nat) (s : Sited Kind) :
    (locatedAt source i s).map Prod.snd = (locationsAt source i s.tree).map Prod.snd :=
  map_snd_zip (Nat.le_of_eq (length_declarationsAt source i s).symm)

/-- The declarations of a file together with their places. -/
def File.located (i : Nat) (f : File) : List (Declaration × Location) :=
  (Sited.partsOf f.tree).flatMap (locatedAt f.source i)

theorem File.map_fst_located (i : Nat) (f : File) :
    (f.located i).map Prod.fst = f.declarations i := by
  rw [located, declarations, map_flatMap]
  simp only [map_fst_locatedAt]

theorem File.locations_eq (i : Nat) (f : File) :
    f.locations i = (Sited.partsOf f.tree).flatMap fun s => locationsAt f.source i s.tree := by
  rw [locations, ← Sited.map_tree_partsOf, flatMap_map]

theorem File.map_snd_located (i : Nat) (f : File) :
    (f.located i).map Prod.snd = (f.locations i).map Prod.snd := by
  rw [located, locations_eq, map_flatMap, map_flatMap]
  simp only [map_snd_locatedAt]

theorem File.map_base_declarations (i : Nat) (f : File) :
    (f.declarations i).map Declaration.base = (f.locations i).map Prod.fst := by
  rw [declarations, locations_eq, map_flatMap, map_flatMap]
  simp only [map_base_declarationsAt]

/-! ## Whole packages -/

variable (files : List File)

/-- The declarations of a package together with their places. -/
def located : List (Declaration × Location) :=
  (files.mapIdx fun i f => f.located i).flatten

/-- The base names of the declarations of a package. -/
def bases : List String :=
  (located files).map fun x => x.1.base

/-- The places of the declarations of a package. -/
def places : List Location :=
  (located files).map Prod.snd

theorem keyedDeclarations_eq :
    keyedDeclarations files =
      List.zipWith Declaration.withKey (Keys.assign (bases files))
        ((located files).map Prod.fst) := by
  have hfst : (files.mapIdx fun i f => f.declarations i).flatten =
      (located files).map Prod.fst := by
    rw [located, map_flatten, map_mapIdx]
    simp only [File.map_fst_located]
  rw [keyedDeclarations, hfst, map_map]
  rfl

theorem locationIndex_eq :
    locationIndex files = .ofList ((Keys.assign (bases files)).zip (places files)) := by
  have hbases : (files.mapIdx fun i f => f.locations i).flatten.map Prod.fst = bases files := by
    rw [bases, located, map_flatten, map_flatten, map_mapIdx, map_mapIdx]
    simp only [← File.map_base_declarations, ← File.map_fst_located, map_map]
    rfl
  have hplaces : (files.mapIdx fun i f => f.locations i).flatten.map Prod.snd = places files := by
    rw [places, located, map_flatten, map_flatten, map_mapIdx, map_mapIdx]
    simp only [File.map_snd_located]
  rw [locationIndex, hbases, hplaces]

/-! ## Sites of a package -/

/-- A site in a package, with its file and the number of that. -/
structure Declared where
  file : File
  number : Nat
  site : Site

/-- The sites of a package. -/
def declared : List Declared :=
  (files.mapIdx fun i f => ((Sited.partsOf f.tree).flatMap sitesAt).map (⟨f, i, ·⟩)).flatten

/-- What is said at a site. -/
def Declared.says? (x : Declared) : Option Declaration :=
  x.site.says? x.file.source x.number

/-- The place of a site. -/
def Declared.place (x : Declared) : Location :=
  x.site.place x.number

theorem locatedAt_eq (i : Nat) (s : Sited Kind) :
    locatedAt source i s =
      (sitesAt s).filterMap fun x => (x.says? source i).map (·, x.place i) := by
  have hzip := zip_unzip ((sitesAt s).filterMap fun x => (x.says? source i).map (·, x.place i))
  rw [unzip_fst, unzip_snd, map_filterMap, map_filterMap] at hzip
  rw [← hzip, locatedAt, declarationsAt_eq, locationsAt_eq, map_filterMap]
  simp only [Site.entry?, Option.map_map]
  congr 2
  exact funext fun x => (Option.map_id' (x := x.says? source i)).symm

/-- The declarations of a package and their places, site by site. -/
theorem located_eq :
    located files = (declared files).filterMap fun x => x.says?.map (·, x.place) := by
  rw [declared, filterMap_flatten, map_mapIdx]
  refine congrArg List.flatten (congrArg (List.mapIdx · files) (funext fun i => funext fun f => ?_))
  rw [filterMap_map, filterMap_flatMap]
  exact congrArg (List.flatMap · _) (funext fun s => locatedAt_eq f.source i s)

variable {files}

theorem mem_declared {x : Declared} :
    x ∈ declared files ↔
      files[x.number]? = some x.file ∧ ∃ s ∈ Sited.partsOf x.file.tree, x.site ∈ sitesAt s := by
  rw [declared, mem_flatten]
  constructor
  · rintro ⟨xs, hxs, hx⟩
    obtain ⟨i, hi, rfl⟩ := mem_mapIdx.1 hxs
    obtain ⟨site, hsite, rfl⟩ := mem_map.1 hx
    exact ⟨getElem?_eq_getElem hi, mem_flatMap.1 hsite⟩
  · rintro ⟨hfile, hsite⟩
    obtain ⟨hi, hfile⟩ := List.getElem?_eq_some_iff.1 hfile
    refine ⟨_, mem_mapIdx.2 ⟨x.number, hi, rfl⟩, ?_⟩
    rw [hfile]
    exact mem_map.2 ⟨x.site, mem_flatMap.2 hsite, rfl⟩

/-! ## Names -/

/-- The name of a declaration. -/
def Declaration.name : Declaration → String
  | .func f => f.name
  | .method f => f.name
  | .type t => t.name
  | .value v => v.name

/-- The number of the file with a declaration. -/
def Declaration.file : Declaration → Nat
  | .func f => f.file
  | .method f => f.file
  | .type t => t.file
  | .value v => v.file

/-- Methods have the name behind a point, constants and variables behind a colon. -/
theorem unmarked_base (h : '#' ∉ d.name.toList) : Keys.Unmarked d.base := by
  cases d with
  | func f => exact Keys.unmarked_of_not_mem h
  | method f =>
    have hpoint : "." = String.singleton '.' := rfl
    rw [Declaration.base, hpoint]
    exact Keys.unmarked_append (by decide) (by decide) h
  | type t => exact Keys.unmarked_of_not_mem h
  | value v =>
    have hcolon : (if v.isConst then "const:" else "var:") =
        (if v.isConst then "const" else "var") ++ String.singleton ':' := by
      cases v.isConst <;> rfl
    rw [Declaration.base, hcolon]
    exact Keys.unmarked_append (by decide) (by decide) h

theorem exists_of_mem_sitesAt (hx : x ∈ sitesAt s) :
    (s.tree.isKind .funcDecl ∧ x = .func s) ∨
    (s.tree.isKind .methodDecl ∧ x = .method s) ∨
    (s.tree.isKind .typeDecl ∧ ∃ spec ∈ specs typeKinds s.tree, x = .type s spec) ∨
    ((s.tree.isKind .constDecl || s.tree.isKind .varDecl) ∧
      ∃ isConst, ∃ spec ∈ specs [valueKind isConst] s.tree, ∃ j name,
        (spec.tree.partsAs .name)[j]? = some name ∧ x = .value isConst s spec j name) := by
  have hvalue : ∀ {isConst}, x ∈ valueSites isConst s →
      ∃ spec ∈ specs [valueKind isConst] s.tree, ∃ j name,
        (spec.tree.partsAs .name)[j]? = some name ∧ x = .value isConst s spec j name := by
    intro isConst hx
    obtain ⟨spec, hspec, hx⟩ := mem_flatMap.1 hx
    obtain ⟨j, hj, rfl⟩ := mem_mapIdx.1 hx
    exact ⟨spec, hspec, j, _, getElem?_eq_getElem hj, rfl⟩
  rw [sitesAt] at hx
  split at hx
  · next hkind => exact .inl ⟨ParseTree.isKind_iff.2 hkind, mem_singleton.1 hx⟩
  · next hkind => exact .inr (.inl ⟨ParseTree.isKind_iff.2 hkind, mem_singleton.1 hx⟩)
  · next hkind =>
    obtain ⟨spec, hspec, rfl⟩ := mem_map.1 hx
    exact .inr (.inr (.inl ⟨ParseTree.isKind_iff.2 hkind, spec, hspec, rfl⟩))
  · next hkind =>
    refine .inr (.inr (.inr ⟨?_, true, hvalue hx⟩))
    rw [ParseTree.isKind_iff.2 hkind, Bool.true_or]
  · next hkind =>
    refine .inr (.inr (.inr ⟨?_, false, hvalue hx⟩))
    rw [ParseTree.isKind_iff.2 hkind, Bool.or_true]
  · cases hx

/-- Something is said wherever there is a name, and under that. -/
theorem map_name_says? (hx : x ∈ sitesAt s) (source : Source) (i : Nat) :
    (x.says? source i).map (fun d => (d.name, d.file)) =
      x.name?.map fun name => (name.text source, i) := by
  rcases exists_of_mem_sitesAt hx with ⟨_, rfl⟩ | ⟨_, rfl⟩ | ⟨_, spec, _, rfl⟩ |
    ⟨_, isConst, spec, _, j, name, hname, rfl⟩
  · rw [Site.says?, Option.map_map]
    rfl
  · rw [Site.says?, Option.map_map]
    rfl
  · rw [Site.says?, Site.name?]
    cases spec.tree.part? .name with
    | none => rfl
    | some name =>
      obtain ⟨hname, hfile, _⟩ := typeDoc_fields source i spec (name.text source)
      simp only [Option.map_some, Declaration.name, Declaration.file]
      split <;> rw [hname, hfile]
  · rw [Site.says?, valueDocs, getElem?_mapIdx, hname]
    simp only [Option.map_some]
    split <;> rfl

/-- The site has a name without the sign of numbers, and stands on a line counted from
    one. -/
structure Site.Named (source : Source) (x : Site) : Prop where
  line : 1 ≤ x.whole.startLine
  name : ∃ name, x.name? = some name ∧ '#' ∉ (name.text source).toList

/-- What is shown for a site is a node of the declaration, and the name of the site is in it. -/
theorem Site.holds_whole (hx : x ∈ sitesAt s) :
    Holds s.tree x.whole ∧ ∀ name, x.name? = some name → Holds x.whole name := by
  have hspec : ∀ {kinds : List Kind} {spec : Sited Kind} (single : Bool),
      spec ∈ specs kinds s.tree → Holds s.tree (if single then s.tree else spec.tree) ∧
        ∀ name ∈ spec.tree.parts, Holds (if single then s.tree else spec.tree) name := by
    rintro kinds spec (_ | _) hspec
    · exact ⟨(holds_of_mem_specs hspec).1, fun _ hname => .single hname⟩
    · exact ⟨.refl, fun _ hname => (holds_of_mem_specs hspec).1.tail hname⟩
  rcases exists_of_mem_sitesAt hx with ⟨_, rfl⟩ | ⟨_, rfl⟩ | ⟨_, spec, hmem, rfl⟩ |
    ⟨_, _, spec, hmem, _, _, hj, rfl⟩
  · exact ⟨.refl, fun _ hname => .single (ParseTree.mem_of_part? hname).1⟩
  · exact ⟨.refl, fun _ hname => .single (ParseTree.mem_of_part? hname).1⟩
  · exact (hspec _ hmem).imp_right fun h name hname => h name (ParseTree.mem_of_part? hname).1
  · refine (hspec _ hmem).imp_right fun h name hname => h name ?_
    cases hname
    exact (mem_filter.1 (mem_of_getElem? hj)).1

theorem named_of_mem_sitesAt {source : Source} {file : ParseTree Kind}
    (hfile : parse? source = some file) (hs : s ∈ Sited.partsOf file) (hx : x ∈ sitesAt s) :
    x.Named source := by
  have hpart := Sited.tree_mem_parts hs
  refine ⟨((onLines_of_parse? hfile _ hpart).of_holds (Site.holds_whole hx).1).first, ?_⟩
  have hnaming : ∀ {k : Kind} {t : ParseTree Kind}, Holds s.tree t → k ∈ namingKinds →
      t.isKind k → ∃ name, t.part? .name = some name ∧ '#' ∉ (name.text source).toList := by
    intro k t ht hk hkind
    obtain ⟨name, hname, hword⟩ := exists_name hfile (.head hpart ht)
      (any_eq_true.2 ⟨k, hk, hkind⟩)
    exact ⟨name, hname, mark_not_mem_of_isWord hword⟩
  rcases exists_of_mem_sitesAt hx with ⟨hkind, rfl⟩ | ⟨hkind, rfl⟩ | ⟨_, spec, hspec, rfl⟩ |
    ⟨_, isConst, spec, hspec, j, name, hname, rfl⟩
  · exact hnaming .refl (by decide) hkind
  · exact hnaming .refl (by decide) hkind
  · obtain ⟨hholds, hkind⟩ := holds_of_mem_specs hspec
    obtain ⟨k, hk, hkind⟩ := any_eq_true.1 hkind
    exact hnaming hholds (mem_cons_of_mem _ (mem_cons_of_mem _ hk)) hkind
  · obtain ⟨hholds, hkind⟩ := holds_of_mem_specs hspec
    refine ⟨name, rfl, mark_not_mem_of_holds hfile (.head hpart hholds) ?_
      (mem_of_getElem? hname)⟩
    cases isConst <;> simp_all [valueKind, listingKinds]

theorem named_of_parsed (hfiles : ∀ f ∈ files, f.Parsed) {x : Declared} (hx : x ∈ declared files) :
    x.site.Named x.file.source := by
  obtain ⟨hfile, s, hs, hsite⟩ := mem_declared.1 hx
  exact named_of_mem_sitesAt (hfiles _ (mem_of_getElem? hfile)) hs hsite

/-- No name of a package holds the sign of numbers. -/
def NamesUnmarked (files : List File) : Prop :=
  ∀ x ∈ declared files, ∀ name, x.site.name? = some name →
    '#' ∉ (name.text x.file.source).toList

theorem namesUnmarked_of_parsed (hfiles : ∀ f ∈ files, f.Parsed) : NamesUnmarked files := by
  intro x hx name hname
  obtain ⟨name', hname', hmark⟩ := (named_of_parsed hfiles hx).name
  cases hname'.symm.trans hname
  exact hmark

/-- The name and the number of the file of what is said at a site. -/
theorem name_of_says? {x : Declared} (hx : x ∈ declared files) (hd : x.says? = some d) :
    d.file = x.number ∧ ∃ name, x.site.name? = some name ∧ d.name = name.text x.file.source := by
  obtain ⟨_, s, _, hsite⟩ := mem_declared.1 hx
  have hmap := map_name_says? hsite x.file.source x.number
  rw [Declared.says?] at hd
  rw [hd] at hmap
  obtain ⟨name, hname, heq⟩ := Option.map_eq_some_iff.1 hmap.symm
  obtain ⟨htext, hnumber⟩ := Prod.mk.inj heq
  exact ⟨hnumber.symm, name, hname, htext.symm⟩

theorem exists_says? {x : Declared} (hx : x ∈ declared files) {name : ParseTree Kind}
    (hname : x.site.name? = some name) : ∃ d, x.says? = some d := by
  obtain ⟨_, s, _, hsite⟩ := mem_declared.1 hx
  have hmap := map_name_says? hsite x.file.source x.number
  rw [hname] at hmap
  obtain ⟨d, hd, _⟩ := Option.map_eq_some_iff.1 hmap
  exact ⟨d, hd⟩

theorem unmarked_bases (hnames : NamesUnmarked files) :
    ∀ b ∈ bases files, Keys.Unmarked b := by
  intro b hb
  rw [bases, located_eq] at hb
  obtain ⟨p, hp, rfl⟩ := mem_map.1 hb
  obtain ⟨x, hx, hp⟩ := mem_filterMap.1 hp
  obtain ⟨d, hd, rfl⟩ := Option.map_eq_some_iff.1 hp
  obtain ⟨_, name, hname, htext⟩ := name_of_says? hx hd
  exact unmarked_base (htext ▸ hnames x hx name hname)

/-! ## Looking places up -/

theorem mem_located {x : Declaration × Location} :
    x ∈ located files ↔
      ∃ i f, files[i]? = some f ∧ ∃ s ∈ Sited.partsOf f.tree, x ∈ locatedAt f.source i s := by
  rw [located, mem_flatten]
  constructor
  · rintro ⟨xs, hxs, hx⟩
    obtain ⟨i, hi, rfl⟩ := mem_mapIdx.1 hxs
    exact ⟨i, _, getElem?_eq_getElem hi, mem_flatMap.1 hx⟩
  · rintro ⟨i, f, hf, hx⟩
    obtain ⟨hi, rfl⟩ := List.getElem?_eq_some_iff.1 hf
    exact ⟨_, mem_mapIdx.2 ⟨i, hi, rfl⟩, mem_flatMap.2 hx⟩

theorem length_bases : (bases files).length = (places files).length := by
  rw [bases, places, length_map, length_map]

/-- A declaration gets a key, and its place is found under it. -/
theorem get?_locationIndex (hnames : NamesUnmarked files) {place : Location}
    (hx : (d, place) ∈ located files) :
    ∃ key, d.withKey key ∈ keyedDeclarations files ∧
      (locationIndex files).get? key = some place := by
  obtain ⟨i, hi⟩ := mem_iff_getElem?.1 hx
  have hbase : (bases files)[i]? = some d.base := by rw [bases, getElem?_map, hi]; rfl
  have hplace : (places files)[i]? = some place := by rw [places, getElem?_map, hi]; rfl
  have hkey := Keys.getElem?_assign (bases files) i
  rw [hbase, Option.map_some] at hkey
  generalize (Keys.next _ d.base).1 = key at hkey
  refine ⟨key, mem_of_getElem? (i := i) ?_, ?_⟩
  · rw [keyedDeclarations_eq, getElem?_zipWith_eq_some]
    exact ⟨key, d, hkey, by rw [getElem?_map, hi]; rfl, rfl⟩
  · rw [locationIndex_eq, ← hplace]
    exact Location.get?_assign length_bases (unmarked_bases hnames) hkey

/-- Where a declaration with its key comes from. -/
theorem exists_of_mem_keyedDeclarations (hd : d ∈ keyedDeclarations files) :
    ∃ key ∈ Keys.assign (bases files), ∃ d', d = d'.withKey key ∧
      ∃ i f s, files[i]? = some f ∧ s ∈ Sited.partsOf f.tree ∧
        d' ∈ declarationsAt f.source i s := by
  rw [keyedDeclarations_eq] at hd
  obtain ⟨i, hi⟩ := mem_iff_getElem?.1 hd
  obtain ⟨key, d', hkey, hd', rfl⟩ := getElem?_zipWith_eq_some.1 hi
  refine ⟨key, mem_of_getElem? hkey, d', rfl, ?_⟩
  obtain ⟨x, hx, rfl⟩ := mem_map.1 (mem_of_getElem? hd')
  obtain ⟨k, f, hf, s, hs, hx⟩ := mem_located.1 hx
  exact ⟨k, f, s, hf, hs, map_fst_locatedAt f.source k s ▸ mem_map_of_mem hx⟩

/-- The key of a declaration. -/
def Declaration.key : Declaration → String
  | .func f => f.key
  | .method f => f.key
  | .type t => t.key
  | .value v => v.key

/-- The key of every declaration leads to some place in the package. -/
theorem exists_get?_locationIndex (hd : d ∈ keyedDeclarations files) :
    ∃ place ∈ places files, (locationIndex files).get? d.key = some place := by
  obtain ⟨key, hkey, d', rfl, _⟩ := exists_of_mem_keyedDeclarations hd
  have hkey' : (d'.withKey key).key = key := by cases d' <;> rfl
  rw [hkey', locationIndex_eq]
  exact Location.get?_of_mem_assign length_bases hkey

theorem file_of_mem_locationsAt {source : Source} {i : Nat} {x : String × Location}
    (hx : x ∈ locationsAt source i s.tree) : x.2.file = i := by
  rw [locationsAt_eq] at hx
  obtain ⟨site, _, hx⟩ := mem_filterMap.1 hx
  obtain ⟨d, _, rfl⟩ := Option.map_eq_some_iff.1 hx
  rfl

/-- No type has methods or constructors before functions are moved to it. -/
theorem members_of_mem_keyedDeclarations {t : TypeDoc}
    (ht : .type t ∈ keyedDeclarations files) : t.methods = [] ∧ t.constructors = [] := by
  obtain ⟨key, _, d, hd, i, f, s, _, _, hmem⟩ := exists_of_mem_keyedDeclarations ht
  rw [declarationsAt_eq] at hmem
  obtain ⟨x, _, hx⟩ := mem_filterMap.1 hmem
  -- Only a specification of a type says something of a type.
  cases x with
  | func | method | value =>
    obtain ⟨_, _, rfl⟩ := Option.map_eq_some_iff.1 hx
    cases hd
  | type decl spec =>
    obtain ⟨name, _, rfl⟩ := Option.map_eq_some_iff.1 hx
    cases hd
    have hnone := (typeDoc_fields f.source i spec (name.text f.source)).2.2
    split <;> exact hnone

/-- Every place is in one of the files. -/
theorem exists_file_of_mem_places {place : Location} (h : place ∈ places files) :
    ∃ f, files[place.file]? = some f := by
  obtain ⟨x, hx, rfl⟩ := mem_map.1 h
  obtain ⟨i, f, hf, s, _, hx⟩ := mem_located.1 hx
  have hplace : x.2 ∈ (locationsAt f.source i s.tree).map Prod.snd :=
    map_snd_locatedAt f.source i s ▸ mem_map_of_mem hx
  obtain ⟨y, hy, hy'⟩ := mem_map.1 hplace
  rw [← hy', file_of_mem_locationsAt hy]
  exact ⟨f, hf⟩

end CodeAtlas.Go

/-! ## Files that are read -/

namespace CodeAtlas

open List

variable {contents : List (String × Bytes)}

theorem Go.File.parsed_of_ofBytes? {path : String} {content : Bytes} {file : File}
    (h : File.ofBytes? path content = some file) :
    file.Parsed ∧ file.path = Path.slashed path ∧ file.source = Source.ofBytes content := by
  obtain ⟨tree, htree, rfl⟩ := Option.map_eq_some_iff.1 h
  exact ⟨htree, rfl, rfl⟩

/-- The Go files among some contents. -/
def goFiles (contents : List (String × Bytes)) : List Go.File :=
  contents.filterMap fun (path, content) => Go.File.ofBytes? path content

theorem parsed_of_mem_goFiles : ∀ file ∈ goFiles contents, file.Parsed := by
  intro file hfile
  obtain ⟨⟨path, content⟩, _, h⟩ := mem_filterMap.1 hfile
  exact (Go.File.parsed_of_ofBytes? h).1

theorem Go.outline?_eq_some {directory : String} {exportedOnly : Bool} {o : Outline} :
    outline? directory contents exportedOnly = some o ↔
      goFiles contents ≠ [] ∧ o = packageOutline directory (goFiles contents) exportedOnly := by
  rw [outline?, goFiles]
  split
  · next hnil => simp [hnil]
  · next hcons => rw [Option.some_inj, and_iff_right hcons, eq_comm]

end CodeAtlas
