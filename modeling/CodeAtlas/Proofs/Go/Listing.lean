import CodeAtlas.Proofs.Go.Agreement

/-!
# Every declaration of a Go package is listed once

From the files of a package its declarations are gathered, moved to types as methods and
constructors, and made into chunks. In the end there is one chunk for each site, and but
for one about the package itself there is no other. Methods whose type is declared as an
interface have none.

* `firstType?`: the declaration of a type that counts, if there are several;
* `role_cases`: how a site is listed, told by the tree;
* `go_declarations_listed`: the chunks of a package.
-/

namespace CodeAtlas.Go

open Grammar PackageDoc List Option

variable {files : List File} {d : Declaration} {o : Outline}

/-! ## Types and receivers -/

/-- The specification is that of an interface, and not another name for one. -/
def isInterface (spec : Sited Kind) : Bool :=
  !spec.tree.isKind .typeAlias && (spec.tree.part? .type).any (ParseTree.isKind .interface)

/-- The specification of a type of a name, if the site is one. -/
def Declared.typeSpec? (name : String) (x : Declared) : Option (Sited Kind) :=
  match x.site with
  | .type _ spec =>
    if (spec.tree.part? .name).any (·.text x.file.source == name) then some spec else none
  | _ => none

/-- The first specification of a type of a name, in the order of the files. -/
def firstType? (files : List File) (name : String) : Option (Sited Kind) :=
  (declared files).findSome? (Declared.typeSpec? name)

/-- The type that the receiver of a method is of. -/
def Declared.receiver? (x : Declared) : Option String :=
  match x.site with
  | .method decl => (receiverOf x.file.source decl.tree).map (·.2)
  | _ => none

/-- Everything is listed but the methods of what is declared as an interface. -/
def Declared.isListed (files : List File) (x : Declared) : Bool :=
  !(x.receiver?.bind (firstType? files)).any isInterface

/-- The kind of chunk that a site has, unless it is a method with a receiver. -/
def Site.chunkKind : Site → ChunkKind
  | .func _ => .function
  | .method _ => .function
  | .type _ spec => if isInterface spec then .interface else .type
  | .value isConst .. => if isConst then .const else .var

theorem kind_typeDoc (source : Source) (i : Nat) (spec : Sited Kind) (name : String) :
    decide ((typeDoc source i spec name).kind = .interface) = isInterface spec ∧
      Outline.chunkKindOf (typeDoc source i spec name).kind =
        if isInterface spec then .interface else .type := by
  have hboth : ∀ t : ParseTree Kind, t.isKind .struct → t.isKind .interface = false := by
    intro t ht
    cases t with
    | sign => cases ht
    | node k =>
      obtain rfl := of_decide_eq_true ht
      rfl
  rw [typeDoc, isInterface]
  cases spec.tree.part? .type with
  | none => simp [Outline.chunkKindOf]
  | some type =>
    by_cases halias : spec.tree.isKind .typeAlias
    · simp [halias, Outline.chunkKindOf]
    · by_cases hstruct : type.isKind .struct
      · simp [halias, hstruct, hboth type hstruct, Outline.chunkKindOf]
      · by_cases hinterface : type.isKind .interface
        · simp [halias, hstruct, hinterface, Outline.chunkKindOf]
        · simp [halias, hstruct, hinterface, Outline.chunkKindOf]

/-- The type that a site says, if it says one. -/
def Declared.type? (x : Declared) : Option TypeDoc :=
  x.says?.bind Declaration.type?

/-- What is said of a type that has the name is what its specification says. -/
theorem map_filter_type? (name : String) (x : Declared) :
    (x.type?.filter (·.name == name)).map
        (fun t => decide (t.kind = .interface)) =
      (x.typeSpec? name).map isInterface := by
  rw [Declared.type?, Declared.says?, Declared.typeSpec?]
  cases x.site with
  | func decl => cases h : decl.tree.part? .name <;> simp [Site.says?, h, Declaration.type?]
  | method decl => cases h : decl.tree.part? .name <;> simp [Site.says?, h, Declaration.type?]
  | value isConst decl spec number _ =>
    cases h : (valueDocs x.file.source x.number isConst spec)[number]? <;>
      simp [Site.says?, h, Declaration.type?]
  | type decl spec =>
    cases h : spec.tree.part? .name with
    | none => simp [Site.says?, h]
    | some n =>
      obtain ⟨hkind, _⟩ := kind_typeDoc x.file.source x.number spec (n.text x.file.source)
      have hname := (typeDoc_fields x.file.source x.number spec (n.text x.file.source)).1
      -- A comment of the declaration changes neither name nor kind.
      by_cases hsame : n.text x.file.source = name
      · rw [hsame] at hkind hname
        simp only [Site.says?, h, map_some, bind_some, Declaration.type?]
        split <;> simp [Option.filter, hname, hsame, ← hkind]
      · simp only [Site.says?, h, map_some, bind_some, Declaration.type?]
        split <;> simp [Option.filter, hname, hsame]

/-- So it is for the first of them. -/
theorem map_find?_type? (name : String) (xs : List Declared) :
    ((xs.filterMap Declared.type?).find? (·.name == name)).map
        (fun t => decide (t.kind = .interface)) =
      (xs.findSome? (Declared.typeSpec? name)).map isInterface := by
  induction xs with
  | nil => rfl
  | cons x xs ih =>
    have hx := map_filter_type? name x
    rw [findSome?_cons]
    cases ht : x.type? with
    | none =>
      rw [ht] at hx
      rw [filterMap_cons_none ht, map_eq_none_iff.1 hx.symm]
      exact ih
    | some t =>
      rw [ht] at hx
      rw [filterMap_cons_some ht]
      by_cases hname : (t.name == name)
      · have hkept : (some t).filter (·.name == name) = some t := filter_some_pos hname
        have hfound : ∀ ts : List TypeDoc, (t :: ts).find? (·.name == name) = some t :=
          fun _ => find?_cons_of_pos hname
        rw [hkept] at hx
        obtain ⟨spec, hspec, hkind⟩ := map_eq_some_iff.1 hx.symm
        rw [hfound, hspec, map_some, map_some, hkind]
      · have hgone : (some t).filter (·.name == name) = none :=
          filter_some_neg (Bool.eq_false_iff.2 hname)
        have hpassed : ∀ ts : List TypeDoc,
            (t :: ts).find? (·.name == name) = ts.find? (·.name == name) :=
          fun _ => find?_cons_of_neg hname
        rw [hgone] at hx
        rw [hpassed, map_eq_none_iff.1 hx.symm]
        exact ih

/-- What is said of the first type of a name is what its specification says. -/
theorem map_declaredKind? (files : List File) (name : String) :
    (declaredKind? files name).map (fun kind => decide (kind = .interface)) =
      (firstType? files name).map isInterface := by
  have hfst : (paired files).map Prod.fst = (declared files).filterMap Declared.says? := by
    rw [paired, map_filterMap]
    refine congrArg (List.filterMap · _) (funext fun x => ?_)
    rw [Option.map_map]
    exact Option.map_id' (x := x.says?)
  rw [declaredKind?, hfst, kindIn, filterMap_filterMap, Option.map_map]
  exact map_find?_type? name (declared files)

/-- A method with a receiver is listed as the first type of that name decides. -/
theorem role?_method (files : List File) {m : FuncDoc} {base : String}
    (hbase : m.receiverType = some base) (hreceiver : m.receiver ≠ none) :
    (firstType? files base = none ∧
      (Declaration.method m).role? (declaredKind? files) = some (.function, none)) ∨
    ∃ spec, firstType? files base = some spec ∧
      (Declaration.method m).role? (declaredKind? files) =
        if isInterface spec then none else some (.method, some base) := by
  have hkinds := map_declaredKind? files base
  obtain ⟨r, hr⟩ := ne_none_iff_exists'.1 hreceiver
  cases hfirst : firstType? files base with
  | none =>
    rw [hfirst, map_none, map_eq_none_iff] at hkinds
    refine .inl ⟨rfl, ?_⟩
    rw [Declaration.role?, if_pos]
    · simp [madeType?, FuncDoc.produces?, hr]
    · simp [isLoose, hbase, hkinds]
  | some spec =>
    rw [hfirst] at hkinds
    obtain ⟨kind, hkind, hinterface⟩ := map_eq_some_iff.1 hkinds
    refine .inr ⟨spec, rfl, ?_⟩
    rw [Declaration.role?, if_neg, methodItem?, ← hinterface]
    · by_cases hk : kind = .interface
      · simp [hbase, hkind, hk]
      · simp [hbase, hkind, hk]
    · simp [isLoose, hbase, hkind]

variable {x : Declared}

/-- How a site is listed, told by the tree: with a receiver, by the first type of its name;
    without one, by its own form. -/
theorem role_cases (files : List File) (hd : x.says? = some d) :
    (x.receiver? = none ∧ ∃ parent,
      d.role? (declaredKind? files) = some (x.site.chunkKind, parent) ∧
      (x.site.chunkKind ≠ .function → parent = none)) ∨
    (∃ base, x.receiver? = some base ∧ firstType? files base = none ∧
      d.role? (declaredKind? files) = some (.function, none)) ∨
    ∃ base spec, x.receiver? = some base ∧ firstType? files base = some spec ∧
      d.role? (declaredKind? files) =
        if isInterface spec then none else some (.method, some base) := by
  rw [Declared.says?] at hd
  rw [Declared.receiver?]
  cases hsite : x.site with
  | func decl =>
    rw [hsite] at hd
    obtain ⟨name, _, rfl⟩ := map_eq_some_iff.1 hd
    exact .inl ⟨rfl, _, rfl, fun h => absurd rfl h⟩
  | type decl spec =>
    rw [hsite] at hd
    obtain ⟨name, _, rfl⟩ := map_eq_some_iff.1 hd
    obtain ⟨_, hkind⟩ := kind_typeDoc x.file.source x.number spec (name.text x.file.source)
    refine .inl ⟨rfl, none, ?_, fun _ => rfl⟩
    rw [Site.chunkKind, ← hkind]
    simp only [Declaration.role?]
    split <;> rfl
  | value isConst decl spec number name =>
    rw [hsite] at hd
    obtain ⟨v, hv, rfl⟩ := map_eq_some_iff.1 hd
    have hconst : v.isConst = isConst := by
      have hj := valueDocs_getElem? x.file.source x.number isConst spec number
      rw [hv] at hj
      obtain ⟨_, _, hfields⟩ := map_eq_some_iff.1 hj.symm
      exact (Prod.mk.inj hfields).2.symm
    refine .inl ⟨rfl, none, ?_, fun _ => rfl⟩
    rw [← hconst]
    split <;> rfl
  | method decl =>
    rw [hsite] at hd
    obtain ⟨name, _, rfl⟩ := map_eq_some_iff.1 hd
    cases hreceiver : receiverOf x.file.source decl.tree with
    | none =>
      refine .inl ⟨by simp only [hreceiver, map_none], madeType? (declaredKind? files)
        (funcDoc x.file.source x.number decl (name.text x.file.source) none), ?_,
        fun h => absurd rfl h⟩
      rw [Declaration.role?, if_pos]
      · rfl
      · simp [isLoose, funcDoc]
    | some r =>
      have hbase : (receiverOf x.file.source decl.tree).map (·.2) = some r.2 := by
        rw [hreceiver, map_some]
      refine .inr ?_
      rcases role?_method files
        (m := funcDoc x.file.source x.number decl (name.text x.file.source) (some r)) rfl
        (some_ne_none r.1) with ⟨hfirst, hrole⟩ | ⟨spec, hfirst, hrole⟩
      · exact .inl ⟨r.2, hbase, hfirst, hrole⟩
      · exact .inr ⟨r.2, spec, hbase, hfirst, hrole⟩

/-- The kind and parent that a chunk of a site has: those of its form; or for a method with
    a receiver, those that the first type of that name decides on. -/
structure Fits (files : List File) (x : Declared) (kind : ChunkKind) (parent : Option String) :
    Prop where
  plain : x.receiver? = none → kind = x.site.chunkKind ∧ (kind ≠ .function → parent = none)
  method : ∀ base, x.receiver? = some base → (firstType? files base).isSome →
    kind = .method ∧ parent = some base
  loose : ∀ base, x.receiver? = some base → firstType? files base = none →
    kind = .function ∧ parent = none

theorem fits_of_role? (hd : x.says? = some d) {kind : ChunkKind} {parent : Option String}
    (hrole : d.role? (declaredKind? files) = some (kind, parent)) : Fits files x kind parent := by
  rcases role_cases files hd with ⟨hreceiver, parent', hrole', hplain⟩ |
    ⟨base, hreceiver, hfirst, hrole'⟩ | ⟨base, spec, hreceiver, hfirst, hrole'⟩
  · cases hrole.symm.trans hrole'
    refine ⟨fun _ => ⟨rfl, hplain⟩, fun base hbase => ?_, fun base hbase => ?_⟩
    · cases hreceiver.symm.trans hbase
    · cases hreceiver.symm.trans hbase
  · cases hrole.symm.trans hrole'
    refine ⟨fun hnone => ?_, fun base' hbase hsome => ?_, fun _ _ _ => ⟨rfl, rfl⟩⟩
    · cases hreceiver.symm.trans hnone
    · cases hreceiver.symm.trans hbase
      rw [hfirst] at hsome
      cases hsome
  · rw [hrole] at hrole'
    split at hrole'
    · cases hrole'
    · cases hrole'
      refine ⟨fun hnone => ?_, fun base' hbase _ => ?_, fun base' hbase hnone => ?_⟩
      · cases hreceiver.symm.trans hnone
      · cases hreceiver.symm.trans hbase
        exact ⟨rfl, rfl⟩
      · cases hreceiver.symm.trans hbase
        cases hfirst.symm.trans hnone

/-! ## Chunks -/

/-- The chunk shows the declaration at a site: its name, and the path, lines and source of
    all of it. -/
structure Depicts (files : List File) (x : Declared) (c : Chunk) : Prop where
  name : ∃ name, x.site.name? = some name ∧ c.name = name.text x.file.source
  filePath : c.filePath = x.file.path
  startLine : c.startLine = x.site.whole.startLine
  endLine : c.endLine = max x.site.whole.endLine x.site.whole.startLine
  code : c.code = x.site.whole.text x.file.source
  fits : Fits files x c.kind c.parent

/-- A site has an item exactly if it is to be listed. -/
theorem isSome_item? (hfiles : ∀ f ∈ files, f.Parsed) (hx : x ∈ declared files) :
    (x.item? files).isSome = x.isListed files := by
  obtain ⟨name, hname, _⟩ := (named_of_parsed hfiles hx).name
  obtain ⟨d, hd⟩ := exists_says? hx hname
  rw [Declared.item?, hd, bind_some, itemOf?, Declared.isListed]
  rcases role_cases files hd with ⟨hreceiver, _, hrole, _⟩ |
    ⟨base, hreceiver, hfirst, hrole⟩ | ⟨base, spec, hreceiver, hfirst, hrole⟩
  · rw [hrole, hreceiver]
    rfl
  · rw [hrole, hreceiver, bind_some, hfirst]
    rfl
  · rw [hrole, hreceiver, bind_some, hfirst]
    by_cases hinterface : isInterface spec
    · simp [hinterface]
    · simp [hinterface]

/-- The chunk of the item of a site shows what is declared there. -/
theorem depicts_of_item? (hfiles : ∀ f ∈ files, f.Parsed) (hx : x ∈ declared files) {item : Item}
    (hitem : x.item? files = some item) {c : Chunk} (hc : c.bare = o.itemChunk item) :
    Depicts files x c := by
  have hline := (named_of_parsed hfiles hx).line
  obtain ⟨d, hd, hitem⟩ := bind_eq_some_iff.1 hitem
  obtain ⟨_, name, hname, htext⟩ := name_of_says? hx hd
  obtain ⟨⟨kind, parent⟩, hrole, rfl⟩ := map_eq_some_iff.1 hitem
  have hspan : x.place.span.startLine = x.site.whole.startLine ∧
      x.place.span.endLine = max x.site.whole.endLine x.site.whole.startLine := by
    rw [Declared.place, Site.place, hname]
    exact ⟨rfl, rfl⟩
  rw [Outline.itemChunk, Outline.baseChunk_eq] at hc
  have hkind : c.kind = kind := congrArg Chunk.kind hc
  have hparent : c.parent = parent := congrArg Chunk.parent hc
  have hstart : c.startLine = max x.place.span.startLine 1 := congrArg Chunk.startLine hc
  have hend : c.endLine = max x.place.span.endLine (max x.place.span.startLine 1) :=
    congrArg Chunk.endLine hc
  refine ⟨⟨name, hname, (congrArg Chunk.name hc).trans htext⟩, congrArg Chunk.filePath hc,
    by omega, by omega, congrArg Chunk.code hc, ?_⟩
  rw [hkind, hparent]
  exact fits_of_role? hd hrole

/-- The chunks of a Go outline, but for one about the package, go with its items. -/
theorem exists_chunks_eq (ho : o.IsGo) :
    ∃ rest, o.chunks = o.fileChunk?.toList ++ rest ∧
      List.Forall₂ (fun item c => c.bare = o.itemChunk item) o.items rest := by
  have hsplit : ∃ rest, o.chunks = o.fileChunk?.toList ++ rest := by
    simp only [Outline.chunks, append_assoc]
    exact ⟨_, rfl⟩
  obtain ⟨rest, hrest⟩ := hsplit
  have hbare := Outline.map_bare_chunks ho
  rw [hrest, map_append, toList_map] at hbare
  have hpairs : List.Forall₂ (· = ·) (rest.map Chunk.bare) (o.items.map o.itemChunk) := by
    rw [forall₂_eq_eq_eq]
    exact append_cancel_left hbare
  rw [forall₂_map_left_iff, forall₂_map_right_iff] at hpairs
  exact ⟨rest, hrest, hpairs.flip⟩

/-- Besides one about the package there is one chunk for each function, each method, each
    type and each name of a constant or variable, and there is no other; only methods whose
    type is first declared as an interface have none. -/
theorem go_declarations_listed (directory : String) (contents : List (String × Bytes))
    (o : Outline) (h : outline? directory contents false = some o) :
    ∃ listed, o.chunks.Perm (o.fileChunk?.toList ++ listed) ∧
      listed.length =
        ((declared (goFiles contents)).filter (Declared.isListed (goFiles contents))).length ∧
      List.Forall₂ (Depicts (goFiles contents))
        ((declared (goFiles contents)).filter (Declared.isListed (goFiles contents))) listed := by
  have hfiles : ∀ f ∈ goFiles contents, f.Parsed := parsed_of_mem_goFiles
  obtain ⟨_, rfl⟩ := outline?_eq_some.1 h
  obtain ⟨rest, hchunks, hrest⟩ :=
    exists_chunks_eq (isGo_packageOutline directory (goFiles contents) false)
  -- The chunks are put into the order of the sites.
  obtain ⟨listed, hlisted, hperm⟩ := perm_comp_forall₂
    (items_perm (namesUnmarked_of_parsed hfiles) directory).symm hrest
  have hpairs := forall₂_filter_of_filterMap (S := Depicts (goFiles contents))
    (fun _ hx => isSome_item? hfiles hx)
    (fun _ hx _ hitem _ hc => depicts_of_item? hfiles hx hitem hc) hlisted
  refine ⟨listed, ?_, hpairs.length_eq.symm, hpairs⟩
  rw [hchunks]
  exact hperm.symm.append_left _

/-- A package with methods in another file than their types, one of which is an interface
    and one of which is missing. -/
def scattered : List (String × Bytes) :=
  [("p/a.go", bytesOf ("package p\n\nfunc (t *T) Run() \x7b\x7d\n\n" ++
      "func (u U) Stray() \x7b\x7d\n\nfunc (r R) Gone() \x7b\x7d\n\n" ++
      "const (\n\tA = 1\n\tB = 2\n)\n")),
    ("p/b.go", bytesOf ("package p\n\ntype T struct\x7b\x7d\n\ntype R interface\x7b\x7d\n\n" ++
      "func New() *T \x7b return nil \x7d\n"))]

/-- Of eight declarations only the method of the interface has no chunk. -/
theorem go_declarations_listed_scattered :
    ∃ o listed, outline? "p" scattered false = some o ∧
      o.chunks.map (fun c => (c.kind, c.name, c.parent)) =
        [(.function, "New", some "T"), (.function, "Stray", none), (.type, "T", none),
          (.method, "Run", some "T"), (.interface, "R", none), (.const, "A", none),
          (.const, "B", none)] ∧
      o.chunks.Perm (o.fileChunk?.toList ++ listed) ∧
      (declared (goFiles scattered)).length = 8 ∧ listed.length = 7 ∧
      List.Forall₂ (Depicts (goFiles scattered))
        ((declared (goFiles scattered)).filter (Declared.isListed (goFiles scattered)))
        listed := by
  have hchunks : (outline? "p" scattered false).map
      (fun o => o.chunks.map fun c => (c.kind, c.name, c.parent)) =
      some [(.function, "New", some "T"), (.function, "Stray", none), (.type, "T", none),
        (.method, "Run", some "T"), (.interface, "R", none), (.const, "A", none),
        (.const, "B", none)] := by decide +kernel
  have hall : (declared (goFiles scattered)).length = 8 := by decide +kernel
  have hlisted : ((declared (goFiles scattered)).filter
      (Declared.isListed (goFiles scattered))).length = 7 := by decide +kernel
  obtain ⟨o, ho, hchunks⟩ := map_eq_some_iff.1 hchunks
  obtain ⟨listed, hperm, hlength, hpairs⟩ := go_declarations_listed "p" scattered o ho
  exact ⟨o, listed, ho, hchunks, hperm, hall, hlength.trans hlisted, hpairs⟩

end CodeAtlas.Go
