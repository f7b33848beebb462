import CodeAtlas.Go.Package
import CodeAtlas.Proofs.List

/-!
# Sites of Go declarations

A package is read twice: once for what its declarations say, and once for where they
stand. Both readings go through the same nodes, which are listed here on their own: a
*site* for each function and method, for each specification of a type, and for each name
of a constant or variable.

* `declarationsAt_eq`: what declarations say, site by site;
* `locationsAt_eq`: where they stand, site by site and under the same base names.
-/

namespace CodeAtlas.Go

open Grammar List Option

variable (source : Source)

/-- A node that declares something at the top of a file, and for a specification, the
    declaration that it is in. Constants and variables have one for each name, with the
    number of the name in the specification. -/
inductive Site where
  | func (decl : Sited Kind)
  | method (decl : Sited Kind)
  | type (decl spec : Sited Kind)
  | value (isConst : Bool) (decl spec : Sited Kind) (number : Nat) (name : ParseTree Kind)

namespace Site

/-- The name that is declared. -/
def name? : Site → Option (ParseTree Kind)
  | func decl => decl.tree.part? .name
  | method decl => decl.tree.part? .name
  | type _ spec => spec.tree.part? .name
  | value _ _ _ _ name => some name

/-- The node that is shown for the declaration: all of it, or of one that specifies
    several things, the specification. -/
def whole : Site → ParseTree Kind
  | func decl => decl.tree
  | method decl => decl.tree
  | type decl spec => if isSingle typeKinds decl.tree then decl.tree else spec.tree
  | value isConst decl spec _ _ =>
    if isSingle [valueKind isConst] decl.tree then decl.tree else spec.tree

/-- The place in the file with a number. -/
def place (file : Nat) (x : Site) : Location :=
  .ofTree file x.whole x.name?

/-- What is said there. Specifications without a comment of their own have that of the
    declaration. -/
def says? (source : Source) (file : Nat) : Site → Option Declaration
  | func decl =>
    (decl.tree.part? .name).map fun name =>
      .func (funcDoc source file decl (name.text source) none)
  | method decl =>
    (decl.tree.part? .name).map fun name =>
      .method (funcDoc source file decl (name.text source) (receiverOf source decl.tree))
  | type decl spec =>
    (spec.tree.part? .name).map fun name =>
      let t := typeDoc source file spec (name.text source)
      .type (if t.doc.isEmpty then { t with doc := docOf source decl } else t)
  | value isConst decl spec number _ =>
    (valueDocs source file isConst spec)[number]?.map fun v =>
      .value (if v.doc.isEmpty then { v with doc := docOf source decl } else v)

end Site

/-- The sites of the constants or variables in a declaration. -/
def valueSites (isConst : Bool) (s : Sited Kind) : List Site :=
  (specs [valueKind isConst] s.tree).flatMap fun spec =>
    (spec.tree.partsAs .name).mapIdx (.value isConst s spec)

/-- The sites at a node at the top of a file. -/
def sitesAt (s : Sited Kind) : List Site :=
  match s.tree.kind? with
  | some .funcDecl => [.func s]
  | some .methodDecl => [.method s]
  | some .typeDecl => (specs typeKinds s.tree).map (.type s)
  | some .constDecl => valueSites true s
  | some .varDecl => valueSites false s
  | _ => []

/-! ## What is said -/

/-- The constants and variables of a specification are told in the order of their names. -/
theorem valueDocs_getElem? (i : Nat) (isConst : Bool) (spec : Sited Kind) (j : Nat) :
    (valueDocs source i isConst spec)[j]?.map (fun v => (v.name, v.isConst)) =
      (spec.tree.partsAs .name)[j]?.map fun name => (name.text source, isConst) := by
  rw [valueDocs, getElem?_mapIdx, Option.map_map]
  rfl

theorem valueDeclarations_eq (i : Nat) (isConst : Bool) (s : Sited Kind) :
    valueDeclarations source i isConst s =
      (valueSites isConst s).filterMap (Site.says? source i) := by
  rw [valueSites, filterMap_flatMap]
  refine congrArg (List.flatMap · _) (funext fun spec => Eq.symm (filterMap_mapIdx fun j => ?_))
  cases hname : (spec.tree.partsAs .name)[j]? <;> simp [valueDocs, Site.says?, hname]

theorem sitesAt_of_kind {s : Sited Kind} (hfunc : s.tree.kind? ≠ some .funcDecl)
    (hmethod : s.tree.kind? ≠ some .methodDecl) (htype : s.tree.kind? ≠ some .typeDecl)
    (hconst : s.tree.kind? ≠ some .constDecl) (hvar : s.tree.kind? ≠ some .varDecl) :
    sitesAt s = [] := by
  rw [sitesAt]
  split <;> first | contradiction | rfl

/-- What the declarations at a node say, site by site. -/
theorem declarationsAt_eq (i : Nat) (s : Sited Kind) :
    declarationsAt source i s = (sitesAt s).filterMap (Site.says? source i) := by
  rw [declarationsAt]
  split
  · next hkind =>
    simp only [sitesAt, hkind, filterMap_cons, Site.says?]
    cases s.tree.part? .name <;> rfl
  · next hkind =>
    simp only [sitesAt, hkind, filterMap_cons, Site.says?]
    cases s.tree.part? .name <;> rfl
  · next hkind =>
    simp only [sitesAt, hkind]
    rw [filterMap_map]
    rfl
  · next hkind =>
    simp only [sitesAt, hkind]
    exact valueDeclarations_eq source i true s
  · next hkind =>
    simp only [sitesAt, hkind]
    exact valueDeclarations_eq source i false s
  · next hfunc hmethod htype hconst hvar =>
    rw [sitesAt_of_kind hfunc hmethod htype hconst hvar]
    rfl

/-! ## Where it stands -/

/-- The specification of a type says its name and its file, and nothing of methods and
    constructors. -/
theorem typeDoc_fields (i : Nat) (s : Sited Kind) (name : String) :
    (typeDoc source i s name).name = name ∧ (typeDoc source i s name).file = i ∧
      (typeDoc source i s name).methods = [] ∧ (typeDoc source i s name).constructors = [] := by
  rw [typeDoc]
  repeat' split
  all_goals exact ⟨rfl, rfl, rfl, rfl⟩

/-- The base name of what is said at a site, with its place. -/
def Site.entry? (source : Source) (i : Nat) (x : Site) : Option (String × Location) :=
  (x.says? source i).map fun d => (d.base, x.place i)

theorem valueLocations_eq (i : Nat) (isConst : Bool) (s : Sited Kind) :
    valueLocations source i isConst s.tree =
      (valueSites isConst s).filterMap (Site.entry? source i) := by
  rw [valueSites, filterMap_flatMap]
  refine congrArg (List.flatMap · _) (funext fun spec => Eq.symm (filterMap_mapIdx fun j => ?_))
  have hj := valueDocs_getElem? source i isConst spec j
  rw [getElem?_map]
  cases hname : (spec.tree.partsAs .name)[j]? with
  | none => rfl
  | some name =>
    rw [hname, map_some, map_eq_some_iff] at hj
    obtain ⟨v, hv, hfields⟩ := hj
    obtain ⟨hv', hconst⟩ := Prod.mk.inj hfields
    -- The documentation that is shared has no part in the name.
    have hbase : ∀ doc, (Declaration.value (if v.doc.isEmpty then { v with doc } else v)).base =
        (if isConst then "const:" else "var:") ++ name.text source := by
      intro doc
      rw [← hv', ← hconst]
      split <;> rfl
    rw [map_some, map_some, Site.entry?, Site.says?, hv, map_some,
      map_some, hbase]
    rfl

/-- Where the declarations at a node stand, site by site and under the base names of what
    is said there. -/
theorem locationsAt_eq (i : Nat) (s : Sited Kind) :
    locationsAt source i s.tree = (sitesAt s).filterMap (Site.entry? source i) := by
  rw [locationsAt]
  split
  · next hkind =>
    simp only [sitesAt, hkind, filterMap_cons, Site.entry?, Site.says?, Site.place, Site.name?]
    cases s.tree.part? .name <;> rfl
  · next hkind =>
    simp only [sitesAt, hkind, filterMap_cons, Site.entry?, Site.says?, Site.place, Site.name?]
    cases s.tree.part? .name <;> rfl
  · next hkind =>
    simp only [sitesAt, hkind]
    rw [filterMap_map]
    refine congrArg (List.filterMap · _) (funext fun spec => ?_)
    rw [Function.comp_apply, Site.entry?, Site.says?, Site.place, Site.whole, Site.name?]
    cases spec.tree.part? .name with
    | none => rfl
    | some name =>
      have hbase : ∀ doc, (Declaration.type
          (if (typeDoc source i spec (name.text source)).doc.isEmpty then
            { typeDoc source i spec (name.text source) with doc }
          else typeDoc source i spec (name.text source))).base = name.text source := by
        intro doc
        split <;> exact (typeDoc_fields ..).1
      rw [map_some, map_some, map_some, hbase]
  · next hkind =>
    simp only [sitesAt, hkind]
    exact valueLocations_eq source i true s
  · next hkind =>
    simp only [sitesAt, hkind]
    exact valueLocations_eq source i false s
  · next hfunc hmethod htype hconst hvar =>
    rw [sitesAt_of_kind hfunc hmethod htype hconst hvar]
    rfl

end CodeAtlas.Go
