import CodeAtlas.Proofs.Go.Exported
import CodeAtlas.Proofs.Go.Specification

/-!
# Names and values of Go constants and variables

The outline of a package tells the specifications of constants and variables one after the
other (`told_packageOutline`). What it tells of one is found in the tree by roles (`tell`). In a
specification of variables the names that are found are those that are written. In one of
constants the commas are found as well, so that they are told as constants of their own, and
every later name gets a value that is not its own.

* `Parted.tell_eq`: what is told of a specification, by what it is written with;
* `tellWritten_eq_pairing_iff`: when each name has its own value;
* `told_values_paired`: which specifications of a package are told as they are written.
-/

namespace CodeAtlas.Go

open Grammar List

variable {source : Source} {values names : List (ParseTree Kind)}

/-! ## What is told -/

/-- What is told of a constant or variable: its name, its type and its value. -/
structure Told where
  name : String
  type : String
  value : String
  deriving DecidableEq

/-- What a symbol tells. -/
def toldBy (b : Binding) : Told :=
  ⟨b.name, b.type, b.value⟩

/-- The text of a type that may be missing. -/
def typeTextOf (source : Source) (type? : Option (ParseTree Kind)) : String :=
  match type? with
  | some u => typeText source u
  | none => ""

/-- What is told of a specification, by the roles of its parts. -/
def tell (source : Source) (spec : ParseTree Kind) : List Told :=
  (spec.partsAs .name).mapIdx fun i name =>
    ⟨name.text source, typeTextOf source (spec.part? .type),
      ((valuesOf spec).map (valueText source)).getD i ""⟩

/-- The constants (or variables) of an outline. -/
def bindings (isConst : Bool) (o : Outline) : List Binding :=
  if isConst then o.constants else o.vars

/-- What a declaration tells, if it is one of constants (or variables). -/
def told? (isConst : Bool) (d : Declaration) : Option Told :=
  (d.value? isConst).map fun v => ⟨v.name, v.type, v.value⟩

theorem told?_withKey (isConst : Bool) (d : Declaration) (key : String) :
    told? isConst (d.withKey key) = told? isConst d := by
  cases d with
  | value v => simp only [told?, Declaration.withKey, Declaration.value?]; split <;> rfl
  | _ => rfl

variable {isConst : Bool} {type? : Option (ParseTree Kind)}

theorem filterMap_told?_keyed (keys : List String) (ds : List Declaration)
    (hlength : keys.length = ds.length) :
    (List.zipWith Declaration.withKey keys ds).filterMap (told? isConst) =
      ds.filterMap (told? isConst) := by
  induction ds generalizing keys with
  | nil => rw [zipWith_nil_right]
  | cons d ds ih =>
    cases keys with
    | nil => cases hlength
    | cons key keys =>
      rw [zipWith_cons_cons, filterMap_cons, filterMap_cons, told?_withKey,
        ih keys (Nat.succ.inj hlength)]

theorem filterMap_told?_valueDocs (source : Source) (i : Nat) (isConst : Bool) (spec : Sited Kind)
    (shared : String) :
    ((valueDocs source i isConst spec).map fun v =>
      Declaration.value (if v.doc.isEmpty then { v with doc := shared } else v)).filterMap
        (told? isConst) = tell source spec.tree := by
  -- The documentation that is shared has no part in what is told.
  have hshared : (told? isConst ∘ fun v : ValueDoc =>
      Declaration.value (if v.doc.isEmpty then { v with doc := shared } else v)) =
        fun v => if v.isConst = isConst then some ⟨v.name, v.type, v.value⟩ else none := by
    funext v
    rw [Function.comp_apply]
    split <;> simp only [told?, Declaration.value?, apply_ite (Option.map _), Option.map_some,
      Option.map_none]
  have hvalues : (match spec.tree.part? .value with
      | some list => (solidNodes list).map (valueText source)
      | none => []) = (valuesOf spec.tree).map (valueText source) := by
    rw [valuesOf]
    cases spec.tree.part? .value <;> rfl
  rw [filterMap_map, hshared]
  refine filterMap_mapIdx fun j => ?_
  rw [tell, getElem?_mapIdx, ← hvalues]
  cases (spec.tree.partsAs .name)[j]? with
  | none => rfl
  | some name => exact congrArg some (if_pos rfl)

/-- What the declarations at a node tell: its specifications, if it declares constants (or
    variables). -/
theorem filterMap_told?_declarationsAt (source : Source) (i : Nat) (isConst : Bool)
    (s : Sited Kind) :
    (declarationsAt source i s).filterMap (told? isConst) =
      if s.tree.isKind (if isConst then .constDecl else .varDecl) then
        (specs [valueKind isConst] s.tree).flatMap fun spec => tell source spec.tree
      else [] := by
  have hvalues : (valueDeclarations source i isConst s).filterMap (told? isConst) =
      (specs [valueKind isConst] s.tree).flatMap fun spec => tell source spec.tree := by
    rw [valueDeclarations, filterMap_flatMap]
    exact congrArg (List.flatMap · _) (funext fun spec =>
      filterMap_told?_valueDocs source i isConst spec _)
  have hothers : (valueDeclarations source i (!isConst) s).filterMap (told? isConst) = [] := by
    rw [filterMap_eq_nil_iff]
    intro d hd
    obtain ⟨spec, -, hd⟩ := mem_flatMap.1 hd
    obtain ⟨v, hv, rfl⟩ := mem_map.1 hd
    obtain ⟨j, hj, rfl⟩ := mem_mapIdx.1 hv
    simp only [told?, Declaration.value?]
    split <;> simp
  have hkind : ∀ {k}, s.tree.kind? = some k → s.tree.isKind (if isConst then .constDecl
      else .varDecl) = decide ((if isConst then .constDecl else .varDecl) = k) := by
    intro k hk
    rw [Bool.eq_iff_iff, ParseTree.isKind_iff, hk, decide_eq_true_iff, Option.some_inj, eq_comm]
  rw [declarationsAt]
  split
  · next hk =>
    rw [hkind hk]
    cases isConst <;> cases s.tree.part? .name <;> rfl
  · next hk =>
    rw [hkind hk]
    cases isConst <;> cases s.tree.part? .name <;> rfl
  · next hk =>
    rw [hkind hk, filterMap_filterMap]
    cases isConst <;> exact filterMap_eq_nil_iff.2 fun spec _ => by
      cases spec.tree.part? .name <;> rfl
  · next hk =>
    rw [hkind hk]
    cases isConst with
    | true => exact hvalues
    | false => exact hothers
  · next hk =>
    rw [hkind hk]
    cases isConst with
    | true => exact hothers
    | false => exact hvalues
  · next hconst hvar =>
    have hneither : s.tree.isKind (if isConst then .constDecl else .varDecl) = false := by
      rw [Bool.eq_false_iff, ne_eq, ParseTree.isKind_iff]
      cases isConst with
      | true => exact hconst
      | false => exact hvar
    rw [hneither]
    rfl

/-- A package tells the specifications of its files one after the other. -/
theorem told_ofFiles (files : List File) (isConst : Bool) :
    (keyedDeclarations files).filterMap (told? isConst) =
      files.flatMap fun f => (valueSpecs isConst f.tree).flatMap (tell f.source) := by
  have hfile : ∀ (i : Nat) (f : File), (f.declarations i).filterMap (told? isConst) =
      (valueSpecs isConst f.tree).flatMap (tell f.source) := by
    intro i f
    rw [File.declarations, filterMap_flatMap, valueSpecs, flatMap_assoc,
      ← Sited.map_tree_partsOf, filter_map, flatMap_map, flatMap_filter]
    refine congrArg (List.flatMap · _) (funext fun s => ?_)
    rw [filterMap_told?_declarationsAt, flatMap_map]
    rfl
  rw [keyedDeclarations, filterMap_told?_keyed _ _ (by rw [Keys.length_assign, length_map]),
    filterMap_flatten, map_mapIdx]
  simp only [hfile]
  exact congrArg List.flatten (ext_getElem? fun i => by simp)

/-- The symbols of an outline tell the specifications of the files, of which only those with
    exported names may be wanted. -/
theorem told_packageOutline (directory : String) (files : List File) (exportedOnly isConst : Bool) :
    (bindings isConst (packageOutline directory files exportedOnly)).map toldBy =
      (files.flatMap fun f => (valueSpecs isConst f.tree).flatMap (tell f.source)).filter
        fun x => !exportedOnly || isExported x.name := by
  obtain ⟨p, -, -, hconsts, hvars, hcompleted⟩ := PackageDoc.completed_ofFiles files
  -- The symbols of all files, exported or not.
  have hall : ∀ isConst, (bindings isConst (packageOutline directory files false)).map toldBy =
      files.flatMap fun f => (valueSpecs isConst f.tree).flatMap (tell f.source) := by
    intro isConst
    rw [← told_ofFiles, funext (told?.eq_def isConst), ← map_filterMap]
    cases isConst with
    | true =>
      rw [← hconsts, ← hcompleted.consts]
      exact map_map
    | false =>
      rw [← hvars, ← hcompleted.vars]
      exact map_map
  cases exportedOnly with
  | false => simpa using hall isConst
  | true =>
    rw [← hall]
    have hfilter : ∀ vs : List ValueDoc, ((vs.filter (isExported ·.name)).map
        (binding files (locationIndex files))).map toldBy =
          ((vs.map (binding files (locationIndex files))).map toldBy).filter
            fun x => !true || isExported x.name := by
      intro vs
      rw [map_map, map_map, filter_map]
      rfl
    cases isConst <;> exact hfilter _

/-! ## Which specifications are told as they are written -/

/-- Names with a comma between any two. -/
def withCommas : List String → List String
  | [] => []
  | [x] => [x]
  | x :: xs => x :: "," :: withCommas xs

theorem length_withCommas (xs : List String) : (withCommas xs).length = 2 * xs.length - 1 := by
  fun_induction withCommas xs with
  | case1 => rfl
  | case2 x => rfl
  | case3 x xs hxs ih =>
    have hpos : xs.length ≠ 0 := fun h => hxs (length_eq_zero_iff.1 h)
    simp only [length_cons]
    omega

theorem map_text_interleaved {P Q : ParseTree Kind → Prop} {ts items : List (ParseTree Kind)}
    (h : Interleaved P Q ts items) (hP : ∀ t, P t → t.text source = ",") :
    ts.map (·.text source) = withCommas (items.map (·.text source)) := by
  obtain ⟨first, more, -, hmore, rfl, rfl⟩ := h
  induction more generalizing first with
  | nil => rfl
  | cons p more ih =>
    rw [forall_mem_cons] at hmore
    have hrest := ih p.2 hmore.2
    simp only [map_cons, flatMap_cons, cons_append, nil_append] at hrest ⊢
    rw [hrest, hP _ hmore.1.1]
    rfl

/-- What is told of a specification that is written so. Among constants, commas are told as
    if they were names. -/
def tellWritten (source : Source) (isConst : Bool) (names : List (ParseTree Kind))
    (type? : Option (ParseTree Kind)) (values : List (ParseTree Kind)) : List Told :=
  let names := names.map (·.text source)
  (if isConst then withCommas names else names).mapIdx fun i x =>
    ⟨x, typeTextOf source type?, (values.map (valueText source)).getD i ""⟩

theorem Parted.tell_eq {spec : ParseTree Kind} {front back : List (ParseTree Kind)}
    (h : Parted source isConst spec.parts front names type? back values) :
    tell source spec = tellWritten source isConst names type? values := by
  have hnames : (spec.partsAs .name).map (·.text source) =
      if isConst then withCommas (names.map (·.text source)) else names.map (·.text source) := by
    rw [h.partsAs_name]
    cases isConst with
    | true => exact map_text_interleaved h.front fun t ht => ht.2.1
    | false => rfl
  rw [tellWritten, ← hnames, tell, h.part?_type, h.valuesOf_eq]
  exact ext_getElem? fun i => by simp [Function.comp_def]

/-- Each name with its own value. -/
def pairing (source : Source) (names : List (ParseTree Kind)) (type? : Option (ParseTree Kind))
    (values : List (ParseTree Kind)) : List Told :=
  List.zipWith (fun x v => ⟨x.text source, typeTextOf source type?, valueText source v⟩)
    names values

/-- With as many values as names, each name is told with its own value if there are no
    commas that are told as names. -/
theorem tellWritten_eq_pairing_iff (hpos : names ≠ []) (h : names.length = values.length) :
    tellWritten source isConst names type? values = pairing source names type? values ↔
      isConst = false ∨ names.length = 1 := by
  have hplain : (names.map (·.text source)).mapIdx (fun i x =>
      (⟨x, typeTextOf source type?, (values.map (valueText source)).getD i ""⟩ : Told)) =
        pairing source names type? values := by
    refine ext_getElem? fun i => ?_
    rw [getElem?_mapIdx, getElem?_map, pairing, getElem?_zipWith,
      getD_eq_getElem?_getD, getElem?_map]
    by_cases hi : i < names.length
    · rw [getElem?_eq_getElem hi, getElem?_eq_getElem (h ▸ hi)]
      rfl
    · rw [getElem?_eq_none (Nat.le_of_not_lt hi)]
      rfl
  cases isConst with
  | false => simpa [tellWritten] using hplain
  | true =>
    constructor
    · intro heq
      have hlength := congrArg List.length heq
      simp only [tellWritten, if_true, length_mapIdx, length_withCommas, length_map, pairing,
        length_zipWith] at hlength
      have := length_pos_iff.2 hpos
      exact .inr (by omega)
    · rintro (hfalse | hone)
      · cases hfalse
      · obtain ⟨x, rfl⟩ := length_eq_one_iff.1 hone
        exact hplain

/-- A package lists the specifications of constants (or variables) of its files one after the
    other, comments between their parts left out. Every specification is written as names, a
    type or none, and values. Each name is listed with the type and, at the position of the
    name, a value; among constants, a comma counts as a name. So with as many values as names,
    each name has its own value if and only if these are variables or there is one name. -/
theorem told_values_paired (directory : String) (contents : List (String × Bytes))
    (exportedOnly : Bool) (o : Outline) (h : outline? directory contents exportedOnly = some o)
    (isConst : Bool) :
    ∃ groups : List (List Told),
      (bindings isConst o).map toldBy =
        groups.flatten.filter (fun x => !exportedOnly || isExported x.name) ∧
      List.Forall₂ (fun (p : Source × ParseTree Kind) group =>
          (∃ names type? values, Written p.1 p.2 names type? values) ∧
          ∀ names type? values, Written p.1 p.2 names type? values →
            group = tellWritten p.1 isConst names type? values ∧
            (names.length = values.length →
              (group = pairing p.1 names type? values ↔ isConst = false ∨ names.length = 1)))
        ((goFiles contents).flatMap fun f => (valueSpecs isConst f.tree).map (f.source, ·))
        groups := by
  obtain ⟨_, rfl⟩ := outline?_eq_some.1 h
  let specsOf := (goFiles contents).flatMap fun f => (valueSpecs isConst f.tree).map (f.source, ·)
  refine ⟨specsOf.map fun p => tell p.1 p.2, ?_, ?_⟩
  · rw [told_packageOutline, ← flatMap_def, flatMap_assoc]
    simp only [flatMap_map]
  · rw [forall₂_map_right_iff, forall₂_same]
    intro p hp
    obtain ⟨f, hf, hp⟩ := mem_flatMap.1 hp
    obtain ⟨spec, hspec, rfl⟩ := mem_map.1 hp
    obtain ⟨front, names, type?, back, values, hlaid⟩ :=
      laidOut_of_mem_valueSpecs (parsed_of_mem_goFiles f hf) hspec
    refine ⟨⟨names, type?, values, hlaid.written⟩, fun names' type?' values' h' => ?_⟩
    obtain ⟨rfl, rfl, rfl⟩ := hlaid.written.unique h'
    refine ⟨hlaid.tell_eq, fun hlength => ?_⟩
    rw [hlaid.tell_eq, tellWritten_eq_pairing_iff h'.names_ne_nil hlength]

/-- Variables in a list, with a comment between two names, and a pair of constants. -/
def ledger : List (String × Bytes) :=
  [("p/a.go", bytesOf ("package p\n\nvar (\n\ta /* one */, b int = 1, -2\n\tc = d\n)\n\n" ++
    "const X, Y = 1, 2\n"))]

/-- The variables have their own values; a comma stands between the constants, and has the
    value of the second. -/
theorem told_values_paired_ledger :
    ∃ o, outline? "p" ledger false = some o ∧
      (bindings false o).map toldBy = [⟨"a", "int", "1"⟩, ⟨"b", "int", "-2"⟩, ⟨"c", "", "d"⟩] ∧
      (bindings true o).map toldBy = [⟨"X", "", "1"⟩, ⟨",", "", "2"⟩, ⟨"Y", "", ""⟩] ∧
      ∀ isConst, ∃ groups : List (List Told), (bindings isConst o).map toldBy =
          groups.flatten.filter (fun x => !false || isExported x.name) ∧
        List.Forall₂ (fun (p : Source × ParseTree Kind) group =>
            (∃ names type? values, Written p.1 p.2 names type? values) ∧
            ∀ names type? values, Written p.1 p.2 names type? values →
              group = tellWritten p.1 isConst names type? values ∧
              (names.length = values.length →
                (group = pairing p.1 names type? values ↔ isConst = false ∨ names.length = 1)))
          ((goFiles ledger).flatMap fun f => (valueSpecs isConst f.tree).map (f.source, ·))
          groups := by
  have htold : (outline? "p" ledger false).map (fun o =>
      ((bindings false o).map toldBy, (bindings true o).map toldBy)) =
      some ([⟨"a", "int", "1"⟩, ⟨"b", "int", "-2"⟩, ⟨"c", "", "d"⟩],
        [⟨"X", "", "1"⟩, ⟨",", "", "2"⟩, ⟨"Y", "", ""⟩]) := by decide +kernel
  obtain ⟨o, ho, htold⟩ := Option.map_eq_some_iff.1 htold
  obtain ⟨hvars, hconsts⟩ := Prod.mk.inj htold
  exact ⟨o, ho, hvars, hconsts, told_values_paired "p" ledger false o ho⟩

/-- Two constants in one specification. -/
def twoConstants : List (String × Bytes) :=
  [("p/a.go", bytesOf "package p\n\nconst X, Y = 1, 2\n")]

/-- A specification of two constants is told as three. -/
theorem comma_told_as_constant :
    ∃ o, outline? "p" twoConstants false = some o ∧
      o.constants.map toldBy = [⟨"X", "", "1"⟩, ⟨",", "", "2"⟩, ⟨"Y", "", ""⟩] := by
  have htold : (outline? "p" twoConstants false).map (fun o => o.constants.map toldBy) =
      some [⟨"X", "", "1"⟩, ⟨",", "", "2"⟩, ⟨"Y", "", ""⟩] := by decide +kernel
  obtain ⟨o, ho, htold⟩ := Option.map_eq_some_iff.1 htold
  exact ⟨o, ho, htold⟩

end CodeAtlas.Go
