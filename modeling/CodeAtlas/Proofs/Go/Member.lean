import Mathlib.Data.List.Perm.Basic
import CodeAtlas.Proofs.Go.Declared

/-!
# Where functions and methods go

A method goes to the first type of its receiver's name, and a function to the first type
of the name that it produces; without such a type it is among the functions of the
package. Both are told by one step (`attach`), which says what becomes of the types and
functions (`attach_cases`). The names and kinds of the types stay the same in each step,
so where a function or method goes can be told beforehand.

* `functionItems`, `methodItems`: the functions and methods of a package, with the types
  that they are at;
* `methodsGiven_foldl`, `functionsGiven_foldl`: what all steps together do;
* `completed_complete`: both, from a package with no function at a type.
-/

namespace CodeAtlas.Go

open List Option

theorem updateFirst?_eq_some {α : Type} {p : α → Bool} {g : α → α} {as bs : List α}
    (h : updateFirst? p g as = some bs) :
    ∃ pre a post, as.find? p = some a ∧ as = pre ++ a :: post ∧ bs = pre ++ g a :: post := by
  induction as generalizing bs with
  | nil => cases h
  | cons a as ih =>
    rw [updateFirst?] at h
    split at h
    · next ha =>
      cases h
      exact ⟨[], a, as, find?_cons_of_pos ha, rfl, rfl⟩
    · next ha =>
      obtain ⟨bs, hbs, rfl⟩ := map_eq_some_iff.1 h
      obtain ⟨pre, b, post, hfind, rfl, rfl⟩ := ih hbs
      exact ⟨a :: pre, b, post, by rw [find?_cons_of_neg ha, hfind], rfl, rfl⟩

theorem updateFirst?_eq_none {α : Type} {p : α → Bool} {g : α → α} {as : List α}
    (h : updateFirst? p g as = none) : as.find? p = none := by
  induction as with
  | nil => rfl
  | cons a as ih =>
    rw [updateFirst?] at h
    split at h
    · cases h
    · next ha =>
      rw [find?_cons_of_neg ha]
      exact ih (map_eq_none_iff.1 h)

namespace PackageDoc

variable {q : PackageDoc}

/-- The kind of the first type of a name. -/
def kindOf? (p : PackageDoc) (name : String) : Option TypeKind :=
  (p.types.find? (·.name == name)).map (·.kind)

/-- Gives a function to the first type of a name, in some way; without one it is a
    function of the package. -/
def attach (name? : Option String) (add : TypeDoc → TypeDoc) (f : FuncDoc) (p : PackageDoc) :
    PackageDoc :=
  match name?.bind fun name => updateFirst? (·.name == name) add p.types with
  | some types => { p with types }
  | none => { p with funcs := p.funcs ++ [f] }

theorem attachMethod_eq (p : PackageDoc) (m : FuncDoc) :
    p.attachMethod m =
      p.attach m.receiverType (fun t => { t with methods := t.methods ++ [m] }) m := rfl

theorem attachConstructor_eq (p : PackageDoc) (f : FuncDoc) :
    p.attachConstructor f =
      p.attach f.produces? (fun t => { t with constructors := t.constructors ++ [f] }) f := rfl

/-- Either the first type of the name is changed, or there is none and the function is
    added. -/
theorem attach_cases (name? : Option String) (add : TypeDoc → TypeDoc) (f : FuncDoc)
    (p : PackageDoc) :
    (∃ pre t post, name? = some t.name ∧ p.kindOf? t.name = some t.kind ∧
      p.types = pre ++ t :: post ∧
      p.attach name? add f = { p with types := pre ++ add t :: post }) ∨
    name?.bind p.kindOf? = none ∧ p.attach name? add f = { p with funcs := p.funcs ++ [f] } := by
  rw [attach]
  split
  · next types hattached =>
    obtain ⟨name, hname, hupdate⟩ := bind_eq_some_iff.1 hattached
    obtain ⟨pre, t, post, hfind, htypes, rfl⟩ := updateFirst?_eq_some hupdate
    obtain rfl : t.name = name := by simpa using find?_some hfind
    exact .inl ⟨pre, t, post, hname, by rw [kindOf?, hfind]; rfl, htypes, rfl⟩
  · next hattached =>
    refine .inr ⟨?_, rfl⟩
    cases name? with
    | none => rfl
    | some name =>
      rw [bind_some] at hattached ⊢
      rw [kindOf?, updateFirst?_eq_none hattached]
      rfl

/-- A type without the functions that were given to it. -/
def core (t : TypeDoc) : TypeDoc :=
  { t with methods := [], constructors := [] }

/-- Names and kinds of types do not depend on the functions that they are given. -/
theorem kindOf?_congr {p : PackageDoc} (h : p.types.map core = q.types.map core) :
    p.kindOf? = q.kindOf? := by
  have hbare : ∀ (p : PackageDoc) name,
      p.kindOf? name = ((p.types.map core).find? (·.name == name)).map (·.kind) := by
    intro p name
    rw [find?_map, Option.map_map]
    rfl
  funext name
  rw [hbare, hbare, h]

theorem core_attach (p : PackageDoc) (name? : Option String) {add : TypeDoc → TypeDoc}
    (f : FuncDoc) (hadd : ∀ t, core (add t) = core t) :
    (p.attach name? add f).types.map core = p.types.map core := by
  rcases p.attach_cases name? add f with ⟨pre, t, post, _, _, htypes, h⟩ | ⟨_, h⟩
  · rw [h, htypes]
    simp only [map_append, map_cons, hadd]
  · rw [h]

/-! ## What a package lists -/

/-- The constructors of a package, each with its type. -/
def constructorItems (p : PackageDoc) : List (FuncDoc × Option String) :=
  p.types.flatMap fun t => t.constructors.map (·, some t.name)

/-- The functions of a package, those that make values of its types included, with the
    types of these. -/
def functionItems (p : PackageDoc) : List (FuncDoc × Option String) :=
  p.constructorItems ++ p.funcs.map (·, none)

/-- The methods of a package, each with its type. Interfaces have none of their own. -/
def methodItems (p : PackageDoc) : List (FuncDoc × String) :=
  p.types.flatMap fun t => if t.kind = .interface then [] else t.methods.map (·, t.name)

/-- The type that a method is listed with. -/
def methodItem? (kindOf? : String → Option TypeKind) (m : FuncDoc) : Option (FuncDoc × String) :=
  m.receiverType.bind fun base =>
    (kindOf? base).bind fun kind => if kind = .interface then none else some (m, base)

/-- There is no type for a method. -/
def isLoose (kindOf? : String → Option TypeKind) (m : FuncDoc) : Bool :=
  (m.receiverType.bind kindOf?).isNone

variable {kindOf? : String → Option TypeKind} {r : PackageDoc} {m : FuncDoc}

theorem methodItem?_eq_some {x : FuncDoc × String} :
    methodItem? kindOf? m = some x ↔
      x.1 = m ∧ m.receiverType = some x.2 ∧
        ∃ kind, kindOf? x.2 = some kind ∧ kind ≠ .interface := by
  simp only [methodItem?, bind_eq_some_iff]
  constructor
  · rintro ⟨base, hbase, kind, hkind, hx⟩
    split at hx
    · cases hx
    · next hinterface =>
      cases hx
      exact ⟨rfl, hbase, kind, hkind, hinterface⟩
  · rintro ⟨rfl, hbase, kind, hkind, hinterface⟩
    exact ⟨x.2, hbase, kind, hkind, if_neg hinterface⟩

theorem methodItem?_of_isLoose (h : isLoose kindOf? m) : methodItem? kindOf? m = none := by
  rw [isLoose, isNone_iff_eq_none, bind_eq_none_iff] at h
  rw [methodItem?, bind_eq_none_iff]
  intro base hbase
  rw [h base hbase, bind_none]

/-- The type that a function makes values of, if there is such a type. -/
def madeType? (kindOf? : String → Option TypeKind) (f : FuncDoc) : Option String :=
  f.produces?.filter fun name => (kindOf? name).isSome

/-- `q` is `p` with some methods at their types. -/
structure MethodsGiven (p : PackageDoc) (ms : List FuncDoc) (q : PackageDoc) : Prop where
  types : q.types.map core = p.types.map core
  constructors : q.constructorItems = p.constructorItems
  funcs : q.funcs = p.funcs ++ ms.filter (isLoose p.kindOf?)
  methods : q.methodItems.Perm (p.methodItems ++ ms.filterMap (methodItem? p.kindOf?))
  consts : q.consts = p.consts
  vars : q.vars = p.vars

/-- `q` is `p` with some functions, perhaps at the types that they make values of. -/
structure FunctionsGiven (p : PackageDoc) (fs : List FuncDoc) (q : PackageDoc) : Prop where
  types : q.types.map core = p.types.map core
  methods : q.methodItems = p.methodItems
  functions : q.functionItems.Perm (p.functionItems ++ fs.map fun f => (f, madeType? p.kindOf? f))
  consts : q.consts = p.consts
  vars : q.vars = p.vars

/-! ## One step -/

variable (p : PackageDoc)

theorem methodsGiven_attachMethod (m : FuncDoc) : MethodsGiven p [m] (p.attachMethod m) := by
  have htypes : (p.attachMethod m).types.map core = p.types.map core :=
    p.core_attach m.receiverType m fun t => rfl
  rw [attachMethod_eq] at htypes ⊢
  rcases p.attach_cases m.receiverType (fun t => { t with methods := t.methods ++ [m] }) m with
    ⟨pre, t, post, hname, hkind, hsplit, h⟩ | ⟨hloose, h⟩
  · have hitem : [m].filterMap (methodItem? p.kindOf?) =
        if t.kind = .interface then [] else [(m, t.name)] := by
      simp only [filterMap_cons, filterMap_nil, methodItem?, hname, hkind,
        bind_some]
      by_cases hinterface : t.kind = .interface
      · rw [if_pos hinterface, if_pos hinterface]
      · rw [if_neg hinterface, if_neg hinterface]
    rw [h] at htypes ⊢
    refine ⟨htypes, ?_, ?_, ?_, rfl, rfl⟩
    · simp only [constructorItems, hsplit, flatMap_append, flatMap_cons]
    · simp [isLoose, hname, hkind]
    · rw [hitem]
      simp only [methodItems, hsplit, flatMap_append, flatMap_cons, append_assoc]
      refine List.Perm.append_left _ ?_
      split
      · simp
      · rw [map_append, append_assoc]
        exact List.Perm.append_left _ perm_append_comm
  · have hloose : isLoose p.kindOf? m := by rw [isLoose, hloose]; rfl
    rw [h] at htypes ⊢
    refine ⟨htypes, rfl, ?_, ?_, rfl, rfl⟩
    · simp [hloose]
    · simp [methodItems, methodItem?_of_isLoose hloose]

theorem functionsGiven_attachConstructor (f : FuncDoc) :
    FunctionsGiven p [f] (p.attachConstructor f) := by
  have htypes : (p.attachConstructor f).types.map core = p.types.map core :=
    p.core_attach f.produces? f fun t => rfl
  rw [attachConstructor_eq] at htypes ⊢
  rcases p.attach_cases f.produces? (fun t => { t with constructors := t.constructors ++ [f] }) f
    with ⟨pre, t, post, hname, hkind, hsplit, h⟩ | ⟨hnone, h⟩
  · have hmade : madeType? p.kindOf? f = some t.name := by
      simp [madeType?, hname, hkind]
    rw [h] at htypes ⊢
    refine ⟨htypes, ?_, ?_, rfl, rfl⟩
    · simp only [methodItems, hsplit, flatMap_append, flatMap_cons]
    · rw [map_singleton, hmade]
      simp only [functionItems, constructorItems, hsplit, flatMap_append, flatMap_cons,
        map_append, append_assoc]
      refine List.Perm.append_left _ (List.Perm.append_left _ ?_)
      exact perm_append_comm.trans (List.Perm.of_eq (append_assoc ..))
  · have hmade : madeType? p.kindOf? f = none := by
      rw [madeType?, filter_eq_none_iff]
      intro name hname
      rw [hname, bind_some] at hnone
      rw [hnone]
      exact Bool.false_ne_true
    rw [h] at htypes ⊢
    refine ⟨htypes, rfl, ?_, rfl, rfl⟩
    rw [map_singleton, hmade]
    simp [functionItems, constructorItems]

/-! ## All steps -/

variable {p}

theorem MethodsGiven.trans {ms ns : List FuncDoc} (h : MethodsGiven p ms q)
    (h' : MethodsGiven q ns r) : MethodsGiven p (ms ++ ns) r := by
  have hkind := kindOf?_congr h.types
  have hfuncs := h'.funcs
  have hmethods := h'.methods
  rw [hkind] at hfuncs hmethods
  refine ⟨h'.types.trans h.types, h'.constructors.trans h.constructors, ?_, ?_,
    h'.consts.trans h.consts, h'.vars.trans h.vars⟩
  · rw [hfuncs, h.funcs, filter_append, append_assoc]
  · rw [filterMap_append, ← append_assoc]
    exact hmethods.trans (h.methods.append_right _)

theorem FunctionsGiven.trans {fs gs : List FuncDoc} (h : FunctionsGiven p fs q)
    (h' : FunctionsGiven q gs r) : FunctionsGiven p (fs ++ gs) r := by
  have hfunctions := h'.functions
  rw [kindOf?_congr h.types] at hfunctions
  refine ⟨h'.types.trans h.types, h'.methods.trans h.methods, ?_, h'.consts.trans h.consts,
    h'.vars.trans h.vars⟩
  rw [map_append, ← append_assoc]
  exact hfunctions.trans (h.functions.append_right _)

variable (p)

theorem methodsGiven_foldl (ms : List FuncDoc) : MethodsGiven p ms (ms.foldl attachMethod p) := by
  induction ms generalizing p with
  | nil => exact ⟨rfl, rfl, by simp, by simp, rfl, rfl⟩
  | cons m ms ih => exact (p.methodsGiven_attachMethod m).trans (ih _)

theorem functionsGiven_foldl (fs : List FuncDoc) :
    FunctionsGiven p fs (fs.foldl attachConstructor p) := by
  induction fs generalizing p with
  | nil => exact ⟨rfl, rfl, by simp, rfl, rfl⟩
  | cons f fs ih => exact (p.functionsGiven_attachConstructor f).trans (ih _)

/-- The package with its methods and constructors at their types. -/
def complete (methods : List FuncDoc) : PackageDoc :=
  (methods.foldl attachMethod p).funcs.foldl attachConstructor
    { methods.foldl attachMethod p with funcs := [] }

/-- `q` lists the functions and methods of `p`, which has none at its types. -/
structure Completed (p : PackageDoc) (methods : List FuncDoc) (q : PackageDoc) : Prop where
  types : q.types.map core = p.types.map core
  functions : q.functionItems.Perm
    ((p.funcs ++ methods.filter (isLoose p.kindOf?)).map fun f => (f, madeType? p.kindOf? f))
  methods : q.methodItems.Perm (methods.filterMap (methodItem? p.kindOf?))
  consts : q.consts = p.consts
  vars : q.vars = p.vars

/-- Every function and method goes to one place, which is known beforehand. -/
theorem completed_complete {p : PackageDoc}
    (hp : ∀ t ∈ p.types, t.methods = [] ∧ t.constructors = []) (methods : List FuncDoc) :
    Completed p methods (p.complete methods) := by
  have hm := p.methodsGiven_foldl methods
  have hf := functionsGiven_foldl { methods.foldl attachMethod p with funcs := [] }
    (methods.foldl attachMethod p).funcs
  have hkind : kindOf? { methods.foldl attachMethod p with funcs := [] } = p.kindOf? :=
    kindOf?_congr hm.types
  have hconstructors : p.constructorItems = [] :=
    flatMap_eq_nil_iff.2 fun t ht => by rw [(hp t ht).2]; rfl
  have hmethods : p.methodItems = [] :=
    flatMap_eq_nil_iff.2 fun t ht => by rw [(hp t ht).1, map_nil, ite_self]
  refine ⟨hf.types.trans hm.types, ?_, ?_, hf.consts.trans hm.consts, hf.vars.trans hm.vars⟩
  · have hfunctions := hf.functions
    have hnone : functionItems { methods.foldl attachMethod p with funcs := [] } = [] := by
      rw [functionItems, map_nil, append_nil]
      exact hm.constructors.trans hconstructors
    rw [hkind, hnone] at hfunctions
    rw [← hm.funcs]
    exact hfunctions
  · have hitems := hm.methods
    rw [hmethods] at hitems
    exact hf.methods ▸ hitems

end PackageDoc

/-! ## The package of some files -/

namespace Declaration

/-- What a function says. -/
def func? : Declaration → Option FuncDoc
  | .func f => some f
  | _ => none

/-- What a method says. -/
def method? : Declaration → Option FuncDoc
  | .method f => some f
  | _ => none

/-- What a type says. -/
def type? : Declaration → Option TypeDoc
  | .type t => some t
  | _ => none

/-- What a constant (or variable) says. -/
def value? (isConst : Bool) : Declaration → Option ValueDoc
  | .value v => if v.isConst = isConst then some v else none
  | _ => none

variable {d : Declaration} {f : FuncDoc}

theorem func?_eq_some : d.func? = some f ↔ d = .func f := by
  cases d <;> simp [func?]

theorem method?_eq_some : d.method? = some f ↔ d = .method f := by
  cases d <;> simp [method?]

theorem type?_eq_some {t : TypeDoc} : d.type? = some t ↔ d = .type t := by
  cases d <;> simp [type?]

theorem value?_eq_some {isConst : Bool} {v : ValueDoc} :
    d.value? isConst = some v ↔ d = .value v ∧ v.isConst = isConst := by
  cases d with
  | value w => grind [value?]
  | _ => simp [value?]

end Declaration

/-- What a package says is put together of its declarations, and it lists all its functions and
    methods. -/
theorem PackageDoc.completed_ofFiles (files : List File) :
    ∃ p : PackageDoc, p.types = (keyedDeclarations files).filterMap Declaration.type? ∧
      p.funcs = (keyedDeclarations files).filterMap Declaration.func? ∧
      p.consts = (keyedDeclarations files).filterMap (Declaration.value? true) ∧
      p.vars = (keyedDeclarations files).filterMap (Declaration.value? false) ∧
      Completed p ((keyedDeclarations files).filterMap Declaration.method?)
        (ofFiles files false) := by
  refine ⟨_, rfl, rfl, rfl, ?_, completed_complete (fun t ht => ?_) _⟩
  · refine congrArg (List.filterMap · _) (funext fun d => ?_)
    cases d with
    | value v => cases hconst : v.isConst <;> simp [Declaration.value?, hconst]
    | _ => rfl
  · obtain ⟨d, hd, ht⟩ := mem_filterMap.1 ht
    exact members_of_mem_keyedDeclarations (Declaration.type?_eq_some.1 ht ▸ hd)

end CodeAtlas.Go
