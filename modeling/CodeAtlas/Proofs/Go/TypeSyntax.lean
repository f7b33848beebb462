import Mathlib.Data.List.Basic
import CodeAtlas.Go.Declaration
import CodeAtlas.Proofs.Go.Word

/-!
# Go types as they are read

The tree of a type says what the type is made of (`typeOf`), with comments and spacing left
out. A name is a word, by its type. What the library writes for a tree is the text of what it
says, and fuel for the depth of the tree is enough to write it.

* `text_of_fuel`: what is written for the tree of a type;
* `resultsOf_eq`: what is written for the results of a function.
-/

namespace CodeAtlas.Go

open Grammar List

/-- Which way values go through a channel. -/
inductive Direction where
  | both | send | receive
  deriving DecidableEq

/-- How a channel starts. -/
def Direction.text : Direction → String
  | .both => "chan "
  | .send => "chan<- "
  | .receive => "<-chan "

/-- A type. Parameters and results come with their names, which are empty where there is
    none; what is no type is kept as `other`. -/
inductive TypeExpr where
  | name (w : Word)
  | qualified (package w : Word)
  | pointer (t : TypeExpr)
  | slice (element : TypeExpr)
  | array (length : String) (element : TypeExpr)
  | map (key value : TypeExpr)
  | channel (direction : Direction) (value : TypeExpr)
  | function (params results : List (String × TypeExpr)) (parenthesized : Bool)
  | generic (t : TypeExpr) (args : List TypeExpr)
  | union (ts : List TypeExpr)
  | paren (t : TypeExpr)
  | negated (t : TypeExpr)
  | variadic (t : TypeExpr)
  | interface
  | struct
  | other (text : String)

/-- A parameter or result with a text for its type. -/
def paramText (x type : String) : String :=
  if x.isEmpty then type else x ++ " " ++ type

namespace TypeExpr

mutual

/-- The text of a type. -/
def text : TypeExpr → String
  | .name w => w.1
  | .qualified p w => p.1 ++ "." ++ w.1
  | .pointer t => "*" ++ text t
  | .slice t => "[]" ++ text t
  | .array length t => "[" ++ length ++ "]" ++ text t
  | .map k v => "map[" ++ text k ++ "]" ++ text v
  | .channel d v => d.text ++ text v
  | .function ps rs parenthesized =>
    "func(" ++ joinStrings ", " (paramTexts ps) ++ ")" ++ resultsText (paramTexts rs) parenthesized
  | .generic t args => text t ++ "[" ++ joinStrings ", " (texts args) ++ "]"
  | .union ts => joinStrings " | " (texts ts)
  | .paren t => "(" ++ text t ++ ")"
  | .negated t => "~" ++ text t
  | .variadic t => "..." ++ text t
  | .interface => "interface\x7b\x7d"
  | .struct => "struct\x7b\x7d"
  | .other s => s

/-- The texts of types. -/
def texts : List TypeExpr → List String
  | [] => []
  | t :: ts => text t :: texts ts

/-- The texts of parameters or results. -/
def paramTexts : List (String × TypeExpr) → List String
  | [] => []
  | (x, t) :: ps => paramText x (text t) :: paramTexts ps

end

theorem texts_eq_map (ts : List TypeExpr) : texts ts = ts.map text := by
  induction ts with
  | nil => rfl
  | cons t ts ih => rw [texts, ih, map_cons]

theorem paramTexts_eq_map (ps : List (String × TypeExpr)) :
    paramTexts ps = ps.map fun p => paramText p.1 p.2.text := by
  induction ps with
  | nil => rfl
  | cons p ps ih => rw [paramTexts, ih, map_cons]

/-- Induction on a type, with what is known of all types in it. -/
theorem induct {P : TypeExpr → Prop} (name : ∀ w, P (.name w))
    (qualified : ∀ p w, P (.qualified p w)) (pointer : ∀ t, P t → P (.pointer t))
    (slice : ∀ t, P t → P (.slice t)) (array : ∀ length t, P t → P (.array length t))
    (map : ∀ k v, P k → P v → P (.map k v)) (channel : ∀ d v, P v → P (.channel d v))
    (function : ∀ ps rs b, (∀ p ∈ ps, P p.2) → (∀ p ∈ rs, P p.2) → P (.function ps rs b))
    (generic : ∀ t args, P t → (∀ u ∈ args, P u) → P (.generic t args))
    (union : ∀ ts, (∀ t ∈ ts, P t) → P (.union ts)) (paren : ∀ t, P t → P (.paren t))
    (negated : ∀ t, P t → P (.negated t)) (variadic : ∀ t, P t → P (.variadic t))
    (interface : P .interface) (struct : P .struct) (other : ∀ s, P (.other s))
    (t : TypeExpr) : P t :=
  -- One motive for each list that occurs in types, and one for parameters.
  @TypeExpr.rec P (fun ps => ∀ p ∈ ps, P p.2) (fun ts => ∀ u ∈ ts, P u) (fun p => P p.2)
    name qualified pointer slice array map channel function generic union paren negated variadic
    interface struct other (forall_mem_nil _)
    (fun _ _ hp hps => forall_mem_cons.2 ⟨hp, hps⟩) (forall_mem_nil _)
    (fun _ _ hu hts => forall_mem_cons.2 ⟨hu, hts⟩) (fun _ _ ht => ht) t

/-- The type with a name, if that is a word. -/
def ofName (s : String) : TypeExpr :=
  if h : isWord s = true then .name ⟨s, h⟩ else .other s

/-- The type with a name and that of its package, if these are words. -/
def ofNames (names : List String) : TypeExpr :=
  match names with
  | [p, s] =>
    if h : isWord p = true ∧ isWord s = true then .qualified ⟨p, h.1⟩ ⟨s, h.2⟩
    else .other (joinStrings "." [p, s])
  | names => .other (joinStrings "." names)

theorem text_ofName (s : String) : (ofName s).text = s := by
  rw [ofName]
  split <;> rfl

theorem text_ofNames (names : List String) : (ofNames names).text = joinStrings "." names := by
  match names with
  | [p, s] =>
    rw [ofNames]
    split <;> rfl
  | [] | [_] | _ :: _ :: _ :: _ => rfl

end TypeExpr

/-! ## What trees say -/

/-- The way of a channel, by how its text starts. -/
def Direction.ofText (s : String) : Direction :=
  if startsWith s "<-" then .receive
  else if startsWith s "chan<-" || startsWith s "chan <-" then .send
  else .both

section parts

variable {t u : ParseTree Kind}

theorem depth_lt_of_mem (h : u ∈ t.parts) : u.depth < t.depth := by
  cases t with
  | sign => cases h
  | node k r e parts =>
    rw [ParseTree.depth]
    induction parts with
    | nil => cases h
    | cons p ps ih =>
      rw [ParseTree.depthOfList]
      rcases mem_cons.1 h with rfl | h
      · omega
      · have := ih h
        omega

theorem depth_lt_of_part? {r : Role} (h : t.part? r = some u) : u.depth < t.depth :=
  depth_lt_of_mem (mem_of_find?_eq_some h)

theorem depth_lt_of_mem_nodes (h : u ∈ t.nodes) : u.depth < t.depth :=
  depth_lt_of_mem (mem_filter.1 h).1

theorem depth_lt_of_mem_solidNodes (h : u ∈ solidNodes t) : u.depth < t.depth :=
  depth_lt_of_mem_nodes (mem_filter.1 h).1

theorem depth_pos (t : ParseTree Kind) : 0 < t.depth := by
  cases t <;> simp [ParseTree.depth]

end parts

mutual

/-- What the tree of a type says. -/
def typeOf (source : Source) (t : ParseTree Kind) : TypeExpr :=
  match t.kind? with
  | some .typeName | some .identifier | some .packageName => .ofName (t.text source)
  | some .pointer => .pointer (typeInside source t)
  | some .slice => .slice (typeAt source .element t)
  | some .array =>
    .array (((t.part? .length).map fun u => collapseString (u.text source)).getD "")
      (typeAt source .element t)
  | some .openArray => .array "..." (typeAt source .element t)
  | some .map => .map (typeAt source .key t) (typeAt source .value t)
  | some .qualified => .ofNames ((solidNodes t).map (·.text source))
  | some .interface => .interface
  | some .struct => .struct
  | some .function =>
    .function (paramsAt source t) (resultsAt source t)
      ((t.part? .result).any (ParseTree.isKind .paramList))
  | some .channel => .channel (.ofText (t.text source)) (typeAt source .value t)
  | some .generic => .generic (typeInside source t) (argumentsAt source t)
  | some .typeElem => .union (t.nodes.attach.map fun u => typeOf source u.1)
  | some .parenType => .paren (typeInside source t)
  | some .negated => .negated (typeInside source t)
  | _ => .other (collapseString (t.text source))
termination_by 3 * t.depth + 2
decreasing_by
  all_goals first | omega | skip
  have := depth_lt_of_mem_nodes u.2
  omega

/-- The type that is the first node of a tree, comments apart. -/
def typeInside (source : Source) (t : ParseTree Kind) : TypeExpr :=
  match _h : (solidNodes t).head? with
  | some u => typeOf source u
  | none => .other ""
termination_by 3 * t.depth + 1
decreasing_by
  have := depth_lt_of_mem_solidNodes (mem_of_head? _h)
  omega

/-- The type that is the part of a tree with some role. -/
def typeAt (source : Source) (r : Role) (t : ParseTree Kind) : TypeExpr :=
  match _h : t.part? r with
  | some u => typeOf source u
  | none => .other ""
termination_by 3 * t.depth + 1
decreasing_by
  have := depth_lt_of_part? _h
  omega

/-- The type arguments of a tree. -/
def argumentsAt (source : Source) (t : ParseTree Kind) : List TypeExpr :=
  match _h : t.part? .typeArguments with
  | some list => (solidNodes list).attach.map fun u => typeOf source u.1
  | none => []
termination_by 3 * t.depth + 1
decreasing_by
  have := depth_lt_of_part? _h
  have := depth_lt_of_mem_solidNodes u.2
  omega

/-- The parameters of a function. -/
def paramsAt (source : Source) (t : ParseTree Kind) : List (String × TypeExpr) :=
  match _h : t.part? .parameters with
  | some list => paramsIn source list
  | none => []
termination_by 3 * t.depth + 1
decreasing_by
  have := depth_lt_of_part? _h
  omega

/-- The results of a function. -/
def resultsAt (source : Source) (t : ParseTree Kind) : List (String × TypeExpr) :=
  match _h : t.part? .result with
  | some r => resultsIn source r
  | none => []
termination_by 3 * t.depth + 1
decreasing_by
  have := depth_lt_of_part? _h
  omega

/-- The parameters of one declaration: one for each name, or one without a name. -/
def paramsOfDecl (source : Source) (decl : ParseTree Kind) : List (String × TypeExpr) :=
  if decl.isKind .param || decl.isKind .variadicParam then
    let plain := typeAt source .type decl
    let type := if decl.isKind .variadicParam then .variadic plain else plain
    match decl.partsAs .name with
    | [] => [("", type)]
    | names => names.map fun x => (x.text source, type)
  else []
termination_by 3 * decl.depth + 2

/-- The parameters in a list. -/
def paramsIn (source : Source) (list : ParseTree Kind) : List (String × TypeExpr) :=
  list.nodes.attach.flatMap fun decl => paramsOfDecl source decl.1
termination_by 3 * list.depth + 1
decreasing_by
  have := depth_lt_of_mem_nodes decl.2
  omega

/-- The results in a list, or the one that stands for itself. -/
def resultsIn (source : Source) (r : ParseTree Kind) : List (String × TypeExpr) :=
  if r.isKind .paramList then paramsIn source r else [("", typeOf source r)]
termination_by 3 * r.depth + 3

end

section parts

variable (source : Source) (t : ParseTree Kind)

theorem typeInside_eq :
    typeInside source t = ((solidNodes t).head?.map (typeOf source)).getD (.other "") := by
  rw [typeInside]
  split <;> simp [*]

theorem typeAt_eq (r : Role) :
    typeAt source r t = ((t.part? r).map (typeOf source)).getD (.other "") := by
  rw [typeAt]
  split <;> simp [*]

theorem argumentsAt_eq : argumentsAt source t =
    ((t.part? .typeArguments).map fun list => (solidNodes list).map (typeOf source)).getD [] := by
  rw [argumentsAt]
  split <;> simp [*]

theorem paramsAt_eq :
    paramsAt source t = ((t.part? .parameters).map (paramsIn source)).getD [] := by
  rw [paramsAt]
  split <;> simp [*]

theorem resultsAt_eq :
    resultsAt source t = ((t.part? .result).map (resultsIn source)).getD [] := by
  rw [resultsAt]
  split <;> simp [*]

theorem paramsIn_eq (list : ParseTree Kind) :
    paramsIn source list = list.nodes.flatMap (paramsOfDecl source) := by
  rw [paramsIn, flatMap_subtype (g := paramsOfDecl source) fun _ _ => rfl,
    unattach_attach]

end parts

/-! ## What is written for trees -/

section written

variable {source : Source} {n : Nat} {t : ParseTree Kind}

theorem text_channel (s value : String) :
    (if startsWith s "<-" then "<-chan " ++ value
      else if startsWith s "chan<-" || startsWith s "chan <-" then "chan<- " ++ value
      else "chan " ++ value) = (Direction.ofText s).text ++ value := by
  rw [Direction.ofText]
  split
  · rfl
  · split <;> rfl

section

variable
  (ih : ∀ u, u.depth < t.depth → typeTextFrom source n u = (typeOf source u).text)

include ih

theorem text_typeInside :
    (match (solidNodes t).head? with
      | some u => typeTextFrom source n u
      | none => "") = (typeInside source t).text := by
  rw [typeInside_eq]
  cases hu : (solidNodes t).head? with
  | none => rfl
  | some u => exact ih u (depth_lt_of_mem_solidNodes (mem_of_head? hu))

theorem text_typeAt (r : Role) :
    (match t.part? r with
      | some u => typeTextFrom source n u
      | none => "") = (typeAt source r t).text := by
  rw [typeAt_eq]
  cases hu : t.part? r with
  | none => rfl
  | some u => exact ih u (depth_lt_of_part? hu)

theorem texts_argumentsAt :
    (match t.part? .typeArguments with
      | some list => (solidNodes list).map (typeTextFrom source n)
      | none => []) = TypeExpr.texts (argumentsAt source t) := by
  rw [argumentsAt_eq, TypeExpr.texts_eq_map]
  cases hlist : t.part? .typeArguments with
  | none => rfl
  | some list =>
    simp only [Option.map_some, Option.getD_some, map_map]
    refine map_congr_left fun u hu => ih u ?_
    exact Nat.lt_trans (depth_lt_of_mem_solidNodes hu) (depth_lt_of_part? hlist)

/-- What is written for the parameters of a declaration. -/
theorem paramTexts_paramsOfDecl :
    (if t.isKind .param || t.isKind .variadicParam then
      let variadic := t.isKind .variadicParam
      let plain := match t.part? .type with
        | some u => typeTextFrom source n u
        | none => ""
      let type := if variadic then "..." ++ plain else plain
      match t.partsAs .name with
      | [] => [({ name := "", type, variadic } : Param)]
      | names => names.map fun name => { name := name.text source, type, variadic }
    else []).map Param.text = TypeExpr.paramTexts (paramsOfDecl source t) := by
  have htype : (if t.isKind .variadicParam then "..." ++ (typeAt source .type t).text
      else (typeAt source .type t).text) =
        (if t.isKind .variadicParam then TypeExpr.variadic (typeAt source .type t)
          else typeAt source .type t).text := by
    split <;> rfl
  rw [text_typeAt ih, paramsOfDecl, TypeExpr.paramTexts_eq_map]
  simp only [htype]
  split
  · cases t.partsAs .name with
    | nil => rfl
    | cons x xs =>
      simp only [map_map]
      rfl
  · rfl

/-- What is written for a type, if it is for the types, parameters and results in it. -/
theorem text_typeOf (ihParams : ∀ list, list.depth < t.depth →
      (paramsFrom source n list).map Param.text = TypeExpr.paramTexts (paramsIn source list))
    (ihResults : ∀ r, r.depth < t.depth →
      resultsFrom source n r = TypeExpr.paramTexts (resultsIn source r)) :
    typeTextFrom source (n + 1) t = (typeOf source t).text := by
  have hparams : (match t.part? .parameters with
      | some list => paramsText (paramsFrom source n list)
      | none => "") = joinStrings ", " (TypeExpr.paramTexts (paramsAt source t)) := by
    rw [paramsAt_eq]
    cases hlist : t.part? .parameters with
    | none => rfl
    | some list => exact congrArg (joinStrings ", ") (ihParams list (depth_lt_of_part? hlist))
  have hresults : (match t.part? .result with
      | some r => resultsText (resultsFrom source n r) (r.isKind .paramList)
      | none => "") = resultsText (TypeExpr.paramTexts (resultsAt source t))
        ((t.part? .result).any (ParseTree.isKind .paramList)) := by
    rw [resultsAt_eq]
    cases hr : t.part? .result with
    | none => rfl
    | some r => exact congrArg (resultsText · _) (ihResults r (depth_lt_of_part? hr))
  have hlength : (match t.part? .length with
      | some u => collapseString (u.text source)
      | none => "") =
        ((t.part? .length).map fun u => collapseString (u.text source)).getD "" := by
    cases t.part? .length <;> rfl
  have helems : t.nodes.map (typeTextFrom source n) =
      TypeExpr.texts (t.nodes.attach.map fun u => typeOf source u.1) := by
    rw [TypeExpr.texts_eq_map, map_map, map_subtype (g := fun u => (typeOf source u).text)
      fun _ _ => rfl, unattach_attach]
    exact map_congr_left fun u hu => ih u (depth_lt_of_mem_nodes hu)
  have hinside := text_typeInside ih
  have hat := text_typeAt ih
  rw [typeOf, typeTextFrom]
  cases hk : t.kind? with
  | none => rfl
  | some k =>
    cases k with
    | typeName | identifier | packageName => exact (TypeExpr.text_ofName _).symm
    | pointer => exact congrArg ("*" ++ ·) hinside
    | slice => exact congrArg ("[]" ++ ·) (hat .element)
    | array =>
      exact congr (congrArg (fun length element => "[" ++ length ++ "]" ++ element) hlength)
        (hat .element)
    | openArray => exact congrArg ("[...]" ++ ·) (hat .element)
    | map =>
      exact congr (congrArg (fun key value => "map[" ++ key ++ "]" ++ value) (hat .key))
        (hat .value)
    | qualified => exact (TypeExpr.text_ofNames _).symm
    | function =>
      exact congr (congrArg (fun params results => "func(" ++ params ++ ")" ++ results) hparams)
        hresults
    | channel =>
      exact (text_channel _ _).trans (congrArg ((Direction.ofText _).text ++ ·) (hat .value))
    | generic =>
      exact congr
        (congrArg (fun inner args => inner ++ "[" ++ joinStrings ", " args ++ "]") hinside)
        (texts_argumentsAt ih)
    | typeElem => exact congrArg (joinStrings " | ") helems
    | parenType => exact congrArg (fun inner => "(" ++ inner ++ ")") hinside
    | negated => exact congrArg ("~" ++ ·) hinside
    | _ => rfl

end

/-- Fuel for the depth is enough. -/
theorem text_of_fuel (source : Source) (n : Nat) :
    (∀ t, 2 * t.depth ≤ n → typeTextFrom source n t = (typeOf source t).text) ∧
    (∀ list, 2 * list.depth ≤ n →
      (paramsFrom source n list).map Param.text = TypeExpr.paramTexts (paramsIn source list)) ∧
    ∀ r, 2 * r.depth < n →
      resultsFrom source n r = TypeExpr.paramTexts (resultsIn source r) := by
  induction n with
  | zero =>
    have hpos := depth_pos
    refine ⟨fun t ht => ?_, fun list hlist => ?_, fun r hr => ?_⟩
    · exact absurd ht (by have := hpos t; omega)
    · exact absurd hlist (by have := hpos list; omega)
    · exact absurd hr (by omega)
  | succ n ih =>
    obtain ⟨ihType, ihParams, ihResults⟩ := ih
    refine ⟨fun t ht => ?_, fun list hlist => ?_, fun r hr => ?_⟩
    · exact text_typeOf (fun u hu => ihType u (by omega)) (fun u hu => ihParams u (by omega))
        fun u hu => ihResults u (by omega)
    · rw [paramsFrom, paramsIn_eq, TypeExpr.paramTexts_eq_map, map_flatMap, map_flatMap]
      refine flatMap_congr fun decl hdecl => ?_
      have hdepth := depth_lt_of_mem_nodes hdecl
      rw [← TypeExpr.paramTexts_eq_map]
      exact paramTexts_paramsOfDecl fun u hu => ihType u (by omega)
    · rw [resultsFrom, resultsIn]
      split
      · exact ihParams r (by omega)
      · rw [ihType r (by omega)]
        rfl

theorem resultsOf_eq (source : Source) (r : ParseTree Kind) :
    resultsOf source r = TypeExpr.paramTexts (resultsIn source r) :=
  (text_of_fuel source _).2.2 r (by rw [fuelOf]; omega)

end written

end CodeAtlas.Go
