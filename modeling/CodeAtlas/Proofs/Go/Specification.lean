import CodeAtlas.Proofs.Go.Naming
import CodeAtlas.Proofs.Grammar.Solid
import Mathlib.Data.List.Basic

/-!
# How Go specifications are written

A specification of constants or variables is written as names with commas between them, then a
type or none, then an equals sign with values or none; comments may stand between any two of
these (`Written`). In the tree of a file that is parsed, every specification is written so, and
its parts have roles (`Parted`): names that of a name, the type that of a type, the list of
values that of a value. In a specification of variables the commas have no role. In one of
constants they have the role of names.

* `laidOut_const`, `laidOut_var`: specifications are read with such parts;
* `Parted.partsAs_name`, `Parted.part?_type`, `Parted.valuesOf_eq`: what is found by roles;
* `Written.unique`: what a specification is written with can be told from its tree;
* `laidOut_of_mem_valueSpecs`: the specifications of a file.
-/

namespace CodeAtlas.Go

open Grammar List
open ParseTree (isKind isKind_withRole isNode nodes part? partsAs role_withRole withRole)

variable {t : ParseTree Kind} {a : G} {k : Kind} {r : Role} {s : String} {isConst : Bool}

variable {source : Source}

/-! ## Lists with commas -/

/-- What a grammar of Go reads, comments apart. -/
abbrev GMakes (source : Source) (g : G) (P : List (ParseTree Kind) → Prop) : Prop :=
  Makes dialect isComment (IsLexeme source) g P

/-- A grammar of Go reads one tree, comments apart. -/
abbrev GMakesOne (source : Source) (g : G) (Q : ParseTree Kind → Prop) : Prop :=
  MakesOne dialect isComment (IsLexeme source) g Q

/-- The trees are items with the property `Q`, and between any two of them there is a tree
    with the property `P`. -/
def Interleaved (P Q : ParseTree Kind → Prop) (ts items : List (ParseTree Kind)) : Prop :=
  ∃ (first : ParseTree Kind) (more : List (ParseTree Kind × ParseTree Kind)),
    Q first ∧ (∀ p ∈ more, P p.1 ∧ Q p.2) ∧
    ts = first :: more.flatMap (fun p => [p.1, p.2]) ∧ items = first :: more.map Prod.snd

theorem makes_sepBy {sep : G} {P Q : ParseTree Kind → Prop} (hsep : GMakesOne source sep P)
    (ha : GMakesOne source a Q) :
    GMakes source (sepBy sep a) fun ts => ∃ items, Interleaved P Q ts items := by
  -- What the repetition reads: pairs of a separator and an item.
  let InPairs (ts : List (ParseTree Kind)) : Prop :=
    ∃ more : List (ParseTree Kind × ParseTree Kind), (∀ p ∈ more, P p.1 ∧ Q p.2) ∧
      ts = more.flatMap fun p => [p.1, p.2]
  have hpair : GMakes source (.seq sep a) InPairs := by
    refine makes_seq hsep.makes ha.makes ?_
    rintro _ _ ⟨s, rfl, hs⟩ ⟨t, rfl, ht⟩
    exact ⟨[(s, t)], by simpa using ⟨hs, ht⟩, rfl⟩
  have hpairs : GMakes source (.many (.seq sep a)) InPairs := by
    refine makes_many hpair ⟨[], by simp, rfl⟩ ?_
    rintro _ _ ⟨more, hmore, rfl⟩ ⟨more', hmore', rfl⟩
    exact ⟨more ++ more', forall_mem_append.2 ⟨hmore, hmore'⟩, flatMap_append.symm⟩
  refine makes_seq ha.makes hpairs ?_
  rintro _ _ ⟨t, rfl, ht⟩ ⟨more, hmore, rfl⟩
  exact ⟨t :: more.map Prod.snd, t, more, ht, hmore, rfl, rfl⟩

namespace Interleaved

variable {P P' Q Q' : ParseTree Kind → Prop} {ts items : List (ParseTree Kind)}

theorem imp (h : Interleaved P Q ts items) (hP : ∀ t, P t → P' t) (hQ : ∀ t, Q t → Q' t) :
    Interleaved P' Q' ts items := by
  obtain ⟨first, more, hfirst, hmore, hts, hitems⟩ := h
  exact ⟨first, more, hQ _ hfirst, fun p hp => ⟨hP _ (hmore p hp).1, hQ _ (hmore p hp).2⟩,
    hts, hitems⟩

theorem forall_mem (h : Interleaved P Q ts items) : ∀ t ∈ ts, P t ∨ Q t := by
  obtain ⟨first, more, hfirst, hmore, rfl, -⟩ := h
  rw [forall_mem_cons]
  refine ⟨.inr hfirst, fun t ht => ?_⟩
  obtain ⟨p, hp, ht⟩ := mem_flatMap.1 ht
  simp only [mem_cons, not_mem_nil, or_false] at ht
  rcases ht with rfl | rfl
  · exact .inl (hmore p hp).1
  · exact .inr (hmore p hp).2

/-- The items are told apart from what stands between them. -/
theorem filter {q : ParseTree Kind → Bool} (h : Interleaved P Q ts items)
    (hP : ∀ t, P t → q t = false) (hQ : ∀ t, Q t → q t) : ts.filter q = items := by
  obtain ⟨first, more, hfirst, hmore, rfl, rfl⟩ := h
  rw [filter_cons_of_pos (hQ _ hfirst), filter_flatMap, map_eq_flatMap]
  refine congrArg (first :: ·) (flatMap_congr fun p hp => ?_)
  rw [filter_cons_of_neg (by simp [hP _ (hmore p hp).1]),
    filter_cons_of_pos (hQ _ (hmore p hp).2)]
  rfl

theorem map (h : Interleaved P Q ts items) (F : ParseTree Kind → ParseTree Kind)
    (hP : ∀ t, P t → P' (F t)) (hQ : ∀ t, Q t → Q' (F t)) :
    Interleaved P' Q' (ts.map F) (items.map F) := by
  obtain ⟨first, more, hfirst, hmore, rfl, rfl⟩ := h
  refine ⟨F first, more.map (Prod.map F F), hQ _ hfirst, ?_, ?_, ?_⟩
  · rw [forall_mem_map]
    exact fun p hp => ⟨hP _ (hmore p hp).1, hQ _ (hmore p hp).2⟩
  · rw [map_cons, map_flatMap, flatMap_map]
    rfl
  · rw [map_cons, map_map, map_map]
    rfl

end Interleaved

/-- A comma. -/
def IsComma (t : ParseTree Kind) : Prop :=
  t.isSign "," = true

/-- A sign of that text. -/
theorem makesOne_sign :
    GMakesOne source (sign s) fun t =>
      t.isSign s ∧ t.role = none ∧ t.text source = s := by
  refine one_sign (lexed source) fun l hl _ haccepts => ?_
  simp only [Terminal.accepts, Bool.and_eq_true] at haccepts
  exact ⟨haccepts.2, rfl, (text_of_mem hl).trans (eq_of_beq haccepts.2).symm⟩

theorem isNode_of_isKind (h : t.isKind k) : t.isNode := by
  cases t with
  | sign => cases h
  | node => rfl

theorem isNode_of_isSign (h : t.isSign s) : t.isNode = false := by
  cases t with
  | sign => rfl
  | node => cases h

/-! ## Expressions and types -/

/-- An expression is read as one node. -/
theorem makesOne_expr : GMakesOne source (.rule (.expr .line)) (·.isNode) := by
  refine Reads.imp (one_of_tests (lexed source) (n := 4) (m := 4) (p := fun _ => true) rfl rfl) ?_
  rintro _ ⟨asides, t, hts, hasides, haside, hnode, -⟩
  exact ⟨asides, t, hts, hasides, haside, hnode⟩

/-- The kinds of the nodes that types are read as. -/
def typeNodeKinds : List Kind :=
  [.typeName, .qualified, .pointer, .slice, .array, .map, .interface, .struct, .function,
   .channel, .generic, .parenType, .negated]

/-! ## How specifications are written -/

/-- A name that is declared. -/
def IsName (source : Source) (t : ParseTree Kind) : Prop :=
  t.isKind .identifier = true ∧ IsWord source t

/-- What stands behind names and type: nothing, or an equals sign and the values with
    commas between them. -/
def Valued (back values : List (ParseTree Kind)) : Prop :=
  back = [] ∧ values = [] ∨
    ∃ eq list, back = [eq, list] ∧ eq.isSign "=" = true ∧ list.isKind .exprList = true ∧
      Interleaved IsComma (·.isNode = true) (solid isComment list.parts) values

/-- The specification is written as names, with commas between them, a type or none, and
    values; comments are left out. -/
def Written (source : Source) (spec : ParseTree Kind) (names : List (ParseTree Kind))
    (type? : Option (ParseTree Kind)) (values : List (ParseTree Kind)) : Prop :=
  ∃ front back, solid isComment spec.parts = front ++ type?.toList ++ back ∧
    Interleaved IsComma (IsName source) front names ∧
    (∀ u ∈ type?, typeNodeKinds.any u.isKind = true) ∧ Valued back values

/-- The values that a specification is found to have. -/
def valuesOf (spec : ParseTree Kind) : List (ParseTree Kind) :=
  match spec.part? .value with
  | some list => solidNodes list
  | none => []

theorem isSign_withRole (s : String) (r : Role) (t : ParseTree Kind) :
    (t.withRole r).isSign s = t.isSign s := by
  rcases t with ⟨_, _ | _, _⟩ | ⟨_, _ | _, _, _⟩ <;> rfl

theorem text_withRole (r : Role) (t : ParseTree Kind) :
    (t.withRole r).text source = t.text source := by
  rw [ParseTree.text, ParseTree.text, ParseTree.extent_withRole]

/-- A type is read as one node of a type. -/
theorem makesOne_typeOf : GMakesOne source (.role .type (.rule (.type .line))) fun u =>
    typeNodeKinds.any u.isKind ∧ u.role = some .type := by
  refine Reads.imp (one_of_tests (lexed source) (n := 4) (m := 4) (p := fun s =>
    s.kind?.any typeNodeKinds.contains && s.role == some .type) rfl rfl) ?_
  rintro _ ⟨asides, u, hts, hasides, haside, -, s, hs, hlooks⟩
  obtain ⟨hkind, hrole⟩ := Bool.and_eq_true_iff.1 hs
  obtain ⟨k, hk, hmem⟩ := (Option.any_eq_true _ _).1 hkind
  refine ⟨asides, u, hts, hasides, haside, ?_, hlooks.role.trans (eq_of_beq hrole)⟩
  exact any_eq_true.2 ⟨k, contains_iff_mem.1 hmem,
    ParseTree.isKind_iff.2 (hlooks.kind?.trans hk)⟩

/-- A name with a role, or without. -/
theorem makesOne_name {g : G} {role : Option Role}
    (hone : oneNodeBy (· == .comment) (knowsOne dialect (· == .comment) 0) g)
    (honly : onlyBy (knows dialect 0) (fun s => s.kind? == some .identifier && s.role == role &&
      s.sort? == some .word) g) :
    GMakesOne source g fun t => IsName source t ∧ t.role = role := by
  refine Reads.imp (one_of_tests (lexed source) hone honly) ?_
  rintro _ ⟨asides, t, hts, hasides, haside, -, s, hs, hlooks⟩
  simp only [Bool.and_eq_true, beq_iff_eq] at hs
  obtain ⟨l, hl, hform, hextent⟩ := hlooks.lexeme .word hs.2
  refine ⟨asides, t, hts, hasides, haside, ⟨?_, ?_⟩, hlooks.role.trans hs.1.2⟩
  · exact ParseTree.isKind_iff.2 (hlooks.kind?.trans hs.1.1)
  · rw [IsWord, ParseTree.text, hextent]
    exact all_eq_true.1 (Bool.and_eq_true_iff.1 (isWord_of_word hl hform)).2

theorem isName_withRole (h : IsName source t) : IsName source (t.withRole r) := by
  rw [IsName, isKind_withRole, IsWord, text_withRole]
  exact h

/-- What stands behind the names, with roles: a type or none, and values. -/
def Tail (us : List (ParseTree Kind)) (type? : Option (ParseTree Kind))
    (values : List (ParseTree Kind)) : Prop :=
  ∃ back, us = type?.toList ++ back ∧
    (∀ u ∈ type?, typeNodeKinds.any u.isKind = true ∧ u.role = some .type) ∧
    Valued back values ∧ ∀ t ∈ back, t.role = if t.isNode then some .value else none

theorem tail_nil : Tail [] none [] :=
  ⟨[], rfl, by simp, .inl ⟨rfl, rfl⟩, by simp⟩

/-- An equals sign and the values. -/
theorem makes_values : GMakes source (.seq (sign "=") (.role .value (.rule (.exprList .line))))
    fun us => ∃ values, Tail us none values := by
  have hcomma : GMakesOne source (goingOn .line (sign ",")) _ := reads_notAhead makesOne_sign
  have hlist : GMakesOne source (.rule (.exprList .line)) fun t =>
      t.isKind .exprList ∧ t.role = none ∧
        ∃ values, Interleaved IsComma (·.isNode) (solid isComment t.parts) values := by
    refine reads_rule (makes_node (lexed source) rfl (makes_sepBy hcomma makesOne_expr) ?_)
    rintro e parts ⟨values, h⟩
    exact ⟨rfl, rfl, values, h.imp (fun t ht => ht.1) fun t ht => ht⟩
  refine makes_seq makesOne_sign.makes (makes_role (lexed source) hlist.makes) ?_
  rintro _ _ ⟨eq, rfl, heq, hrole, -⟩ ⟨_, ⟨t, rfl, hkind, hnone, values, hvalues⟩, rfl⟩
  refine ⟨values, _, rfl, by simp, .inr ⟨eq, t.withRole .value, rfl, heq, ?_, ?_⟩, ?_⟩
  · rw [isKind_withRole, hkind]
  · rwa [ParseTree.parts_withRole]
  · have hnode : (t.withRole .value).isNode :=
      isNode_of_isKind ((isKind_withRole ..).trans hkind)
    simp [isNode_of_isSign heq, hnode, hrole, role_withRole hnone]

theorem tail_cons {u : ParseTree Kind} {us values : List (ParseTree Kind)}
    (hkind : typeNodeKinds.any u.isKind) (hrole : u.role = some .type)
    (h : Tail us none values) : Tail (u :: us) (some u) values := by
  obtain ⟨back, hus, -, hvalued, hroles⟩ := h
  refine ⟨back, congrArg (u :: ·) hus, ?_, hvalued, hroles⟩
  rintro _ ⟨⟩
  exact ⟨hkind, hrole⟩

/-- The parts of a specification with their roles. Among constants the commas between the
    names have the role of names, too. -/
structure Parted (source : Source) (isConst : Bool) (parts front names : List (ParseTree Kind))
    (type? : Option (ParseTree Kind)) (back values : List (ParseTree Kind)) : Prop where
  roleless : AsidesRoleless isComment parts
  solid_eq : solid isComment parts = front ++ (type?.toList ++ back)
  front : Interleaved
    (fun t => IsComma t ∧ t.text source = "," ∧ t.role = if isConst then some .name else none)
    (fun t => IsName source t ∧ t.role = some .name) front names
  type : ∀ u ∈ type?, typeNodeKinds.any u.isKind = true ∧ u.role = some .type
  valued : Valued back values
  back : ∀ t ∈ back, t.role = if t.isNode then some .value else none

namespace Parted

variable {isConst : Bool} {spec : ParseTree Kind} {front names back values : List (ParseTree Kind)}
  {type? : Option (ParseTree Kind)}

/-- The nodes of a list that are no comments are its values. -/
theorem solidNodes_eq {list : ParseTree Kind}
    (h : Interleaved IsComma (·.isNode) (solid isComment list.parts) values) :
    solidNodes list = values := by
  have hnodes : solidNodes list = (solid isComment list.parts).filter isNode := by
    rw [solidNodes, nodes, solid, filter_filter, filter_filter]
    exact filter_congr fun t _ => Bool.and_comm _ _
  rw [hnodes]
  exact h.filter (fun t ht => isNode_of_isSign ht) fun t ht => ht

variable (h : Parted source isConst spec.parts front names type? back values)

include h

theorem role_front (ht : t ∈ front) (hr : r ≠ .name) : (t.role == some r) = false := by
  rcases h.front.forall_mem t ht with ⟨_, _, h⟩ | ⟨_, h⟩
  · rw [h]
    cases isConst <;> simp [hr.symm]
  · simp [h, hr.symm]

theorem role_back (ht : t ∈ back) (hr : r ≠ .value) : (t.role == some r) = false := by
  rw [h.back t ht]
  split <;> simp [hr.symm]

theorem written : Written source spec names type? values := by
  refine ⟨front, back, ?_, h.front.imp (fun _ ht => ht.1) fun _ ht => ht.1,
    fun u hu => (h.type u hu).1, h.valued⟩
  rw [append_assoc]
  exact h.solid_eq

theorem partsAs_name : spec.partsAs .name = if isConst then front else names := by
  have htail : (type?.toList ++ back).filter (·.role == some .name) = [] := by
    rw [filter_eq_nil_iff, forall_mem_append]
    refine ⟨fun t ht => ?_, fun t ht => by simp [h.role_back ht (r := .name) (by decide)]⟩
    simp [(h.type t (Option.mem_toList.1 ht)).2]
  rw [partsAs, filter_role_solid h.roleless, h.solid_eq,
    filter_append, htail, append_nil]
  cases isConst with
  | true =>
    rw [if_pos rfl, filter_eq_self]
    intro t ht
    rcases h.front.forall_mem t ht with ⟨_, _, h⟩ | ⟨_, h⟩ <;> simp [h]
  | false => exact h.front.filter (fun t ht => by simp [ht.2.2]) fun t ht => by simp [ht.2]

/-- Behind the names, the part with another role is found in the rest. -/
theorem part?_eq (hr : r ≠ .name) : spec.part? r =
      (type?.toList ++ back).find? (·.role == some r) := by
  rw [part?, find?_role_solid h.roleless, h.solid_eq,
    List.find?_append, find?_eq_none.2 fun t ht => by simp [h.role_front ht hr],
    Option.none_or]

theorem part?_type : spec.part? .type = type? := by
  rw [h.part?_eq (by decide)]
  cases type? with
  | none =>
    exact find?_eq_none.2 fun t ht => by simp [h.role_back ht (r := .type) (by decide)]
  | some u => exact find?_cons_of_pos (by simp [(h.type u rfl).2])

theorem valuesOf_eq : valuesOf spec = values := by
  have hback : (type?.toList ++ back).find? (·.role == some .value) =
      back.find? (·.role == some .value) := by
    rw [List.find?_append, find?_eq_none.2, Option.none_or]
    intro t ht
    simp [(h.type t (Option.mem_toList.1 ht)).2]
  rw [valuesOf, h.part?_eq (by decide), hback]
  rcases h.valued with ⟨rfl, rfl⟩ | ⟨eq, list, rfl, heq, hkind, hvalues⟩
  · rfl
  · have heqRole : eq.role = none := by
      rw [h.back eq (by simp), isNode_of_isSign heq]
      rfl
    have hlistRole : list.role = some .value := by
      rw [h.back list (by simp), isNode_of_isKind hkind]
      rfl
    have hfind : [eq, list].find? (·.role == some .value) = some list := by
      simp [heqRole, hlistRole]
    rw [hfind]
    exact solidNodes_eq hvalues

end Parted

theorem isKind_of_isSign (h : t.isSign s) : t.isKind k = false := by
  cases t with
  | sign => rfl
  | node => cases h

theorem isKind_of_ne {a b : Kind} (h : t.isKind a) (hne : a ≠ b) : t.isKind b = false := by
  rw [Bool.eq_false_iff, ne_eq, ParseTree.isKind_iff, ParseTree.isKind_iff.1 h]
  exact fun heq => hne (Option.some.inj heq)

theorem isKind_of_type (h : typeNodeKinds.any t.isKind) (hk : k ∉ typeNodeKinds) :
    t.isKind k = false := by
  obtain ⟨k', hk', hkind⟩ := any_eq_true.1 h
  exact isKind_of_ne hkind fun heq => hk (heq ▸ hk')

theorem isType_of_other (h : t.isKind k) (hk : k ∉ typeNodeKinds) :
    typeNodeKinds.any t.isKind = false := by
  rw [Bool.eq_false_iff]
  exact fun htype => Bool.false_ne_true ((isKind_of_type htype hk).symm.trans h)

namespace Written

variable {spec : ParseTree Kind} {names values : List (ParseTree Kind)}
  {type? : Option (ParseTree Kind)} (h : Written source spec names type? values)

include h

/-- The names of a specification are the identifiers among its parts. -/
theorem names_eq : (solid isComment spec.parts).filter (isKind .identifier) = names := by
  obtain ⟨front, back, hsolid, hfront, htype, hvalued⟩ := h
  have htypes : type?.toList.filter (isKind .identifier) = [] :=
    filter_eq_nil_iff.2 fun t ht => by
      simp [isKind_of_type (htype t (Option.mem_toList.1 ht)) (k := .identifier) (by decide)]
  have hback : back.filter (isKind .identifier) = [] := by
    rcases hvalued with ⟨rfl, -⟩ | ⟨eq, list, rfl, heq, hlist, -⟩
    · rfl
    · simp [isKind_of_isSign heq, isKind_of_ne hlist (b := .identifier) (by decide)]
  rw [hsolid, filter_append, filter_append, htypes, hback, append_nil,
    append_nil]
  exact hfront.filter (fun t ht => isKind_of_isSign ht) fun t ht => ht.1

/-- The type of a specification is the first type among its parts. -/
theorem type_eq :
    (solid isComment spec.parts).find? (fun t => typeNodeKinds.any t.isKind) = type? := by
  obtain ⟨front, back, hsolid, hfront, htype, hvalued⟩ := h
  have hnone : front.find? (fun t => typeNodeKinds.any t.isKind) = none := by
    refine find?_eq_none.2 fun t ht => ?_
    rcases hfront.forall_mem t ht with hcomma | hname
    · simp [isKind_of_isSign hcomma]
    · simp [isType_of_other hname.1 (by decide)]
  have hback : back.find? (fun t => typeNodeKinds.any t.isKind) = none := by
    rcases hvalued with ⟨rfl, -⟩ | ⟨eq, list, rfl, heq, hlist, -⟩
    · rfl
    · simp [isKind_of_isSign heq, isType_of_other hlist (by decide)]
  rw [hsolid, append_assoc, List.find?_append, hnone, Option.none_or, List.find?_append, hback,
    Option.or_none]
  cases type? with
  | none => rfl
  | some u => exact find?_cons_of_pos (htype u rfl)

/-- The values of a specification are those of the list of expressions among its parts. -/
theorem values_eq :
    ((solid isComment spec.parts).find? (isKind .exprList)).elim [] solidNodes =
      values := by
  obtain ⟨front, back, hsolid, hfront, htype, hvalued⟩ := h
  have hnone : (front ++ type?.toList).find? (isKind .exprList) = none := by
    rw [find?_eq_none, forall_mem_append]
    constructor
    · intro t ht
      rcases hfront.forall_mem t ht with hcomma | hname
      · simp [isKind_of_isSign hcomma]
      · simp [isKind_of_ne hname.1 (b := .exprList) (by decide)]
    · intro t ht
      simp [isKind_of_type (htype t (Option.mem_toList.1 ht)) (k := .exprList) (by decide)]
  rw [hsolid, List.find?_append, hnone]
  rcases hvalued with ⟨rfl, rfl⟩ | ⟨eq, list, rfl, heq, hlist, hvalues⟩
  · rfl
  · have hfind : [eq, list].find? (isKind .exprList) = some list := by
      simp [isKind_of_isSign heq, hlist]
    rw [hfind]
    exact Parted.solidNodes_eq hvalues

theorem unique {names' values' : List (ParseTree Kind)} {type?' : Option (ParseTree Kind)}
    (h' : Written source spec names' type?' values') :
    names = names' ∧ type? = type?' ∧ values = values' :=
  ⟨h.names_eq.symm.trans h'.names_eq, h.type_eq.symm.trans h'.type_eq,
    h.values_eq.symm.trans h'.values_eq⟩

theorem names_ne_nil : names ≠ [] := by
  obtain ⟨-, -, -, ⟨first, more, -, -, -, rfl⟩, -⟩ := h
  exact cons_ne_nil _ _

end Written

/-! ## The specifications of a file -/

/-- The parts are those of a specification of constants (or variables). -/
def LaidOut (source : Source) (isConst : Bool) (parts : List (ParseTree Kind)) : Prop :=
  ∃ front names type? back values, Parted source isConst parts front names type? back values

theorem laidOut_of_makes {b : G}
    (ha : GMakes source a fun us => ∃ names, Interleaved
      (fun t => IsComma t ∧ t.text source = "," ∧ t.role = if isConst then some .name else none)
      (fun t => IsName source t ∧ t.role = some .name) us names)
    (hb : GMakes source b fun us => ∃ type? values, Tail us type? values) :
    Reads dialect isComment (IsLexeme source) (.seq a b) fun us =>
      LaidOut source isConst (us.dropWhile isComment) := by
  intro input us rest hK h
  have hmakes : GMakes source (.seq a b) fun us => ∃ front names type? back values,
      us = front ++ (type?.toList ++ back) ∧ ∀ parts, AsidesRoleless isComment parts →
        solid isComment parts = us →
          Parted source isConst parts front names type? back values := by
    refine makes_seq ha hb ?_
    rintro front _ ⟨names, hnames⟩ ⟨type?, values, back, rfl, htype, hvalued, hback⟩
    exact ⟨front, names, type?, back, values, rfl, fun parts hroleless hsolid =>
      ⟨hroleless, hsolid, hnames, htype, hvalued, hback⟩⟩
  obtain ⟨front, names, type?, back, values, -, hparted⟩ := hmakes _ _ _ hK h
  refine ⟨front, names, type?, back, values, hparted _ (fun t ht => ?_) (solid_dropWhile us)⟩
  exact h.kept (kept_roleless (lexed source)) hK t ((dropWhile_sublist _).subset ht)

/-- The names of constants are given their role together with the commas. -/
theorem laidOut_const (ha : .node .constSpec a = constSpec) :
    Reads dialect isComment (IsLexeme source) a fun us =>
      LaidOut source true (us.dropWhile isComment) := by
  cases ha
  have hname : GMakesOne source (ident []) fun t => IsName source t ∧ t.role = none :=
    makesOne_name rfl rfl
  have htype : GMakes source (opt (.role .type (.rule (.type .line)))) fun us =>
      us = [] ∨ ∃ u, us = [u] ∧ typeNodeKinds.any u.isKind ∧ u.role = some .type :=
    makes_opt (makesOne_typeOf.makes.imp fun us h => .inr h) (.inl rfl)
  have htail : GMakes source (.seq (opt (.role .type (.rule (.type .line))))
      (.seq (sign "=") (.role .value (.rule (.exprList .line))))) fun us =>
        ∃ type? values, Tail us type? values := by
    refine makes_seq htype makes_values ?_
    rintro us vs (rfl | ⟨u, rfl, hkind, hrole⟩) ⟨values, h⟩
    · exact ⟨none, values, h⟩
    · exact ⟨some u, values, tail_cons hkind hrole h⟩
  refine laidOut_of_makes ((makes_role (lexed source) (makes_sepBy makesOne_sign hname)).imp ?_)
    (makes_opt (reads_notAhead htail) ⟨none, [], tail_nil⟩)
  rintro _ ⟨us, ⟨names, hnames⟩, rfl⟩
  refine ⟨_, hnames.map (withRole .name) (fun t ht => ?_) fun t ht => ?_⟩
  · exact ⟨(isSign_withRole ..).trans ht.1, (text_withRole ..).trans ht.2.2,
      role_withRole ht.2.1⟩
  · exact ⟨isName_withRole ht.1, role_withRole ht.2⟩

theorem laidOut_var (ha : .node .varSpec a = varSpec) :
    Reads dialect isComment (IsLexeme source) a fun us =>
      LaidOut source false (us.dropWhile isComment) := by
  cases ha
  have hname : GMakesOne source (.role .name (ident [])) fun t =>
      IsName source t ∧ t.role = some .name := makesOne_name rfl rfl
  have hvalues : GMakes source (.seq (sign "=") (.role .value (.rule (.exprList .line))))
      fun us => ∃ type? values, Tail us type? values :=
    makes_values.imp fun us ⟨values, h⟩ => ⟨none, values, h⟩
  have hmaybe : GMakes source (opt (sameLine
      (.seq (sign "=") (.role .value (.rule (.exprList .line)))))) fun us =>
        ∃ values, Tail us none values := by
    refine makes_opt ?_ ⟨[], tail_nil⟩
    exact reads_notAhead (@makes_values source)
  have htail : GMakes source (.seq (.role .type (.rule (.type .line))) (opt (sameLine
      (.seq (sign "=") (.role .value (.rule (.exprList .line))))))) fun us =>
        ∃ type? values, Tail us type? values := by
    refine makes_seq makesOne_typeOf.makes hmaybe ?_
    rintro _ us ⟨u, rfl, hkind, hrole⟩ ⟨values, h⟩
    exact ⟨some u, values, tail_cons hkind hrole h⟩
  refine laidOut_of_makes ((makes_sepBy makesOne_sign hname).imp ?_)
    (reads_alt hvalues htail)
  rintro us ⟨names, hnames⟩
  exact ⟨names, hnames.imp (fun t ht => ⟨ht.1, ht.2.2, ht.2.1⟩) fun t ht => ht⟩

/-- Constants and variables are specified in declarations only. -/
theorem eq_spec_of_mem_nodesIn {r : Rule} {x : Kind × G} (hx : x ∈ nodesIn (rules r))
    (hkind : listingKinds.contains x.1) :
    .node x.1 x.2 = constSpec ∨ .node x.1 x.2 = varSpec := by
  have hmem : x ∈ (nodesIn (rules r)).filter (listingKinds.contains ·.1) :=
    mem_filter.2 ⟨hx, hkind⟩
  cases r with
  | declaration =>
    have hspecs : ∀ y ∈ (nodesIn declaration).filter (listingKinds.contains ·.1),
        .node y.1 y.2 = constSpec ∨ .node y.1 y.2 = varSpec := by
      change ∀ y ∈ [_, _, _, _], _
      simp only [forall_mem_cons]
      exact ⟨.inl rfl, .inl rfl, .inr rfl, .inr rfl, fun _ h => absurd h not_mem_nil⟩
    exact hspecs x hmem
  | simple c | type c | bareType c | namedType c | typeElem c | expr c | unary c | postfixed c
  | primary c | exprList c => obtain ⟨_ | _, _ | _⟩ := c <;> cases hmem
  | _ => cases hmem

/-- The specifications of constants (or variables) at the top of a file. -/
def valueSpecs (isConst : Bool) (file : ParseTree Kind) : List (ParseTree Kind) :=
  (file.nodes.filter (isKind (if isConst then .constDecl else .varDecl))).flatMap
    fun decl => (specs [valueKind isConst] decl).map Sited.tree

/-- The specifications of a file that is parsed are laid out. -/
theorem laidOut_of_mem_valueSpecs {file spec : ParseTree Kind} (hfile : parse? source = some file)
    (hspec : spec ∈ valueSpecs isConst file) : LaidOut source isConst spec.parts := by
  have hall : ∀ t, Holds file t → PartsAre listingKinds.contains
      (fun k parts => LaidOut source (k == .constSpec) parts) t := by
    refine fun t => parts_of_parse? (lexed source) (fun k hk => by rw [eq_of_beq hk]; rfl)
      (fun r => ⟨?_, ?_⟩) (fun _ hl => hl) (by rfl) hfile
    · exact @of_allRules (fun r => apart dialect listingKinds.contains (rules r)) rfl r
    · intro x hx hkind
      rcases eq_spec_of_mem_nodesIn hx hkind with h | h
      · obtain ⟨k, a⟩ := x
        cases h
        exact laidOut_const rfl
      · obtain ⟨k, a⟩ := x
        cases h
        exact laidOut_var rfl
  obtain ⟨decl, hdecl, hspec⟩ := mem_flatMap.1 hspec
  obtain ⟨s, hs, rfl⟩ := mem_map.1 hspec
  obtain ⟨hholds, hkind⟩ := holds_of_mem_specs hs
  have hpart := (mem_filter.1 (mem_filter.1 hdecl).1).1
  rw [any_cons, any_nil, Bool.or_false] at hkind
  cases isConst with
  | true => exact hall _ (.head hpart hholds) .constSpec (ParseTree.isKind_iff.1 hkind) rfl
  | false => exact hall _ (.head hpart hholds) .varSpec (ParseTree.isKind_iff.1 hkind) rfl

end CodeAtlas.Go
