import CodeAtlas.Proofs.Origin
import Mathlib.Data.Nat.Find

/-!
# Models by inheritance

A class of a run has a *chain*: the class itself, the class that its base names, the one
that the base of that names, and so on, where of several classes of one name the first
counts (`chain`). Whether a class is a model is asked along the chain, with a bound on its
length and with the names that were met kept aside, so that no class is asked twice
(`chainReaches`). A name met again stands for a class met before, and behind it the chain
repeats what was asked already; so the names kept aside cut off nothing.

* `get?_ofOutlines`: of several classes of one name a run knows the first;
* `exists_of_chainReaches`, `chainReaches_of_chain`: what is found along the chain;
* `exists_chain_distinct`: what is found along a chain is found before a name repeats;
* `isModel_iff_exists_chain`: which classes are models.
-/

namespace CodeAtlas

open List

variable {i n : Nat} {seen : List String}

/-! ## Names -/

theorem Text.isSome_stripEnd?_iff {tail s : List Char} :
    (stripEnd? tail s).isSome ↔ tail <:+ s := by
  rw [stripEnd?, Option.isSome_map, isSome_strip?_iff, reverse_prefix]

/-- What stands behind the last `c` is the whole text or has a `c` in front. -/
theorem Text.eq_or_exists_of_afterLast (c : Char) (s : List Char) :
    s = afterLast c s ∨ ∃ pre, s = pre ++ c :: afterLast c s := by
  have hs : s = (s.reverse.dropWhile (· != c)).reverse ++ afterLast c s := by
    rw [afterLast, ← reverse_append, takeWhile_append_dropWhile, reverse_reverse]
  cases hrest : s.reverse.dropWhile (· != c) with
  | nil => exact .inl (by simpa [hrest] using hs)
  | cons d rest =>
    have hd : d = c := by
      have h := head?_dropWhile_not (· != c) s.reverse
      simpa [hrest] using h
    refine .inr ⟨rest.reverse, ?_⟩
    rw [hrest, reverse_cons, append_assoc, hd] at hs
    exact hs

namespace ClassGraph

/-- The name has the short name `short` behind its last backslash, if it has one. -/
def EndsIn (name short : String) : Prop :=
  name = short ∨ ∃ pre, name = pre ++ "\\" ++ short

theorem isModelBase_iff {name : String} :
    isModelBase name ↔ ∃ short ∈ modelBases, EndsIn name short := by
  have hplain : ∀ short ∈ modelBases, '\\' ∉ short.toList := by decide
  rw [isModelBase, contains_iff_mem]
  constructor
  · intro h
    refine ⟨_, h, ?_⟩
    rcases Text.eq_or_exists_of_afterLast '\\' name.toList with hn | ⟨pre, hn⟩
    · exact .inl (by rw [← hn, String.ofList_toList])
    · refine .inr ⟨String.ofList pre, String.toList_injective ?_⟩
      simpa using hn
  · rintro ⟨short, hshort, rfl | ⟨pre, rfl⟩⟩
    · rwa [Text.afterLast_of_not_mem (hplain _ hshort), String.ofList_toList]
    · have hlast : Text.afterLast '\\' (pre ++ "\\" ++ short).toList = short.toList := by
        simpa using Text.afterLast_append (hplain _ hshort) pre.toList
      rwa [hlast, String.ofList_toList]

/-- The namespace is `App\Models`, or it ends with `\Models`. -/
def IsHome (namespaceName : String) : Prop :=
  namespaceName = "App\\Models" ∨ "\\Models".toList <:+ namespaceName.toList

instance (namespaceName : String) : Decidable (IsHome namespaceName) :=
  inferInstanceAs (Decidable (_ ∨ _))

theorem isModelHome_iff {namespaceName : String} :
    isModelHome namespaceName ↔ IsHome namespaceName := by
  rw [isModelHome, Bool.or_eq_true, Text.isSome_stripEnd?_iff, beq_iff_eq, IsHome]

/-! ## The chain of a class -/

/-- The classes that some outlines declare, in order. -/
def declaredIn (outlines : List Outline) : List ClassEntry :=
  outlines.flatMap classesOf

/-- The class is the first of its name among those declared. -/
def IsFirst (es : List ClassEntry) (e : ClassEntry) : Prop :=
  ∃ before behind, es = before ++ e :: behind ∧
    ∀ d ∈ before, d.type.qualifiedName ≠ e.type.qualifiedName

/-- The full name of a base of a class. -/
def fullName (e : ClassEntry) (base : String) : String :=
  resolveClass (.reference base) e.imports e.type.namespaceName

/-- The class that the base of a class names. -/
def next? (es : List ClassEntry) (e : ClassEntry) : Option ClassEntry :=
  e.type.bases.head?.bind fun base => get? es (fullName e base)

/-- The chain of a class, by position. -/
def chain (es : List ClassEntry) (e : ClassEntry) : Nat → Option ClassEntry
  | 0 => some e
  | i + 1 => (next? es e).bind fun d => chain es d i

/-- The class has a base in the namespace of models. -/
def ExtendsModels (e : ClassEntry) : Prop :=
  ∃ base ∈ e.type.bases, modelNamespace.toList <+: (fullName e base).toList

instance (e : ClassEntry) : Decidable (ExtendsModels e) :=
  inferInstanceAs (Decidable (∃ base ∈ e.type.bases, _))

/-- The class has a base that is no class of the run and has the short name of a base
    class of models. -/
def ExtendsUnknown (es : List ClassEntry) (e : ClassEntry) : Prop :=
  ∃ base ∈ e.type.bases, (∀ d ∈ es, d.type.qualifiedName ≠ fullName e base) ∧
    ∃ short ∈ modelBases, EndsIn base short

/-- Some class stands on the chain twice. -/
def IsCyclic (es : List ClassEntry) (e : ClassEntry) : Prop :=
  ∃ i k d, i < k ∧ chain es e i = some d ∧ chain es e k = some d

variable {es es' : List ClassEntry} {e d : ClassEntry} {name : String} {P : ClassEntry → Prop}

theorem isFirst_iff : IsFirst es e ↔ get? es e.type.qualifiedName = some e := by
  rw [get?, find?_eq_some_iff_append, IsFirst]
  simp only [beq_self_eq_true, true_and, Bool.not_eq_true', beq_eq_false_iff_ne]

theorem get?_eq_none_iff : get? es name = none ↔ ∀ d ∈ es, d.type.qualifiedName ≠ name := by
  rw [get?, find?_eq_none]
  simp only [beq_iff_eq]

theorem name_of_get? (h : get? es name = some d) : d.type.qualifiedName = name := by
  simpa using find?_some h

theorem isFirst_of_get? (h : get? es name = some d) : IsFirst es d := by
  rw [isFirst_iff, name_of_get? h, h]

/-- Two first classes of one name are one. -/
theorem IsFirst.eq (he : IsFirst es e) (hd : IsFirst es d)
    (hname : e.type.qualifiedName = d.type.qualifiedName) : e = d := by
  rw [isFirst_iff] at he hd
  rw [hname, hd] at he
  exact (Option.some.inj he).symm

theorem get?_insert (g : ClassGraph) :
    get? (g.insert e) name = (get? g name).or (get? [e] name) := by
  cases h : get? g e.type.qualifiedName with
  | none => rw [insert, h]; exact List.find?_append
  | some d =>
    rw [insert, h]
    cases hname : get? g name with
    | some _ => rfl
    | none =>
      -- A class of the name of `e` is known, so `name` is another name.
      have hne : e.type.qualifiedName ≠ name := by
        rintro rfl
        rw [h] at hname
        cases hname
      simp [get?, hne]

theorem get?_foldl_insert (g : ClassGraph) :
    get? (es.foldl insert g) name = (get? g name).or (get? es name) := by
  induction es generalizing g with
  | nil => exact (Option.or_none).symm
  | cons e es ih =>
    have hcons : get? (e :: es) name = (get? [e] name).or (get? es name) := by
      rw [get?, ← singleton_append, List.find?_append]
      rfl
    rw [foldl_cons, ih, get?_insert, hcons, Option.or_assoc]

theorem get?_ofOutlines (outlines : List Outline) :
    get? (ofOutlines outlines) name = get? (declaredIn outlines) name := by
  rw [ofOutlines, get?_foldl_insert]
  rfl

/-- Behind a class the chain goes on as its own. -/
theorem chain_add (h : chain es e i = some d) (j : Nat) : chain es e (i + j) = chain es d j := by
  induction i generalizing e with
  | zero => rw [Nat.zero_add, Option.some.inj h]
  | succ i ih =>
    cases hnext : next? es e with
    | none => simp [chain, hnext] at h
    | some c =>
      rw [chain, hnext] at h
      rw [Nat.add_right_comm, chain, hnext]
      exact ih h

/-- What holds of a class and of all that are found by a name holds along the chain. -/
theorem forall_chain (hget : ∀ name c, get? es name = some c → P c) (he : P e)
    (h : chain es e i = some d) : P d := by
  induction i generalizing e with
  | zero => exact Option.some.inj h ▸ he
  | succ i ih =>
    obtain ⟨c, hnext, hc⟩ := Option.bind_eq_some_iff.1 h
    obtain ⟨base, -, hbase⟩ := Option.bind_eq_some_iff.1 hnext
    exact ih (hget _ c hbase) hc

/-- Every class of the chain of a first class is the first of its name. -/
theorem isFirst_of_chain (he : IsFirst es e) (h : chain es e i = some d) : IsFirst es d :=
  forall_chain (fun _ _ => isFirst_of_get?) he h

theorem mem_of_chain (he : e ∈ es) (h : chain es e i = some d) : d ∈ es :=
  forall_chain (fun _ _ => mem_of_find?_eq_some) he h

/-! ## What is found along the chain -/

/-- The class shows that those before it on a chain are models. -/
def Shows (es : List ClassEntry) (e : ClassEntry) : Prop :=
  ExtendsModels e ∨ ExtendsUnknown es e

theorem inModelNamespace_iff : inModelNamespace name ↔ modelNamespace.toList <+: name.toList :=
  Text.isSome_strip?_iff

theorem chainReaches_of_seen (h : e.type.qualifiedName ∈ seen) :
    chainReaches es n e seen = (false, seen) := by
  cases n with
  | zero => rfl
  | succ n => rw [chainReaches, if_pos (contains_iff_mem.2 h)]

theorem chainReaches_of_bases_nil (h : e.type.bases = []) :
    (chainReaches es n e seen).1 = false := by
  cases n with
  | zero => rfl
  | succ n => rw [chainReaches, h]; split <;> rfl

/-- What is found from a class with one base that was not asked before. -/
theorem chainReaches_succ {base : String} (hbases : e.type.bases = [base])
    (h : e.type.qualifiedName ∉ seen) :
    (chainReaches es (n + 1) e seen).1 ↔
      Shows es e ∨ ∃ d, next? es e = some d ∧
        (chainReaches es n d (e.type.qualifiedName :: seen)).1 := by
  have hshows : Shows es e ↔ inModelNamespace (fullName e base) ∨
      get? es (fullName e base) = none ∧ isModelBase base := by
    simp only [Shows, ExtendsModels, ExtendsUnknown, hbases, mem_singleton,
      exists_eq_left, inModelNamespace_iff, get?_eq_none_iff, isModelBase_iff]
  have hnext : next? es e = get? es (fullName e base) := by rw [next?, hbases]; rfl
  have hseen : ¬ seen.contains e.type.qualifiedName := by rwa [contains_iff_mem]
  rw [chainReaches, if_neg hseen, hbases, hshows, hnext, fullName]
  cases hin : inModelNamespace (resolveClass (.reference base) e.imports e.type.namespaceName) with
  | true => simp [hin]
  | false =>
    cases hget : get? es (resolveClass (.reference base) e.imports e.type.namespaceName) <;>
      simp [hin, hget]

theorem bases_cases (h : e.type.bases.length ≤ 1) :
    e.type.bases = [] ∨ ∃ base, e.type.bases = [base] := by
  rcases hb : e.type.bases with _ | ⟨base, rest⟩
  · exact .inl rfl
  · rw [hb, length_cons] at h
    rw [length_eq_zero_iff.1 (show rest.length = 0 by omega)]
    exact .inr ⟨base, rfl⟩

section

variable (hbases : ∀ d ∈ es, d.type.bases.length ≤ 1)
include hbases

/-- What is found, some class of the chain shows. -/
theorem exists_of_chainReaches (he : e ∈ es) (h : (chainReaches es n e seen).1) :
    ∃ i < n, ∃ d, chain es e i = some d ∧ Shows es d := by
  induction n generalizing e seen with
  | zero => cases h
  | succ n ih =>
    by_cases hseen : e.type.qualifiedName ∈ seen
    · rw [chainReaches_of_seen hseen] at h
      cases h
    · rcases bases_cases (hbases e he) with hnone | ⟨base, hbase⟩
      · rw [chainReaches_of_bases_nil hnone] at h
        cases h
      · rcases (chainReaches_succ hbase hseen).1 h with hshows | ⟨d, hnext, hd⟩
        · exact ⟨0, Nat.succ_pos n, e, rfl, hshows⟩
        · obtain ⟨i, hi, c, hc, hshows⟩ := ih (mem_of_chain he (i := 1) (by simp [chain, hnext])) hd
          exact ⟨i + 1, Nat.succ_lt_succ hi, c, by rw [chain, hnext]; exact hc, hshows⟩

/-- What a class of the chain shows is found, if no name before it repeats and none of
    them was met before. -/
theorem chainReaches_of_chain (he : e ∈ es) (hi : i < n) (hd : chain es e i = some d)
    (hshows : Shows es d)
    (hseen : ∀ j ≤ i, ∀ c, chain es e j = some c → c.type.qualifiedName ∉ seen)
    (hdistinct : ∀ j k, j < k → k ≤ i → ∀ b c, chain es e j = some b → chain es e k = some c →
      b.type.qualifiedName ≠ c.type.qualifiedName) : (chainReaches es n e seen).1 := by
  induction n generalizing e i seen with
  | zero => omega
  | succ n ih =>
    have hfirst := hseen 0 (Nat.zero_le i) e rfl
    rcases bases_cases (hbases e he) with hnone | ⟨base, hbase⟩
    · -- A class without a base shows nothing and ends the chain.
      cases i with
      | zero =>
        obtain rfl := Option.some.inj hd
        simp [Shows, ExtendsModels, ExtendsUnknown, hnone] at hshows
      | succ i => simp [chain, next?, hnone] at hd
    · rw [chainReaches_succ hbase hfirst]
      cases i with
      | zero => exact .inl (Option.some.inj hd ▸ hshows)
      | succ i =>
        obtain ⟨p, hnext, hp⟩ := Option.bind_eq_some_iff.1 hd
        have hstep : ∀ j, chain es e (j + 1) = chain es p j := fun j => by rw [chain, hnext]; rfl
        refine .inr ⟨p, hnext, ih (mem_of_chain he (i := 1) (hstep 0)) (by omega) hp ?_ ?_⟩
        · intro j hj c hc
          rw [← hstep] at hc
          rw [mem_cons, not_or]
          exact ⟨(hdistinct 0 (j + 1) (by omega) (by omega) e c rfl hc).symm,
            hseen (j + 1) (by omega) c hc⟩
        · intro j k hjk hk b c hb hc
          rw [← hstep] at hb hc
          exact hdistinct (j + 1) (k + 1) (by omega) (by omega) b c hb hc

end

/-- Whatever stands on the chain of a first class stands there before a name repeats. -/
theorem exists_chain_distinct (he : IsFirst es e) (h : ∃ i < n, ∃ d, chain es e i = some d ∧ P d) :
    ∃ i < n, ∃ d, chain es e i = some d ∧ P d ∧
      ∀ j k, j < k → k ≤ i → ∀ b c, chain es e j = some b → chain es e k = some c →
        b.type.qualifiedName ≠ c.type.qualifiedName := by
  classical
  -- The first place: were a name met twice before it, the chain would have shown the same earlier.
  let least := Nat.find h
  obtain ⟨hlt, d, hd, hP⟩ := Nat.find_spec h
  refine ⟨least, hlt, d, hd, hP, ?_⟩
  intro j k hjk hk b c hb hc hname
  have hbc : b = c := IsFirst.eq (isFirst_of_chain he hb) (isFirst_of_chain he hc) hname
  have hearlier : chain es e (j + (least - k)) = some d := by
    rw [chain_add hb, hbc, ← chain_add hc, Nat.add_sub_cancel' hk]
    exact hd
  exact Nat.find_min h (m := j + (least - k)) (show _ < least by omega)
    ⟨lt_trans (show _ < least by omega) hlt, d, hearlier, hP⟩

/-- A chain ends behind a class whose base names no class. -/
theorem chain_eq_none {m : Nat} (hd : chain es e i = some d) (hnext : next? es d = none)
    (h : i < m) : chain es e m = none := by
  obtain ⟨j, rfl⟩ := Nat.exists_eq_add_of_lt h
  rw [Nat.add_assoc, chain_add hd, chain, hnext]
  rfl

/-- On a cyclic chain every base names a class. -/
theorem next?_ne_none_of_isCyclic (h : IsCyclic es e) (hd : chain es e i = some d) :
    next? es d ≠ none := by
  obtain ⟨j, k, c, hjk, hj, hk⟩ := h
  obtain ⟨p, rfl⟩ := Nat.exists_eq_add_of_lt hjk
  have hround : chain es c (p + 1) = some c := by rw [← hk, Nat.add_assoc, chain_add hj]
  have hrounds : ∀ r, chain es c ((p + 1) * r) = some c := by
    intro r
    induction r with
    | zero => rfl
    | succ r ih => rw [Nat.mul_succ, chain_add ih, hround]
  intro hnext
  have hlate := hrounds (i + 1)
  have hlt : i + 1 ≤ (p + 1) * (i + 1) := Nat.le_mul_of_pos_left _ (Nat.succ_pos p)
  rw [← chain_add hj, chain_eq_none hd hnext (by omega)] at hlate
  cases hlate

/-! ## Which classes are models -/

theorem chainReaches_congr (h : ∀ name, get? es name = get? es' name) :
    chainReaches es = chainReaches es' := by
  funext n
  induction n with
  | zero => rfl
  | succ n ih =>
    funext e seen
    simp only [chainReaches, h, ih]

/-- Which classes are models depends on what classes the names stand for. -/
theorem isModel_congr (h : ∀ name, get? es name = get? es' name) :
    isModel es e = isModel es' e := by
  rw [isModel, isModel, chainReaches_congr h]

theorem get?_eq_some_iff (hnames : (es.map (·.type.qualifiedName)).Nodup) :
    get? es name = some d ↔ d ∈ es ∧ d.type.qualifiedName = name := by
  constructor
  · exact fun h => ⟨mem_of_find?_eq_some h, name_of_get? h⟩
  · rintro ⟨hd, rfl⟩
    rw [← isFirst_iff]
    obtain ⟨before, behind, rfl⟩ := append_of_mem hd
    refine ⟨before, behind, rfl, fun c hc hname => ?_⟩
    rw [map_append, nodup_append] at hnames
    exact hnames.2.2 _ (mem_map_of_mem hc) _ (mem_map_of_mem mem_cons_self) hname

/-- If all names differ, it does not matter in which order the classes are declared. -/
theorem get?_perm (hnames : (es.map (·.type.qualifiedName)).Nodup) (h : es.Perm es') :
    get? es name = get? es' name := by
  refine Option.ext fun d => ?_
  rw [get?_eq_some_iff hnames, get?_eq_some_iff ((h.map _).nodup_iff.1 hnames), h.mem_iff]

/-- A class whose base names a class of the run extends nothing unknown. -/
theorem not_extendsUnknown (hbases : e.type.bases.length ≤ 1) (hnext : next? es e ≠ none) :
    ¬ ExtendsUnknown es e := by
  rintro ⟨base, hbase, hunknown, -⟩
  rcases bases_cases hbases with hnone | ⟨base', hone⟩
  · simp [hnone] at hbase
  · obtain rfl : base = base' := by simpa [hone] using hbase
    apply hnext
    rw [next?, hone]
    exact get?_eq_none_iff.2 hunknown

theorem isModel_iff (hbases : ∀ d ∈ es, d.type.bases.length ≤ 1) (he : IsFirst es e) :
    isModel es e ↔ IsHome e.type.namespaceName ∨
      ∃ i < maxChain, ∃ d, chain es e i = some d ∧ Shows es d := by
  have hmem : e ∈ es := mem_of_find?_eq_some (isFirst_iff.1 he)
  rw [isModel, Bool.or_eq_true, isModelHome_iff]
  refine or_congr_right ⟨exists_of_chainReaches hbases hmem, fun h => ?_⟩
  obtain ⟨i, hi, d, hd, hshows, hdistinct⟩ := exists_chain_distinct he h
  refine chainReaches_of_chain hbases hmem hi hd hshows ?_ hdistinct
  exact fun _ _ _ _ => not_mem_nil

/-- Where no class has more than one base, the first class of its name is a model if and
    only if its namespace says so or one of the first sixteen classes of its chain has a base
    in the namespace of models, or a base that is no class of the run and has the short name
    of a base class of models. A cyclic chain without a base in the namespace of models makes
    no model. Where all names differ, the order of the outlines does not matter. -/
theorem isModel_iff_exists_chain (outlines : List Outline) :
    ((∀ d ∈ declaredIn outlines, d.type.bases.length ≤ 1) →
      ∀ e, IsFirst (declaredIn outlines) e →
        ((ofOutlines outlines).isModel e = true ↔
          IsHome e.type.namespaceName ∨ ∃ i < 16, ∃ d, chain (declaredIn outlines) e i = some d ∧
              (ExtendsModels d ∨ ExtendsUnknown (declaredIn outlines) d)) ∧
        (¬ IsHome e.type.namespaceName → IsCyclic (declaredIn outlines) e →
          (∀ i < 16, ∀ d, chain (declaredIn outlines) e i = some d → ¬ ExtendsModels d) →
          (ofOutlines outlines).isModel e = false)) ∧
    (((declaredIn outlines).map (·.type.qualifiedName)).Nodup →
      ∀ outlines', outlines.Perm outlines' → ∀ e,
        (ofOutlines outlines').isModel e = (ofOutlines outlines).isModel e) := by
  have hof : ∀ outlines e, (ofOutlines outlines).isModel e = isModel (declaredIn outlines) e :=
    fun outlines e => isModel_congr fun _ => get?_ofOutlines outlines
  refine ⟨fun hbases e he => ⟨?_, fun hhome hcyclic hnone => ?_⟩,
    fun hnames outlines' hperm e => ?_⟩
  · rw [hof]
    exact isModel_iff hbases he
  · rw [hof, ← Bool.not_eq_true, isModel_iff hbases he]
    rintro (h | ⟨i, hi, d, hd, hmodels | hunknown⟩)
    · exact hhome h
    · exact hnone i hi d hd hmodels
    · have hmem := mem_of_chain (mem_of_find?_eq_some (isFirst_iff.1 he)) hd
      exact not_extendsUnknown (hbases d hmem) (next?_ne_none_of_isCyclic hcyclic hd) hunknown
  · rw [hof, hof]
    exact isModel_congr fun _ => (get?_perm hnames (hperm.flatMap_right _)).symm

/-- A class with one base. -/
def heirOf (base namespaceName name : String) : TypeDef where
  name := name
  kind := .class
  filePath := "m.php"
  span := {}
  signature := ""
  code := ""
  namespaceName := namespaceName
  bases := [base]

/-- A file that declares some classes. -/
def fileOf (imports : Imports) (types : List TypeDef) : Outline where
  language := .php
  path := "m.php"
  imports := imports
  types := types

/-- A model behind a base class in another file, and two classes that extend each other. -/
def shop : List Outline :=
  [fileOf [⟨"Base", "Lib\\Base"⟩] [heirOf "Base" "App" "User"],
    fileOf [⟨"Model", "Illuminate\\Database\\Eloquent\\Model"⟩] [heirOf "Model" "Lib" "Base"],
    fileOf [] [heirOf "B" "Loop" "A", heirOf "A" "Loop" "B"]]

/-- The class that leads to the base class of models is a model, those of the cycle are
    none, and the same holds if the files come the other way round. -/
theorem isModel_shop :
    (∀ d ∈ declaredIn shop, d.type.bases.length ≤ 1) ∧
    ((declaredIn shop).map (·.type.qualifiedName)).Nodup ∧
    ∃ user a, IsFirst (declaredIn shop) user ∧ IsFirst (declaredIn shop) a ∧
      user.type.qualifiedName = "App\\User" ∧ a.type.qualifiedName = "Loop\\A" ∧
      IsCyclic (declaredIn shop) a ∧
      (ofOutlines shop).isModel user = true ∧ (ofOutlines shop).isModel a = false ∧
      (ofOutlines shop.reverse).isModel user = true := by
  have hbases : ∀ d ∈ declaredIn shop, d.type.bases.length ≤ 1 := by decide
  have hnames : ((declaredIn shop).map (·.type.qualifiedName)).Nodup := by decide
  obtain ⟨hchain, horder⟩ := isModel_iff_exists_chain shop
  let user : ClassEntry := ⟨[⟨"Base", "Lib\\Base"⟩], heirOf "Base" "App" "User"⟩
  let a : ClassEntry := ⟨[], heirOf "B" "Loop" "A"⟩
  have huser : IsFirst (declaredIn shop) user := isFirst_iff.2 rfl
  have ha : IsFirst (declaredIn shop) a := isFirst_iff.2 rfl
  have hcyclic : IsCyclic (declaredIn shop) a := ⟨0, 2, a, by decide, rfl, rfl⟩
  have hyes : (ofOutlines shop).isModel user = true :=
    (hchain hbases user huser).1.2
      (.inr ⟨1, by decide, _, rfl, .inl ⟨"Model", by decide, by decide⟩⟩)
  refine ⟨hbases, hnames, user, a, huser, ha, by decide, by decide, hcyclic, hyes, ?_, ?_⟩
  · have hnone : ∀ i < 16, ∀ d ∈ chain (declaredIn shop) a i, ¬ ExtendsModels d := by decide
    exact (hchain hbases a ha).2 (by decide) hcyclic hnone
  · rw [horder hnames _ shop.reverse_perm.symm, hyes]

/-- Two classes of the namespace of models that extend each other. -/
def modelLoop : List Outline :=
  [fileOf [] [heirOf "B" "Illuminate\\Database\\Eloquent" "A",
    heirOf "A" "Illuminate\\Database\\Eloquent" "B"]]

/-- A cyclic chain makes models, without a namespace that says so, if a base of it is in the
    namespace of models. -/
theorem isModel_modelLoop :
    ∃ e, IsFirst (declaredIn modelLoop) e ∧ ¬ IsHome e.type.namespaceName ∧
      IsCyclic (declaredIn modelLoop) e ∧ (ofOutlines modelLoop).isModel e = true := by
  let e : ClassEntry := ⟨[], heirOf "B" "Illuminate\\Database\\Eloquent" "A"⟩
  exact ⟨e, isFirst_iff.2 rfl, by decide, ⟨0, 2, e, by decide, rfl, rfl⟩, by decide⟩

end ClassGraph

end CodeAtlas
