import Mathlib.Order.Bounds.Basic
import CodeAtlas.Proofs.Python.Listing

/-!
# The accessors of properties

The functions of a class are on its lines of code that have the indentation of the class and
declare a function (`heads_functionsIn`). By its decorators, a function is an accessor of a
property or not (`accessor?`). Those that are none are the methods. Accessors of one name are
merged into one property, however they are ordered and whatever stands between them: the
properties come in the order of their first accessors, and each of them tells of all of its
accessors (`Gathers`).

* `Gathers.concat`: a property with one more accessor;
* `Merged.concat`: the properties with one more accessor;
* `merged_foldl`: the properties of a class, by induction on its accessors;
* `accessors_merge_losslessly`: the members of a class.
-/

namespace CodeAtlas.Python

open Text List

/-! ## Functions and accessors -/

/-- The line is one of the class that declares a function. -/
def declaresMember (c : Declared) (l : LogicalLine) : Bool :=
  l.isCode && l.indent = indentIn c.block && (defHeader? l.code).isSome

/-- The functions of a class are on all lines that declare one. -/
theorem heads_functionsIn (s : Script) {c : Declared}
    (hc : ∀ l ∈ c.block, l ∈ logicalLines s.physical) :
    ((bodyOf s c).filter fun d => (defHeader? d.head.code).isSome).map (·.head) =
      c.block.filter (declaresMember c) := by
  have hp : ∀ l : LogicalLine, l.isMember (indentIn c.block) ((docOf? s c.block).map (·.1)) →
      l.isCode ∧ l.indent = indentIn c.block := by
    intro l hl
    simp only [LogicalLine.isMember, Bool.and_eq_true, decide_eq_true_eq] at hl
    exact hl.1
  have hfilter := congrArg (List.filter fun l => (defHeader? l.code).isSome)
    (map_head_statementsIn hp 0 [] c.block)
  rw [filter_map, filter_filter] at hfilter
  refine hfilter.trans (filter_congr fun l hl => ?_)
  -- What declares a function is neither a decorator nor documentation.
  cases hdef : defHeader? l.code with
  | none => simp [declaresMember, hdef]
  | some header =>
    simp [declaresMember, LogicalLine.isMember, hdef, kind_of_defHeader? (hc l hl) hdef,
      ne_doc_of_defHeader? hc hdef]

/-! ## One property -/

/-- The property has an accessor that does this. -/
def serves (p : Property) : Access → Bool
  | .get => p.hasGetter
  | .set => p.hasSetter
  | .delete => p.hasDeleter

/-- What a property tells of its accessors, in the order of their lines: it has the lines from the
    first to the last of them, serves what one of them does, and has the documentation of the last
    getter and the type of the last getter that has one. -/
structure Gathers (own : List Accessor) (p : Property) : Prop where
  first : IsLeast {n | ∃ a ∈ own, a.function.span.startLine = n} p.span.startLine
  last : IsGreatest {n | ∃ a ∈ own, a.function.span.endLine = n} p.span.endLine
  serves : ∀ access, serves p access = true ↔ ∃ a ∈ own, a.access = access
  doc : p.doc = ((own.filter (·.access = .get)).getLast?.map (·.function.doc)).getD ""
  type : p.type =
    ((own.filter (·.access = .get)).filterMap (·.function.returns.head?)).getLast?.getD ""

variable {s : Script} {own as : List Accessor} {a : Accessor} {p : Property} {ps : List Property}

theorem Accessor.name_addTo : (a.addTo s p).name = p.name := by
  obtain ⟨property, access, function⟩ := a
  rw [addTo, Property.withAccessor.eq_def]
  cases access with
  | get => cases function.returns <;> rfl
  | set => rfl
  | delete => rfl

/-- An accessor is added, and none is taken away. -/
theorem Accessor.serves_addTo (access : Access) :
    serves (a.addTo s p) access ↔ a.access = access ∨ serves p access := by
  obtain ⟨property, own, function⟩ := a
  rw [addTo, Property.withAccessor.eq_def]
  cases own with
  | get => cases function.returns <;> cases access <;> simp [serves]
  | set => cases access <;> simp [serves]
  | delete => cases access <;> simp [serves]

/-- The lines of an accessor are added. Only a getter tells the documentation, and the type if it
    has one. -/
theorem Accessor.told_addTo :
    (a.addTo s p).span.startLine = min p.span.startLine a.function.span.startLine ∧
      (a.addTo s p).span.endLine = max p.span.endLine a.function.span.endLine ∧
      (a.addTo s p).doc = (if a.access = .get then a.function.doc else p.doc) ∧
      (a.addTo s p).type =
        ((if a.access = .get then a.function.returns.head? else none).getD p.type) := by
  obtain ⟨property, access, function⟩ := a
  rw [addTo, Property.withAccessor.eq_def]
  cases access with
  | get => cases function.returns <;> simp
  | set => exact ⟨rfl, rfl, rfl, rfl⟩
  | delete => exact ⟨rfl, rfl, rfl, rfl⟩

/-- A property with one more accessor. -/
theorem Gathers.concat (h : Gathers own p) : Gathers (own ++ [a]) (a.addTo s p) where
  first := by
    have hset : {n | ∃ b ∈ own ++ [a], b.function.span.startLine = n} =
        {n | ∃ b ∈ own, b.function.span.startLine = n} ∪ {a.function.span.startLine} := by
      ext n
      simp [or_comm, eq_comm]
    rw [hset, Accessor.told_addTo.1]
    exact h.first.union isLeast_singleton
  last := by
    have hset : {n | ∃ b ∈ own ++ [a], b.function.span.endLine = n} =
        {n | ∃ b ∈ own, b.function.span.endLine = n} ∪ {a.function.span.endLine} := by
      ext n
      simp [or_comm, eq_comm]
    rw [hset, Accessor.told_addTo.2.1]
    exact h.last.union isGreatest_singleton
  serves access := by
    rw [Accessor.serves_addTo, h.serves]
    simp [or_comm]
  doc := by
    rw [Accessor.told_addTo.2.2.1, h.doc]
    by_cases hget : a.access = .get <;> simp [hget]
  type := by
    rw [Accessor.told_addTo.2.2.2, h.type]
    by_cases hget : a.access = .get
    · cases hreturns : a.function.returns.head? <;> simp [hget, hreturns]
    · simp [hget]

/-- A property of one accessor. -/
theorem gathers_fresh (a : Accessor) : Gathers [a] (a.fresh s) where
  first := by simp [Accessor.fresh, Accessor.told_addTo]
  last := by simp [Accessor.fresh, Accessor.told_addTo]
  serves access := by
    rw [Accessor.fresh, Accessor.serves_addTo]
    cases access <;> simp [serves]
  doc := by
    rw [Accessor.fresh, Accessor.told_addTo.2.2.1]
    by_cases hget : a.access = .get <;> simp [hget]
  type := by
    rw [Accessor.fresh, Accessor.told_addTo.2.2.2]
    by_cases hget : a.access = .get
    · cases hreturns : a.function.returns.head? <;> simp [hget, hreturns]
    · simp [hget]

/-! ## All properties -/

/-- Each name of accessors has one property, in the order of the first accessors, and this tells of
    all accessors of its name. -/
structure Merged (as : List Accessor) (ps : List Property) : Prop where
  names : ps.map (·.name) = (as.map (·.property)).eraseDups
  distinct : (ps.map (·.name)).Nodup
  gathers : ∀ p ∈ ps, Gathers (as.filter (·.property = p.name)) p

/-- An accessor of a new name makes a property behind the others. -/
theorem merge_of_not_mem (h : a.property ∉ ps.map (·.name)) : merge s ps a = ps ++ [a.fresh s] := by
  induction ps with
  | nil => rfl
  | cons p ps ih =>
    rw [map_cons, mem_cons, not_or] at h
    rw [merge, mergeAccessor, if_neg (by simpa using Ne.symm h.1)]
    exact congrArg (p :: ·) (ih h.2)

/-- Any other accessor changes the property of its name only. -/
theorem merge_of_mem (hdistinct : (ps.map (·.name)).Nodup) (h : a.property ∈ ps.map (·.name)) :
    merge s ps a = ps.map fun p => if p.name = a.property then a.addTo s p else p := by
  induction ps with
  | nil => cases h
  | cons p ps ih =>
    obtain ⟨hp, hdistinct⟩ := nodup_cons.1 hdistinct
    rw [merge, mergeAccessor, map_cons]
    by_cases hname : p.name = a.property
    · have hothers : ∀ q ∈ ps, (if q.name = a.property then a.addTo s q else q) = q := by
        intro q hq
        refine if_neg fun hsame => hp ?_
        exact mem_map.2 ⟨q, hq, hsame.trans hname.symm⟩
      rw [if_pos (by simpa using hname), if_pos hname, map_congr_left hothers, map_id']
      rfl
    · rw [if_neg (by simpa using hname), if_neg hname]
      exact congrArg (p :: ·) (ih hdistinct ((mem_cons.1 h).resolve_left (Ne.symm hname)))

theorem Merged.concat (h : Merged as ps) : Merged (as ++ [a]) (merge s ps a) := by
  by_cases hmem : a.property ∈ ps.map (·.name)
  · have hold : a.property ∈ as.map (·.property) := by rwa [h.names, mem_eraseDups] at hmem
    have hnames : (merge s ps a).map (·.name) = ps.map (·.name) := by
      rw [merge_of_mem h.distinct hmem, map_map]
      refine map_congr_left fun p _ => ?_
      rw [Function.comp_apply]
      split
      · exact Accessor.name_addTo
      · rfl
    refine ⟨?_, hnames ▸ h.distinct, fun p hp => ?_⟩
    · rw [hnames, h.names, map_append, map_singleton, eraseDups_concat, if_pos hold]
    · rw [merge_of_mem h.distinct hmem] at hp
      obtain ⟨q, hq, rfl⟩ := mem_map.1 hp
      split
      · next hname =>
        rw [Accessor.name_addTo, filter_append, filter_cons_of_pos (by simp [hname])]
        exact (h.gathers q hq).concat
      · next hname =>
        rw [filter_append, filter_cons_of_neg (by simpa using Ne.symm hname),
          filter_nil, append_nil]
        exact h.gathers q hq
  · have hnew : a.property ∉ as.map (·.property) := by rwa [h.names, mem_eraseDups] at hmem
    have hname : (a.fresh s).name = a.property := Accessor.name_addTo
    rw [merge_of_not_mem hmem]
    refine ⟨?_, ?_, forall_mem_append.2 ⟨fun p hp => ?_, forall_mem_singleton.2 ?_⟩⟩
    · rw [map_append, h.names, map_singleton, hname, map_append, map_singleton,
        eraseDups_concat, if_neg hnew]
    · rw [map_append, nodup_append]
      refine ⟨h.distinct, by simp, ?_⟩
      rintro _ hx _ hy rfl
      rw [map_singleton, hname, mem_singleton] at hy
      exact hmem (hy ▸ hx)
    · -- The new accessor belongs to no property that was there before.
      have hother : a.property ≠ p.name := fun hsame => hmem (hsame ▸ mem_map_of_mem hp)
      rw [filter_append, filter_cons_of_neg (by simpa using hother), filter_nil,
        append_nil]
      exact h.gathers p hp
    · have hnone : as.filter (·.property = a.property) = [] :=
        filter_eq_nil_iff.2 fun b hb hsame =>
          hnew (mem_map.2 ⟨b, hb, of_decide_eq_true hsame⟩)
      rw [hname, filter_append, hnone, filter_cons_of_pos (by simp)]
      exact gathers_fresh a

theorem merged_foldl (as : List Accessor) : Merged as (as.foldl (merge s) []) := by
  induction as using List.reverseRecOn with
  | nil => exact ⟨rfl, .nil, by simp⟩
  | append_singleton as a ih =>
    rw [foldl_append]
    exact ih.concat

/-! ## The members of a class -/

/-- The methods of a class are its functions that are no accessors, and its properties are those
    of the accessors. -/
theorem members_classOf (s : Script) (c : Declared) (header : ClassHeader) :
    (classOf s c header).methods =
        (functionsIn s (String.ofList header.name) c).filter (accessor? · |>.isNone) ∧
      Merged (accessorsIn s (String.ofList header.name) c) (classOf s c header).properties := by
  obtain ⟨-, hmethods, hproperties⟩ := classOf_eq s c header
  exact ⟨hmethods, hproperties ▸ merged_foldl _⟩

/-- The function is one of the methods, or an accessor of one of the properties if its
    decorators say so. -/
def Lists (methods : List Callable) (properties : List Property) (f : Callable) : Prop :=
  match accessOf? f.decorators with
  | none => f ∈ methods
  | some (access, name) => ∃ p ∈ properties, p.name = name.getD f.name ∧ serves p access = true

/-- A function of a class is listed in it. -/
theorem lists_classOf {c d : Declared} {header : ClassHeader} {f : Callable} (hd : d ∈ bodyOf s c)
    (hf : functionOf? s (String.ofList header.name) d = some f) :
    Lists (classOf s c header).methods (classOf s c header).properties f := by
  obtain ⟨hmethods, hmerged⟩ := members_classOf s c header
  have hmem : f ∈ functionsIn s (String.ofList header.name) c := mem_filterMap.2 ⟨d, hd, hf⟩
  rw [Lists]
  split
  · next haccess =>
    rw [hmethods]
    exact mem_filter.2 ⟨hmem, by simp [accessor?, haccess]⟩
  · next access name haccess =>
    have ha : ⟨name.getD f.name, access, f⟩ ∈ accessorsIn s (String.ofList header.name) c :=
      mem_filterMap.2 ⟨f, hmem, by simp [accessor?, haccess]⟩
    have hname := mem_map_of_mem (f := (·.property)) ha
    rw [← mem_eraseDups, ← hmerged.names] at hname
    obtain ⟨p, hp, hname⟩ := mem_map.1 hname
    have hown := mem_filter (p := fun a => a.property = p.name) |>.2
      ⟨ha, decide_eq_true hname.symm⟩
    exact ⟨p, hp, hname, ((hmerged.gathers p hp).serves access).2 ⟨_, hown, rfl⟩⟩

/-- The functions of a class are those on its lines that declare one. Each of them is a method, or
    an accessor that is merged into the property of its name, and there are no other methods and
    properties. -/
theorem accessors_merge_losslessly (path : String) (text : List Char) (c : Declared)
    (hc : c ∈ statementsOf (lines text)) (header : ClassHeader)
    (hheader : classHeader? c.head.code = some header) :
    let s : Script := ⟨Path.slashed path, lines text⟩
    ∃ t ∈ (outline path text).types, t.name = String.ofList header.name ∧ t.span = c.span ∧
      ((bodyOf s c).filter fun d => (defHeader? d.head.code).isSome).map (·.head) =
        c.block.filter (declaresMember c) ∧
      (∀ d ∈ bodyOf s c, ∀ f ∈ functionOf? s t.name d,
        f.span.startLine = d.firstLine ∧ f.span.endLine = max d.lastLine d.firstLine) ∧
      t.methods = (functionsIn s t.name c).filter (accessor? · |>.isNone) ∧
      Merged (accessorsIn s t.name c) t.properties := by
  intro s
  have hblock : ∀ l ∈ c.block, l ∈ logicalLines (lines text) := mem_of_mem_block c hc
  obtain ⟨hmethods, hmerged⟩ := members_classOf s c header
  refine ⟨_, mem_types_outline hc hheader, rfl, rfl, heads_functionsIn s hblock, fun d _ f hf => ?_,
    hmethods, hmerged⟩
  obtain ⟨head, -, rfl⟩ := Option.map_eq_some_iff.1 hf
  exact ⟨rfl, rfl⟩

/-- A class with a setter before the getters of its property, and another property between. -/
def gauge : List Char :=
  ["class Gauge:\n",
   "    @level.setter\n", "    def level(self, v): ...\n",
   "    def read(self): ...\n",
   "    @property\n", "    def unit(self) -> str: ...\n",
   "    @property\n", "    def level(self) -> int: ...\n",
   "    @property\n", "    def level(self): ...\n"].flatMap String.toList

theorem accessors_merge_losslessly_gauge :
    ∃ c ∈ statementsOf (lines gauge), ∃ header, classHeader? c.head.code = some header ∧
      (accessorsIn ⟨"gauge.py", lines gauge⟩ (String.ofList header.name) c).map
        (fun a => (a.property, a.access)) =
          [("level", .set), ("unit", .get), ("level", .get), ("level", .get)] ∧
      ∃ t ∈ (outline "gauge.py" gauge).types, t.name = String.ofList header.name ∧
        Merged (accessorsIn ⟨"gauge.py", lines gauge⟩ t.name c) t.properties := by
  have hne : statementsOf (lines gauge) ≠ [] := by decide +kernel
  have hclass : (classHeader? ((statementsOf (lines gauge)).head hne).head.code).isSome = true := by
    decide +kernel +revert
  have hheader := (Option.some_get hclass).symm
  obtain ⟨t, ht, hname, -, -, -, -, hmerged⟩ :=
    accessors_merge_losslessly "gauge.py" gauge _ (head_mem hne) _ hheader
  refine ⟨_, head_mem hne, _, hheader, ?_, t, ht, hname, hmerged⟩
  clear * -
  decide +kernel +revert

end CodeAtlas.Python
