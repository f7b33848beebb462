import Mathlib.Data.List.Perm.Basic
import CodeAtlas.Proofs.Python.Placement

/-!
# The layout of Python modules

The symbols at the top of a module are made of its statements, one of each at most, and
statements follow each other. So the symbols have no line in common, whatever tables they are
listed in, and stand in order within each table. The same holds of the methods of a class.
Methods and properties are made of lines of its block, so that they stand within the class.

* `sublist_spans`: lines of what statements declare;
* `topSpans_perm`: lines of all symbols at the top of a module;
* `spans_nest`: all symbols of a module.
-/

namespace CodeAtlas

open List

namespace Span

/-- The span has the line. -/
def Has (s : Span) (line : Nat) : Prop :=
  s.startLine ≤ line ∧ line ≤ s.endLine

/-- The one ends before the other starts. -/
def Before (s t : Span) : Prop :=
  s.endLine < t.startLine

/-- No line is in both. -/
def Apart (s t : Span) : Prop :=
  ∀ line, s.Has line → ¬ t.Has line

theorem Before.apart {s t : Span} (h : s.Before t) : s.Apart t := by
  rintro line ⟨_, hstop⟩ ⟨hstart, _⟩
  exact Nat.lt_irrefl line (Nat.lt_of_le_of_lt hstop (Nat.lt_of_lt_of_le h hstart))

theorem Apart.symm {s t : Span} (h : s.Apart t) : t.Apart s :=
  fun line ht hs => h line hs ht

end Span

/-- The lines of the symbols at the top of a unit. -/
def Outline.topSpans (o : Outline) : List Span :=
  o.functions.map (·.span) ++ o.types.map (·.span) ++ o.constants.map (·.span) ++
    o.vars.map (·.span)

namespace Python

/-! ## Statements -/

theorem pairwise_spans (p : LogicalLine → Bool) {ls : List LogicalLine} (h : Pending [] ls) :
    ((statementsIn p 0 [] ls).map Declared.span).Pairwise Span.Before := by
  rw [pairwise_map]
  refine (pairwise_statementsIn h).imp_of_mem fun {d e} hd _ hlt => ?_
  rw [Span.Before, (sound_of_mem_statementsIn h d hd).endLine]
  exact hlt

/-- Statements declare one symbol each, at most, and it has their lines. -/
theorem sublist_spans {α : Type} {f : Declared → Option α} {span : α → Span} {ds : List Declared}
    (h : ∀ d ∈ ds, ∀ x ∈ f d, span x = d.span) :
    ((ds.filterMap f).map span).Sublist (ds.map Declared.span) := by
  induction ds with
  | nil => exact .slnil
  | cons d ds ih =>
    obtain ⟨hd, hds⟩ := forall_mem_cons.1 h
    cases hf : f d with
    | none =>
      rw [filterMap_cons_none hf]
      exact (ih hds).cons _
    | some x =>
      rw [filterMap_cons_some hf, map_cons, hd x hf]
      exact (ih hds).cons_cons _

/-! ## Classes -/

variable {s : Script}

/-- The layout of a class: its methods stand one behind the other, and all members are inside. -/
structure Laid (t : TypeDef) : Prop where
  ordered : (t.methods.map (·.span)).Pairwise Span.Before
  methods : ∀ f ∈ t.methods, t.span.Inside f.span
  properties : ∀ p ∈ t.properties, t.span.Inside p.span

theorem laid_classOf {d : Declared} (hd : d.Sound) (header : ClassHeader) :
    Laid (classOf s d header) := by
  have hsits := @sits_classOf d s d.span hd (Nat.le_refl _) (Nat.le_max_left ..) header
  refine ⟨?_, fun f hf => (hsits.methods f hf).inside, fun p hp => (hsits.properties p hp).inside⟩
  rw [(classOf_eq s d header).2.1]
  refine (pairwise_spans _ hd.pending).sublist ((filter_sublist.map _).trans
    (sublist_spans fun e _ f hf => ?_))
  obtain ⟨head, -, rfl⟩ := Option.map_eq_some_iff.1 hf
  rfl

/-! ## Modules -/

namespace Declared

variable {d : Declared} {x : Span}

theorem span_function (hx : x ∈ (d.function? s).map (·.span)) : x = d.span := by
  obtain ⟨f, hf, rfl⟩ := Option.map_eq_some_iff.1 hx
  rw [function?] at hf
  split at hf
  · cases hf
  · obtain ⟨header, -, rfl⟩ := Option.map_eq_some_iff.1 hf
    rfl

theorem span_class (hx : x ∈ (d.class? s).map (·.span)) : x = d.span := by
  obtain ⟨t, ht, rfl⟩ := Option.map_eq_some_iff.1 hx
  obtain ⟨header, -, rfl⟩ := Option.map_eq_some_iff.1 ht
  rfl

/-- The lines of the symbol that a statement of a module declares. -/
def topSpan? (s : Script) (d : Declared) : Option Span :=
  (((d.function? s).map (·.span)).or ((d.class? s).map (·.span))).or ((d.value? s).map (·.span))

theorem Sound.topSpan? (hd : d.Sound) (hx : x ∈ d.topSpan? s) : x = d.span := by
  rw [Option.mem_def, Declared.topSpan?, Option.or_eq_some_iff, Option.or_eq_some_iff] at hx
  rcases hx with (hx | ⟨_, hx⟩) | ⟨_, hx⟩
  · exact span_function hx
  · exact span_class hx
  · obtain ⟨b, hb, rfl⟩ := Option.map_eq_some_iff.1 hx
    exact (hd.span_value hb).2.1

end Declared

/-- A statement declares one symbol at most, whatever table it is listed in. -/
theorem topSpans_perm (path : String) (text : List Char) :
    (outline path text).topSpans.Perm ((statementsOf (Text.lines text)).filterMap
      (·.topSpan? ⟨Path.slashed path, Text.lines text⟩)) := by
  obtain ⟨_, _, _, _, h, -⟩ := outline_eq path text
  have hvalues := (filter_append_perm isConstant ((statementsOf (Text.lines text)).filterMap
    (·.value? ⟨Path.slashed path, Text.lines text⟩))).map (·.span)
  rw [h, Outline.topSpans, append_assoc, ← map_append]
  refine (hvalues.append_left _).trans ?_
  rw [map_filterMap, map_filterMap, map_filterMap]
  refine ((filterMap_append_perm fun d _ => ?_).append_right _).trans
    (filterMap_append_perm fun d _ => ?_)
  · cases hclass : classHeader? d.head.code <;> simp [Declared.function?, Declared.class?, hclass]
  · cases hopens : d.head.opensBlock with
    | true => exact .inr (by simp [Declared.value?, hopens])
    | false =>
      rw [LogicalLine.opensBlock] at hopens
      simp_all [Declared.function?, Declared.class?]

/-- The symbols at the top of a module have no line in common; they are on its lines, in order
    within each table. The methods of a class stand in order, and its members within it. -/
theorem spans_nest (path : String) (text : List Char) :
    (outline path text).topSpans.Pairwise Span.Apart ∧
      (∀ s ∈ (outline path text).topSpans, s.Among (Text.lines text).length) ∧
      ((outline path text).functions.map (·.span)).Pairwise Span.Before ∧
      ((outline path text).types.map (·.span)).Pairwise Span.Before ∧
      ((outline path text).constants.map (·.span)).Pairwise Span.Before ∧
      ((outline path text).vars.map (·.span)).Pairwise Span.Before ∧
      ∀ t ∈ (outline path text).types, Laid t := by
  obtain ⟨_, _, _, _, houtline, -⟩ := outline_eq path text
  have hsound : ∀ d ∈ statementsOf (Text.lines text), d.Sound := fun d hd =>
    (of_mem_statementsOf hd).1
  have hordered : ((statementsOf (Text.lines text)).map Declared.span).Pairwise Span.Before :=
    pairwise_spans LogicalLine.isTop (pending_logicalLines (Text.lines text))
  have hperm := topSpans_perm path text
  have htop := @sublist_spans Span (·.topSpan? ⟨Path.slashed path, Text.lines text⟩) id _
    fun d hd _ hx => (hsound d hd).topSpan? hx
  rw [map_id] at htop
  have hvalues := @sublist_spans Binding (·.value? ⟨Path.slashed path, Text.lines text⟩) (·.span) _
    fun d hd b hb => ((hsound d hd).span_value hb).2.1
  refine ⟨?_, fun x hx => ?_, ?_⟩
  · -- The order of tables does not matter, as no line in common works both ways.
    exact ((hordered.sublist htop).imp Span.Before.apart).perm hperm.symm Span.Apart.symm
  · obtain ⟨d, hd, rfl⟩ := mem_map.1 (htop.subset (hperm.mem_iff.1 hx))
    obtain ⟨hd, hfirst, hlast⟩ := of_mem_statementsOf hd
    rw [Span.Among, hd.endLine]
    exact ⟨hfirst, hd.firstLine_le, hlast⟩
  · rw [houtline]
    refine ⟨hordered.sublist (sublist_spans fun d _ f hf => ?_),
      hordered.sublist (sublist_spans fun d _ t ht => ?_),
      hordered.sublist ((filter_sublist.map _).trans hvalues),
      hordered.sublist ((filter_sublist.map _).trans hvalues), fun t ht => ?_⟩
    · exact Declared.span_function (Option.mem_map_of_mem _ hf)
    · exact Declared.span_class (Option.mem_map_of_mem _ ht)
    · obtain ⟨d, hd, ht⟩ := mem_filterMap.1 ht
      obtain ⟨header, -, rfl⟩ := Option.map_eq_some_iff.1 ht
      exact laid_classOf (hsound d hd) header

/-- A class with a decorator, between two values. The accessors of its property stand around a
    method. -/
def shelf : List Char :=
  ["LIMIT = 3", "@tag", "class Shelf:", "    @property", "    def size(self):", "        return 1",
    "", "    def put(self): pass", "    @size.setter", "    def size(self, n):", "        pass",
    "# end", "", "size = 0"].flatMap fun line => line.toList ++ ['\n']

/-- The property reaches over the method, but not out of the class. -/
theorem spans_nest_shelf :
    (outline "shelf.py" shelf).topSpans = [⟨2, 11, 3, 3⟩, ⟨1, 1, 1, 1⟩, ⟨14, 14, 14, 14⟩] ∧
      (outline "shelf.py" shelf).topSpans.Pairwise Span.Apart ∧
      Span.Among 14 ⟨2, 11, 3, 3⟩ ∧
      ∃ t ∈ (outline "shelf.py" shelf).types, t.span = ⟨2, 11, 3, 3⟩ ∧
        t.methods.map (·.span) = [⟨8, 8, 8, 8⟩] ∧ t.properties.map (·.span) = [⟨4, 11, 5, 5⟩] ∧
        (t.methods.map (·.span)).Pairwise Span.Before ∧
        (∀ f ∈ t.methods, t.span.Inside f.span) ∧ ∀ p ∈ t.properties, t.span.Inside p.span := by
  have htop : (outline "shelf.py" shelf).topSpans =
      [⟨2, 11, 3, 3⟩, ⟨1, 1, 1, 1⟩, ⟨14, 14, 14, 14⟩] := by decide +kernel
  have hlines : (Text.lines shelf).length = 14 := by decide +kernel
  have hclass : (outline "shelf.py" shelf).types.map (fun t =>
      (t.span, t.methods.map (·.span), t.properties.map (·.span))) =
        [(⟨2, 11, 3, 3⟩, [⟨8, 8, 8, 8⟩], [⟨4, 11, 5, 5⟩])] := by decide +kernel
  obtain ⟨t, ht, heq⟩ := mem_map.1 (hclass ▸ mem_singleton_self _)
  obtain ⟨hspan, hmethods, hproperties⟩ := Prod.mk.inj heq |>.imp_right Prod.mk.inj
  obtain ⟨hapart, hamong, _, _, _, _, hlaid⟩ := spans_nest "shelf.py" shelf
  refine ⟨htop, hapart, hlines ▸ hamong _ (by simp [htop]), t, ht, hspan, hmethods, hproperties,
    (hlaid t ht).ordered, (hlaid t ht).methods, (hlaid t ht).properties⟩

end Python

end CodeAtlas
