import CodeAtlas.Proofs.Json.Ordered

/-!
# Literals as JSON, as lists and as maps

What is folded from a literal is all or nothing. A literal has a value as JSON if it is made of
strings and references to classes, with strings for keys (`Valued`). A list or a map of strings is
folded into its strings, and they are its value as JSON as well; of several entries with one key
the last counts. What is told of a model is the same map.

* `isSome_toJson?_iff`: which literals have a value, by induction on them;
* `strings_eq_iff`, `stringPairs_eq_iff`: which literals are folded, and into what;
* `lookup_maps_of`: the maps of a model;
* `literal_folds_agree`: all of it.
-/

namespace CodeAtlas

open List

namespace Json

variable {α β : Type} {key : String}

theorem lookup_sortKeys (members : List (String × α)) :
    (sortKeys members).lookup key = members.reverse.lookup key := by
  have hfold : ∀ sorted : List (String × α),
      (members.foldl (fun sorted m => insertKey m.1 m.2 sorted) sorted).lookup key =
        (members.reverse ++ sorted).lookup key := by
    induction members with
    | nil => simp
    | cons m members ih =>
      intro sorted
      rw [foldl_cons, ih, reverse_cons, append_assoc, lookup_append, lookup_append,
        lookup_insertKey, singleton_append, lookup_cons_eq_ite]
  exact (hfold []).trans (by rw [append_nil])

theorem sortKeys_map (f : α → β) (members : List (String × α)) :
    sortKeys (members.map fun m => (m.1, f m.2)) =
      (sortKeys members).map fun m => (m.1, f m.2) := by
  have hinsert : ∀ (key : String) (value : α) sorted,
      insertKey key (f value) (sorted.map fun m => (m.1, f m.2)) =
        (insertKey key value sorted).map fun m => (m.1, f m.2) := by
    intro key value sorted
    induction sorted with
    | nil => rfl
    | cons m sorted ih =>
      rw [map_cons, insertKey, insertKey, ih]
      split
      · rfl
      · split <;> rfl
  have hfold : ∀ sorted : List (String × α),
      (members.map fun m => (m.1, f m.2)).foldl (fun sorted m => insertKey m.1 m.2 sorted)
          (sorted.map fun m => (m.1, f m.2)) =
        (members.foldl (fun sorted m => insertKey m.1 m.2 sorted) sorted).map
          fun m => (m.1, f m.2) := by
    induction members with
    | nil => intro; rfl
    | cons m members ih =>
      intro sorted
      rw [map_cons, foldl_cons, foldl_cons, hinsert, ih]
  exact hfold []

end Json

namespace Literal

variable {e : Literal} {ss : List String} {ps : List (String × String)}

/-- Every leaf is a string or a reference to a class, and every key is a string. -/
inductive Valued : Literal → Prop
  | text (s : String) : Valued (.text s)
  | classRef (s : String) : Valued (.classRef s)
  | list {items : List Literal} : (∀ x ∈ items, Valued x) → Valued (.list items)
  | map {entries : List (Literal × Literal)} :
    (∀ x ∈ entries, x.1.string?.isSome) → (∀ x ∈ entries, Valued x.2) → Valued (.map entries)

mutual

theorem isSome_toJson?_iff : ∀ e : Literal, e.toJson?.isSome ↔ Valued e
  | .text s => iff_of_true rfl (.text s)
  | .classRef s => iff_of_true rfl (.classRef s)
  | .list items => by
    rw [toJson?, Option.isSome_map, isSome_itemsToJson?_iff items]
    refine ⟨.list, fun h => ?_⟩
    cases h with
    | list hitems => exact hitems
  | .map entries => by
    rw [toJson?, Option.isSome_map, isSome_entriesToJson?_iff entries]
    refine ⟨fun h => .map (fun x hx => (h x hx).1) fun x hx => (h x hx).2, fun h => ?_⟩
    cases h with
    | map hkeys hvalues => exact fun x hx => ⟨hkeys x hx, hvalues x hx⟩
  | .name _ => iff_of_false Bool.false_ne_true (by rintro ⟨⟩)
  | .qualifiedName _ => iff_of_false Bool.false_ne_true (by rintro ⟨⟩)
  | .closure => iff_of_false Bool.false_ne_true (by rintro ⟨⟩)
  | .unknown => iff_of_false Bool.false_ne_true (by rintro ⟨⟩)

theorem isSome_itemsToJson?_iff :
    ∀ items : List Literal, (itemsToJson? items).isSome ↔ ∀ x ∈ items, Valued x
  | [] => by simp [itemsToJson?]
  | x :: items => by
    rw [forall_mem_cons, ← isSome_toJson?_iff x, ← isSome_itemsToJson?_iff items, itemsToJson?]
    cases x.toJson? <;> cases itemsToJson? items <;> simp

theorem isSome_entriesToJson?_iff : ∀ entries : List (Literal × Literal),
    (entriesToJson? entries).isSome ↔ ∀ x ∈ entries, x.1.string?.isSome ∧ Valued x.2
  | [] => by simp [entriesToJson?]
  | (key, value) :: entries => by
    rw [forall_mem_cons, ← isSome_toJson?_iff value, ← isSome_entriesToJson?_iff entries,
      entriesToJson?]
    cases key.string? <;> cases value.toJson? <;> cases entriesToJson? entries <;> simp

end

/-! ## Folding -/

theorem string?_eq_some_iff {s : String} : e.string? = some s ↔ e = .text s := by
  cases e <;> simp [string?]

theorem stringPair?_eq_some_iff {x : Literal × Literal} {p : String × String} :
    stringPair? x = some p ↔ x = (.text p.1, .text p.2) := by
  obtain ⟨key, value⟩ := x
  obtain ⟨k, v⟩ := p
  simp [stringPair?, Option.bind_eq_some_iff, string?_eq_some_iff]

/-- What is folded into strings is the list of them. -/
theorem strings_eq_iff (h : ss ≠ []) : e.strings = ss ↔ e = .list (ss.map .text) := by
  cases e with
  | list items => simp [strings, getD_nil_eq_iff h, mapM_eq_some_iff_map string?_eq_some_iff]
  | _ => simp [strings, h.symm]

/-- What is folded into pairs of strings is the map of them. -/
theorem stringPairs_eq_iff (h : ps ≠ []) :
    e.stringPairs = ps ↔ e = .map (ps.map fun p => (.text p.1, .text p.2)) := by
  cases e with
  | map entries =>
    simp [stringPairs, getD_nil_eq_iff h, mapM_eq_some_iff_map stringPair?_eq_some_iff]
  | _ => simp [stringPairs, h.symm]

theorem toJson?_strings (ss : List String) :
    (Literal.list (ss.map .text)).toJson? = some (Json.strings ss) := by
  have hitems : itemsToJson? (ss.map .text) = some (ss.map .str) := by
    induction ss with
    | nil => rfl
    | cons s ss ih => simp [itemsToJson?, toJson?, ih]
  rw [toJson?, hitems]
  rfl

theorem toJson?_stringPairs (ps : List (String × String)) :
    (Literal.map (ps.map fun p => (.text p.1, .text p.2))).toJson? =
      some (Model.stringsJson (Json.sortKeys ps)) := by
  have hentries : entriesToJson? (ps.map fun p => (.text p.1, .text p.2)) =
      some (ps.map fun p => (p.1, .str p.2)) := by
    induction ps with
    | nil => rfl
    | cons p ps ih => simp [entriesToJson?, string?, toJson?, ih]
  rw [toJson?, hentries, Option.map_some, Json.sortKeys_map]
  rfl

end Literal

/-! ## Maps of a model -/

namespace Model

variable {p : Property} {key : String}

theorem lookup_maps_addProperty (m : Model) (h : p.name ≠ key) :
    (m.addProperty p).maps.lookup key = m.maps.lookup key := by
  rw [addProperty]
  split
  · rfl
  · split
    · split <;> rfl
    · split
      · dsimp only
        split <;> rfl
      · split
        · dsimp only
          split
          · rfl
          · rw [Json.lookup_insertKey, if_neg h.symm]
        · rfl

theorem maps_addMethod (imports : Imports) (namespaceName : String) (m : Model) (f : Callable) :
    (m.addMethod imports namespaceName f).maps = m.maps := by
  rw [addMethod]
  split
  · rfl
  · split <;> rfl

/-- A map of strings is told under the name of the last property that has one. -/
theorem lookup_maps_of {e : Literal} (imports : Imports) {t : TypeDef}
    {before after : List Property} (hproperties : t.properties = before ++ p :: after)
    (hname : p.name ∈ mapProperties) (hdefault : p.default = some e) (hpairs : e.stringPairs ≠ [])
    (hlast : ∀ q ∈ after, q.name ≠ p.name) :
    (Model.of imports t).maps.lookup p.name = some (Json.sortKeys e.stringPairs) := by
  have hadd : ∀ m : Model, (m.addProperty p).maps.lookup p.name =
      some (Json.sortKeys e.stringPairs) := by
    intro m
    obtain ⟨x, xs, hx⟩ := exists_cons_of_ne_nil hpairs
    have hne : Json.sortKeys e.stringPairs ≠ [] := hx ▸ Json.sortKeys_cons_ne_nil x xs
    have hother : ∀ name ∈ mapProperties, name ∉ stringProperties ∧ name ∉ listProperties := by
      decide +kernel
    simp [addProperty, hdefault, (hother p.name hname).1, (hother p.name hname).2, hname, hne,
      Json.lookup_insertKey]
  have hafter : ∀ m : Model, (after.foldl addProperty m).maps.lookup p.name =
      m.maps.lookup p.name := fun m =>
    List.foldlRecOn (motive := fun m' : Model => m'.maps.lookup p.name = m.maps.lookup p.name)
      after _ rfl fun m' ih q hq => (lookup_maps_addProperty m' (hlast q hq)).trans ih
  have hmethods : (Model.of imports t).maps = (t.properties.foldl addProperty _).maps :=
    foldl_keeps (maps_addMethod imports t.namespaceName) t.methods _
  rw [hmethods, hproperties, foldl_append, foldl_cons, hafter, hadd]

end Model

/-- What is folded from a literal, and what it is as JSON. -/
structure Literal.FoldsAgree (e : Literal) : Prop where
  value : e.toJson?.isSome ↔ e.Valued
  strings : ∀ ss ≠ [], e.strings = ss ↔ e = .list (ss.map .text)
  strings_value : e.strings ≠ [] → e.toJson? = some (Json.strings e.strings)
  strings_none : ∀ items, e = .list items → (∃ x ∈ items, x.string? = none) → e.strings = []
  pairs : ∀ ps ≠ [], e.stringPairs = ps ↔ e = .map (ps.map fun p => (.text p.1, .text p.2))
  pairs_value : e.stringPairs ≠ [] → ∃ members, e.toJson? = some (.obj members) ∧
    (members.map Prod.fst).Pairwise (· < ·) ∧
    ∀ key, Json.member? key members = (e.stringPairs.reverse.lookup key).map .str
  pairs_none : ∀ entries, e = .map entries →
    (∃ x ∈ entries, x.1.string? = none ∨ x.2.string? = none) → e.stringPairs = []
  /-- The last property of a class with the name is told of the class as a model. -/
  stored : e.stringPairs ≠ [] → ∀ imports (t : TypeDef) before p after,
    t.properties = before ++ p :: after → p.name ∈ Model.mapProperties → p.default = some e →
    (∀ q ∈ after, q.name ≠ p.name) → ∃ entries,
      (Model.of imports t).maps.lookup p.name = some entries ∧
        e.toJson? = some (Model.stringsJson entries)

theorem Literal.toJson?_of_stringPairs {e : Literal} (h : e.stringPairs ≠ []) :
    e.toJson? = some (Model.stringsJson (Json.sortKeys e.stringPairs)) := by
  conv => lhs; rw [(stringPairs_eq_iff h).1 rfl]
  exact toJson?_stringPairs _

/-- What is folded from a literal is all of it or nothing, and agrees with its value as JSON. -/
theorem literal_folds_agree (e : Literal) : e.FoldsAgree where
  value := e.isSome_toJson?_iff
  strings _ := Literal.strings_eq_iff
  strings_value h := by
    conv => lhs; rw [(Literal.strings_eq_iff h).1 rfl]
    exact Literal.toJson?_strings _
  strings_none := by
    rintro items rfl ⟨x, hx, hnone⟩
    refine Classical.byContradiction fun h => ?_
    rw [Literal.list.inj ((Literal.strings_eq_iff h).1 rfl)] at hx
    obtain ⟨s, -, rfl⟩ := mem_map.1 hx
    simp [Literal.string?] at hnone
  pairs _ := Literal.stringPairs_eq_iff
  pairs_value h := by
    refine ⟨_, Literal.toJson?_of_stringPairs h, ?_, fun key => ?_⟩
    · rw [← Json.sortKeys_map]
      exact Json.pairwise_sortKeys _
    · rw [Json.member?_eq_lookup, lookup_map, Json.lookup_sortKeys]
  pairs_none := by
    rintro entries rfl ⟨x, hx, hnone⟩
    refine Classical.byContradiction fun h => ?_
    rw [Literal.map.inj ((Literal.stringPairs_eq_iff h).1 rfl)] at hx
    obtain ⟨p, -, rfl⟩ := mem_map.1 hx
    simp [Literal.string?] at hnone
  stored h imports t before p after hproperties hname hdefault hlast :=
    ⟨_, Model.lookup_maps_of imports hproperties hname hdefault h hlast,
      Literal.toJson?_of_stringPairs h⟩

end CodeAtlas
