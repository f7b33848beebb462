import Mathlib.Data.List.Perm.Basic
import Mathlib.Data.List.TakeDrop
import CodeAtlas.Index
import CodeAtlas.Proofs.Metadata

/-!
# Entering models into chunks

A run ends with entering each model into the last chunk of a class that the model
describes. A model describes a chunk by its kind, file, line and name, which no model
changes. So where a model goes can be told from the chunks as they were made
(`isTarget`), and what becomes of a chunk does not depend on the others.

* `Run.getElem?_enter`: what one model does to the chunk at a place;
* `Run.getElem?_foldl_enter`: what all models do to it, by induction on them.
-/

namespace CodeAtlas

open List Bool

variable {models : List Model}

namespace Run

/-! ## Changing the last item -/

section updateLast

variable {α : Type} {p : α → Bool} {f : α → α} {items : List α}

/-- The last item that satisfies `p` stands at the given place. -/
def isLast (p : α → Bool) (items : List α) (i : Nat) : Bool :=
  items[i]?.any p && !(items.drop (i + 1)).any p

theorem isLast_cons_succ (a : α) (items : List α) (i : Nat) :
    isLast p (a :: items) (i + 1) = isLast p items i := rfl

theorem isLast_map {β : Type} (p : β → Bool) (g : α → β) (items : List α) (i : Nat) :
    isLast p (items.map g) i = isLast (p ∘ g) items i := by
  rw [isLast, ← map_drop, any_map, getElem?_map, Option.any_map]
  rfl

theorem isLast_of_none (h : items.any p = false) (i : Nat) : isLast p items i = false := by
  have hi : items[i]?.any p = false := by
    cases hi : items[i]? with
    | none => rfl
    | some a => exact any_eq_false.1 h a (mem_of_getElem? hi) |> Bool.eq_false_iff.2
  rw [isLast, hi, Bool.false_and]

theorem isLast_iff {i : Nat} :
    isLast p items i ↔
      (∃ a, items[i]? = some a ∧ p a) ∧
        ∀ k b, i < k → items[k]? = some b → p b = false := by
  have hdrop : (∀ b ∈ items.drop (i + 1), ¬ p b) ↔
      ∀ k b, i < k → items[k]? = some b → p b = false := by
    constructor
    · intro h k b hk hb
      refine Bool.eq_false_iff.2 (h b (mem_of_getElem? (i := k - (i + 1)) ?_))
      rw [getElem?_drop, Nat.add_sub_cancel' hk, hb]
    · intro h b hb
      obtain ⟨k, hk⟩ := mem_iff_getElem?.1 hb
      rw [getElem?_drop] at hk
      exact Bool.eq_false_iff.1 (h _ b (by omega) hk)
  rw [isLast, and_eq_true, Option.any_eq_true, not_eq_true', any_eq_false, hdrop]

theorem updateLast_cons (a : α) (items : List α) :
    updateLast p f (a :: items) =
      if items.any p then a :: updateLast p f items else (if p a then f a else a) :: items := by
  simp only [updateLast, span_eq_takeWhile_dropWhile, reverse_cons,
    dropWhile_append, takeWhile_append]
  -- From the end of the list: either no item behind the first satisfies `p`, or one does.
  cases h : items.reverse.dropWhile (!p ·) with
  | nil =>
    have hnone : items.any p = false := by
      simpa using h
    have hall : items.reverse.takeWhile (!p ·) = items.reverse := by
      simpa using hnone
    cases hp : p a <;> simp [hnone, hall, hp]
  | cons found before =>
    have hsome : items.any p := by
      cases hany : items.any p with
      | true => rfl
      | false =>
        have hnil : items.reverse.dropWhile (!p ·) = [] := by
          simpa using hany
        cases hnil.symm.trans h
    have hlength : (items.reverse.takeWhile (!p ·)).length ≠ items.length := by
      have hcut := congrArg List.length
        (takeWhile_append_dropWhile (p := (!p ·)) (l := items.reverse))
      rw [h] at hcut
      simp only [length_append, length_cons, length_reverse] at hcut
      omega
    simp [hsome, hlength]

/-- Only the last item is changed. -/
theorem getElem?_updateLast (items : List α) (i : Nat) :
    (updateLast p f items)[i]? = if isLast p items i then items[i]?.map f else items[i]? := by
  induction items generalizing i with
  | nil => rfl
  | cons a items ih =>
    rw [updateLast_cons]
    cases i with
    | zero =>
      cases hany : items.any p <;> cases hp : p a <;> simp [isLast, hany, hp]
    | succ i =>
      rw [isLast_cons_succ]
      split
      · exact ih i
      · next hnone =>
        rw [isLast_of_none (by simpa using hnone)]
        rfl

end updateLast

/-! ## Where models go -/

/-- The chunk is that of a class which the model describes. -/
def suits (m : Model) (c : Chunk) : Bool :=
  c.kind = .class ∧ m.describes c

/-- The model is entered into the chunk at the given place. -/
def isTarget (chunks : List Chunk) (i : Nat) (m : Model) : Bool :=
  isLast (suits m) chunks i

/-- Enters several models into a chunk. -/
def addAll (c : Chunk) (models : List Model) : Chunk :=
  models.foldl (fun c m => m.addTo c) c

theorem withoutModel_addAll (c : Chunk) (models : List Model) :
    (addAll c models).withoutModel = c.withoutModel :=
  foldl_keeps (fun c m => m.withoutModel_addTo c) models c

theorem suits_bare (m : Model) : suits m ∘ Chunk.bare = suits m := rfl

theorem getElem?_enter (chunks : List Chunk) (m : Model) (i : Nat) :
    (enter chunks m)[i]? =
      if isTarget chunks i m then chunks[i]?.map m.addTo else chunks[i]? :=
  getElem?_updateLast chunks i

/-- What holds of all chunks, and is kept where a model is entered, holds of all in the end. -/
theorem forall_mem_foldl_enter {Q : Chunk → Prop} (hadd : ∀ m ∈ models, ∀ c, Q c → Q (m.addTo c))
    {chunks : List Chunk} (h : ∀ c ∈ chunks, Q c) : ∀ c ∈ models.foldl enter chunks, Q c := by
  refine List.foldlRecOn (motive := fun cs => ∀ c ∈ cs, Q c) models enter h
    fun cs hcs m hm c hc => ?_
  obtain ⟨i, hi⟩ := getElem?_of_mem hc
  rw [getElem?_enter] at hi
  split at hi
  · obtain ⟨c', hc', rfl⟩ := Option.map_eq_some_iff.1 hi
    exact hadd m hm c' (hcs c' (mem_of_getElem? hc'))
  · exact hcs c (mem_of_getElem? hi)

theorem map_bare_enter (chunks : List Chunk) (m : Model) :
    (enter chunks m).map Chunk.bare = chunks.map Chunk.bare := by
  refine ext_getElem? fun i => ?_
  rw [getElem?_map, getElem?_map, getElem?_enter]
  split
  · cases chunks[i]? <;> simp
  · rfl

/-- Where a model goes depends on what no model changes. -/
theorem isTarget_congr {as bs : List Chunk} (h : as.map Chunk.bare = bs.map Chunk.bare)
    (i : Nat) (m : Model) : isTarget as i m = isTarget bs i m := by
  rw [isTarget, isTarget, ← suits_bare, ← isLast_map, h, isLast_map]

/-- What all models do to the chunk at a place: those that go there are entered, in
    their order. -/
theorem getElem?_foldl_enter (models : List Model) (chunks : List Chunk) (i : Nat) :
    (models.foldl enter chunks)[i]? =
      chunks[i]?.map (addAll · (models.filter (isTarget chunks i))) := by
  induction models generalizing chunks with
  | nil => simp [addAll]
  | cons m models ih =>
    -- The first model leaves the others where they would go without it.
    have hcongr : isTarget (enter chunks m) i = isTarget chunks i :=
      funext (isTarget_congr (map_bare_enter chunks m) i)
    rw [foldl_cons, ih, hcongr, getElem?_enter, filter_cons]
    split
    · cases chunks[i]? <;> rfl
    · rfl

/-- To relate items to their chunks after all models were entered, look at one place
    at a time. -/
theorem forall₂_foldl_enter {α : Type} {chunkOf : α → Chunk} {R : α → Chunk → Prop}
    {items : List α} (models : List Model) :
    List.Forall₂ R items (models.foldl enter (items.map chunkOf)) ↔
      ∀ i a, items[i]? = some a →
        R a (addAll (chunkOf a) (models.filter (isTarget (items.map chunkOf) i))) := by
  have hlength := congrArg List.length (foldl_keeps map_bare_enter models (items.map chunkOf))
  simp only [length_map] at hlength
  have hget : ∀ i (hi : i < items.length)
      (hi' : i < (models.foldl enter (items.map chunkOf)).length),
      (models.foldl enter (items.map chunkOf))[i] =
        addAll (chunkOf items[i]) (models.filter (isTarget (items.map chunkOf) i)) := by
    intro i hi hi'
    have hget := getElem?_foldl_enter models (items.map chunkOf) i
    rw [getElem?_eq_getElem hi', getElem?_map, getElem?_eq_getElem hi] at hget
    exact Option.some.inj hget
  rw [forall₂_iff_get, and_iff_right hlength.symm]
  constructor
  · intro h i a ha
    obtain ⟨hi, rfl⟩ := List.getElem?_eq_some_iff.1 ha
    exact hget i hi (hlength ▸ hi) ▸ h i hi (hlength ▸ hi)
  · intro h i hi hi'
    rw [get_eq_getElem, get_eq_getElem, hget i hi hi']
    exact h i _ (getElem?_eq_getElem hi)

end Run

end CodeAtlas
