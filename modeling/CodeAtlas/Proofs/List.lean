import Mathlib.Data.List.Flatten
import Mathlib.Data.List.Forall2
import Mathlib.Data.List.TakeWhile

/-!
# Lists and options

Facts about lists and options in general. Nothing in this module is about what the lists hold.
-/

namespace CodeAtlas

open List

variable {α β γ : Type} {as : List α} {f g : α → Option β} {p : α → Bool} {a : α} {R : α → β → Prop}
  {bs : List β} {cs : List γ}

/-! ## Options -/

theorem bind_of_eq_some {x : Option α} (h : x = some a) (f : α → Option β) : x >>= f = f a := by
  rw [h]
  rfl

theorem reverse_toList (o : Option α) : o.toList.reverse = o.toList := by
  cases o <;> rfl

theorem getD_nil_eq_iff {o : Option (List α)} (h : as ≠ []) : o.getD [] = as ↔ o = some as := by
  cases o <;> simp [h.symm]

theorem rel_cases {a : Option α} {b : Option β} (h : Option.Rel R a b) :
    a = none ∧ b = none ∨ ∃ x y, a = some x ∧ b = some y ∧ R x y := by
  cases h with
  | none => exact .inl ⟨rfl, rfl⟩
  | some h => exact .inr ⟨_, _, rfl, rfl, h⟩

theorem rel_head? (h : Forall₂ R as bs) : Option.Rel R as.head? bs.head? := by
  cases h with
  | nil => exact .none
  | cons h _ => exact .some h

/-! ## All members -/

/-- What is checked of one member of a list after the other holds of all. -/
theorem forall_mem_of_all {p : α → Prop} [DecidablePred p] (h : as.all (decide <| p ·)) :
    ∀ a ∈ as, p a := by
  simpa using h

/-- What no step changes is the same after all of them. -/
theorem foldl_keeps {step : β → α → β} {view : β → γ} (h : ∀ b a, view (step b a) = view b)
    (as : List α) (b : β) : view (as.foldl step b) = view b := by
  induction as generalizing b with
  | nil => rfl
  | cons a as ih => exact (ih _).trans (h b a)

theorem mapM_eq_some_iff_map {g : β → α} (h : ∀ {a b}, f a = some b ↔ a = g b) :
    as.mapM f = some bs ↔ as = bs.map g := by
  induction as generalizing bs with
  | nil => cases bs <;> simp
  | cons a as ih => cases bs <;> simp [Option.bind_eq_some_iff, h, ih]

theorem eraseDups_concat [DecidableEq α] (as : List α) (a : α) :
    (as ++ [a]).eraseDups = if a ∈ as then as.eraseDups else as.eraseDups ++ [a] := by
  have hkept : [a].removeAll as = if a ∈ as then [] else [a] := by
    by_cases ha : a ∈ as <;> simp [List.removeAll, ha]
  rw [eraseDups_append, hkept]
  split
  · simp
  · simp [eraseDups_cons]

/-! ## Members by their number -/

theorem map_mapIdx (g : β → γ) (f : Nat → α → β) (as : List α) :
    (as.mapIdx f).map g = as.mapIdx fun i a => g (f i a) := by
  rw [mapIdx_eq_zipIdx_map, mapIdx_eq_zipIdx_map, map_map]
  rfl

/-- A list that is gone through by number, where something is found at each. -/
theorem filterMap_mapIdx {f : β → Option γ} {g : Nat → α → β}
    (h : ∀ i, (as[i]?.map (g i)).map f = cs[i]?.map some) : (as.mapIdx g).filterMap f = cs := by
  have hmap : (as.mapIdx g).map f = cs.map some := by
    refine ext_getElem? fun i => ?_
    rw [getElem?_map, getElem?_map, getElem?_mapIdx, h]
  have hid := congrArg (List.filterMap id) hmap
  rwa [filterMap_map, filterMap_map, Function.id_comp, Function.id_comp, filterMap_some] at hid

/-- Of the values of some items those that are told to belong to a place are the value
    of the item there. -/
theorem filter_filterMap_eq {p : β → Bool} {i : Nat}
    (h : ∀ j a b, as[j]? = some a → f a = some b → (p b ↔ i = j)) :
    (as.filterMap f).filter p = (as[i]?.bind f).toList := by
  induction as generalizing i with
  | nil => rfl
  | cons a as ih =>
    cases i with
    | zero =>
      have hrest : (as.filterMap f).filter p = [] := by
        refine filter_eq_nil_iff.2 fun b hb hp => ?_
        obtain ⟨c, hc, hb⟩ := mem_filterMap.1 hb
        obtain ⟨j, hj⟩ := mem_iff_getElem?.1 hc
        cases (h (j + 1) c b hj hb).1 hp
      cases hb : f a with
      | none => simpa [hb] using hrest
      | some b => simp [hb, (h 0 a b rfl hb).2 rfl, hrest]
    | succ i =>
      have hrest := ih fun j c b hj hb => (h (j + 1) c b hj hb).trans Nat.succ_inj
      cases hb : f a with
      | none => simpa [hb] using hrest
      | some b =>
        have hp : p b = false := Bool.eq_false_iff.2 fun hp => by cases (h 0 a b rfl hb).1 hp
        simpa [hb, hp] using hrest

/-! ## Parts of a list -/

theorem filterMap_singleton (f : α → Option β) (a : α) : [a].filterMap f = (f a).toList := by
  cases h : f a <;> simp [h]

theorem filterMap_sublist (h : ∀ a b, f a = some b → g a = some b) (as : List α) :
    (as.filterMap f).Sublist (as.filterMap g) := by
  induction as with
  | nil => exact .refl _
  | cons a as ih =>
    cases hf : f a with
    | some b =>
      rw [filterMap_cons_some hf, filterMap_cons_some (h a b hf)]
      exact ih.cons_cons b
    | none =>
      rw [filterMap_cons_none hf]
      cases hg : g a with
      | none =>
        rw [filterMap_cons_none hg]
        exact ih
      | some b =>
        rw [filterMap_cons_some hg]
        exact ih.cons b

/-- Items of which each is given by one of two functions at most. -/
theorem filterMap_append_perm (h : ∀ a ∈ as, f a = none ∨ g a = none) :
    (as.filterMap f ++ as.filterMap g).Perm (as.filterMap fun a => (f a).or (g a)) := by
  induction as with
  | nil => exact .nil
  | cons a as ih =>
    obtain ⟨ha, has⟩ := forall_mem_cons.1 h
    rcases ha with hf | hg
    · cases hg : g a with
      | none => simpa [hf, hg] using ih has
      | some b => simpa [hf, hg] using perm_middle.trans ((ih has).cons b)
    · cases hf : f a with
      | none => simpa [hf, hg] using ih has
      | some b => simpa [hf, hg] using ih has

/-- What is found in a list and goes with another list, told by what is kept of the first. -/
theorem forall₂_filter_of_filterMap {R : β → γ → Prop} {S : α → γ → Prop}
    (hp : ∀ a ∈ as, (f a).isSome = p a) (hS : ∀ a ∈ as, ∀ b, f a = some b → ∀ c, R b c → S a c)
    (h : Forall₂ R (as.filterMap f) cs) : Forall₂ S (as.filter p) cs := by
  induction as generalizing cs with
  | nil =>
    cases h
    exact .nil
  | cons a as ih =>
    replace ih {cs : List γ} := @ih cs (fun a ha => hp a (mem_cons_of_mem _ ha))
      fun a ha => hS a (mem_cons_of_mem _ ha)
    have hpa := hp a mem_cons_self
    cases hf : f a with
    | none =>
      rw [hf] at hpa
      rw [filterMap_cons_none hf] at h
      rw [filter_cons_of_neg (by simp [← hpa])]
      exact ih h
    | some b =>
      rw [hf] at hpa
      rw [filterMap_cons_some hf] at h
      rw [filter_cons_of_pos hpa.symm]
      obtain ⟨c, cs, hR, hrest, rfl⟩ := forall₂_cons_left_iff.1 h
      exact .cons (hS a mem_cons_self b hf c hR) (ih hrest)

theorem flatMap_filter (p : α → Bool) (f : α → List β) (as : List α) :
    (as.filter p).flatMap f = as.flatMap fun a => if p a then f a else [] := by
  induction as with
  | nil => rfl
  | cons a as ih =>
    rw [filter_cons, flatMap_cons]
    split
    · rw [flatMap_cons, ih]
    · rw [ih, nil_append]

theorem flatMap_unless_eq_iff (p : α → Bool) (f : α → List β) (as : List α) :
    (as.flatMap fun a => if p a then [] else f a) = as.flatMap f ↔ ∀ a ∈ as, p a → f a = [] := by
  induction as with
  | nil => simp
  | cons a as ih =>
    rw [flatMap_cons, flatMap_cons, forall_mem_cons, ← ih]
    cases p a with
    | false => simp
    | true =>
      have hle : (as.flatMap fun a => if p a then [] else f a).length ≤ (as.flatMap f).length := by
        refine (List.Sublist.flatMap_right as fun a _ => ?_).length_le
        split
        · exact nil_sublist _
        · exact .refl _
      constructor
      · intro heq
        have hlength := congrArg List.length heq
        have hnil : f a = [] := by
          rw [if_pos rfl, nil_append, length_append] at hlength
          exact length_eq_zero_iff.1 (by omega)
        exact ⟨fun _ => hnil, by simpa [hnil] using heq⟩
      · rintro ⟨hnil, heq⟩
        simpa [hnil rfl] using heq

/-! ## Cutting in two -/

theorem not_mem_takeWhile (ha : p a = false) (as : List α) : a ∉ as.takeWhile p := by
  intro h
  rw [mem_takeWhile_imp h] at ha
  cases ha

theorem drop_length_takeWhile (p : α → Bool) (as : List α) :
    as.drop (as.takeWhile p).length = as.dropWhile p := by
  have h : (as.takeWhile p ++ as.dropWhile p).drop (as.takeWhile p).length = as.dropWhile p :=
    drop_left
  rwa [takeWhile_append_dropWhile] at h

theorem dropWhile_append_cons (ha : p a = false) (as bs : List α) :
    (as ++ a :: bs).dropWhile p = as.dropWhile p ++ a :: bs := by
  rw [dropWhile_append]
  split
  · next h => rw [List.isEmpty_iff.1 h, dropWhile_cons_of_neg (by simp [ha])]; rfl
  · rfl

/-- What comes before the first mark stands before every mark. -/
theorem exists_append_of_not_mem {mark : α} {pre bs cs : List α} (hmark : mark ∉ pre)
    (h : pre ++ as = bs ++ mark :: cs) : ∃ more, bs = pre ++ more := by
  rcases append_eq_append_iff.1 h with ⟨more, hbs, _⟩ | ⟨more, hpre, hrest⟩
  · exact ⟨more, hbs⟩
  · cases more with
    | nil => exact ⟨[], by simp [hpre]⟩
    | cons a more =>
      obtain ⟨rfl, _⟩ := List.cons.inj hrest
      exact absurd (by simp [hpre]) hmark

/-- A member divides a list in one place only, if it stands before it as often. -/
theorem eq_of_append_cons [DecidableEq α] {bs as' bs' : List α}
    (h : as ++ a :: bs = as' ++ a :: bs') (hcount : as.count a = as'.count a) :
    as = as' ∧ bs = bs' := by
  induction as generalizing as' with
  | nil =>
    cases as' with
    | nil => exact ⟨rfl, (List.cons.inj h).2⟩
    | cons b as' =>
      obtain ⟨rfl, _⟩ := List.cons.inj h
      simp at hcount
  | cons b as ih =>
    cases as' with
    | nil =>
      obtain ⟨rfl, _⟩ := List.cons.inj h
      simp at hcount
    | cons b' as' =>
      obtain ⟨rfl, htail⟩ := List.cons.inj h
      obtain ⟨rfl, rfl⟩ := ih htail (by simpa [count_cons] using hcount)
      exact ⟨rfl, rfl⟩

/-! ## Looking up -/

variable [DecidableEq α] {key : α}

theorem lookup_cons_eq_ite (m : α × β) (members : List (α × β)) :
    (m :: members).lookup key = if key = m.1 then some m.2 else members.lookup key := by
  rw [lookup_cons]
  split <;> simp_all

theorem lookup_map (f : β → γ) (members : List (α × β)) :
    (members.map fun m => (m.1, f m.2)).lookup key = (members.lookup key).map f := by
  induction members with
  | nil => rfl
  | cons m members ih =>
    rw [map_cons, lookup_cons_eq_ite, lookup_cons_eq_ite, ih]
    split <;> rfl

end CodeAtlas
