/-!
# First of their kind

Items are taken in turn, but for those that repeat an item before them (`admitNew`). What
is taken is what is *fresh* (`fresh`): it repeats none of all the items before it, be
they taken or not, as long as repeating is transitive.

* `foldl_admitNew`: what is taken is what is fresh;
* `mem_fresh`: which items are fresh;
* `filterMap_fresh`: what is made of those that are;
* `mem_fresh_flatMap`: which items of several lists are;
* `pairwise_fresh`: no fresh item repeats another;
* `exists_fresh`: what is not fresh repeats an item that is.
-/

namespace CodeAtlas

open List

variable {α : Type}

/-- Takes an item, unless it repeats one of those before. -/
def admitNew (repeats : α → α → Bool) (before : List α) (v : α) : List α :=
  if before.any (repeats · v) then before else before ++ [v]

/-- The items among `vs` that repeat none before them, given those before all. -/
def fresh (repeats : α → α → Bool) : List α → List α → List α
  | _, [] => []
  | before, v :: vs =>
    (if before.any (repeats · v) then [] else [v]) ++ fresh repeats (before ++ [v]) vs

variable {repeats : α → α → Bool} {before before' vs ws : List α} {v : α}

/-- Which items are fresh depends on what those before repeat. -/
theorem fresh_congr (h : ∀ v ∈ vs, before.any (repeats · v) = before'.any (repeats · v)) :
    fresh repeats before vs = fresh repeats before' vs := by
  induction vs generalizing before before' with
  | nil => rfl
  | cons v vs ih =>
    rw [fresh, fresh, h v mem_cons_self, ih]
    intro u hu
    rw [any_append, any_append, h u (mem_cons_of_mem _ hu)]

/-- What is made of the fresh items, if only such repeat each other of which something is made, and
    that in the way in which it repeats itself. -/
theorem filterMap_fresh {β : Type} {repeats' : β → β → Bool} {f : α → Option β}
    (h : ∀ u ∈ before ++ vs, ∀ v ∈ vs, ∀ b, f v = some b →
      repeats u v = (f u).any (repeats' · b)) :
    (fresh repeats before vs).filterMap f =
      fresh repeats' (before.filterMap f) (vs.filterMap f) := by
  induction vs generalizing before with
  | nil => rfl
  | cons v vs ih =>
    have hrest : ∀ u ∈ before ++ [v] ++ vs, ∀ w ∈ vs, ∀ b, f w = some b →
        repeats u w = (f u).any (repeats' · b) := by
      intro u hu w hw
      rw [append_assoc] at hu
      exact h u hu w (mem_cons_of_mem _ hw)
    rw [fresh, filterMap_append, ih hrest, filterMap_append]
    cases hv : f v with
    | none =>
      have hnone : [v].filterMap f = [] := filterMap_cons_none hv
      rw [filterMap_cons_none (l := vs) hv, hnone, append_nil]
      split
      · rfl
      · rw [hnone, nil_append]
    | some b =>
      have hsome : [v].filterMap f = [b] := filterMap_cons_some hv
      have hany : (before.filterMap f).any (repeats' · b) = before.any (repeats · v) := by
        rw [Bool.eq_iff_iff, any_eq_true, any_eq_true]
        simp only [mem_filterMap]
        constructor
        · rintro ⟨a, ⟨u, hu, ha⟩, hrepeats⟩
          refine ⟨u, hu, ?_⟩
          simpa [h u (mem_append_left _ hu) v mem_cons_self b hv, ha] using hrepeats
        · rintro ⟨u, hu, hrepeats⟩
          rw [h u (mem_append_left _ hu) v mem_cons_self b hv] at hrepeats
          obtain ⟨a, ha, hrepeats⟩ := (Option.any_eq_true _ _).1 hrepeats
          exact ⟨a, ⟨u, hu, ha⟩, hrepeats⟩
      rw [filterMap_cons_some (l := vs) hv, fresh.eq_2, hany, hsome]
      split
      · rfl
      · rw [hsome]

theorem fresh_append :
    fresh repeats before (vs ++ ws) =
      fresh repeats before vs ++ fresh repeats (before ++ vs) ws := by
  induction vs generalizing before with
  | nil => rw [append_nil]; rfl
  | cons v vs ih =>
    rw [cons_append, fresh, fresh, ih, append_assoc, append_assoc]
    rfl

/-- What repeats an item that is left out also repeats the one for which it is left
    out. -/
theorem any_repeats_concat
    (htrans : ∀ u v w, repeats u v → repeats v w → repeats u w) {u : α}
    (hu : before.any (repeats · u)) :
    (before ++ [u]).any (repeats · v) = before.any (repeats · v) := by
  obtain ⟨w, hw, hwu⟩ := any_eq_true.1 hu
  rw [any_append, Bool.or_eq_left_iff_imp, any_cons, any_nil, Bool.or_false]
  exact fun huv => any_eq_true.2 ⟨w, hw, htrans w u v hwu huv⟩

theorem foldl_admitNew
    (htrans : ∀ u v w, repeats u v → repeats v w → repeats u w) :
    vs.foldl (admitNew repeats) before = before ++ fresh repeats before vs := by
  induction vs generalizing before with
  | nil => exact (append_nil _).symm
  | cons v vs ih =>
    rw [foldl_cons, ih, admitNew, fresh]
    split
    · -- `v` is left out, and what repeats it repeats an item before it.
      next hv => rw [fresh_congr fun _ _ => any_repeats_concat htrans hv]; rfl
    · rw [append_assoc]

theorem mem_fresh :
    v ∈ fresh repeats before vs ↔
      ∃ pre post, vs = pre ++ v :: post ∧ (before ++ pre).any (repeats · v) = false := by
  induction vs generalizing before with
  | nil => simp [fresh]
  | cons u vs ih =>
    rw [fresh, mem_append, ih]
    constructor
    · rintro (hv | ⟨pre, post, rfl, hfresh⟩)
      · split at hv
        · cases hv
        · next hu =>
          rw [mem_singleton] at hv
          subst hv
          exact ⟨[], vs, rfl, by simpa using hu⟩
      · exact ⟨u :: pre, post, rfl, by rwa [append_assoc] at hfresh⟩
    · rintro ⟨pre, post, hsplit, hfresh⟩
      cases pre with
      | nil =>
        cases hsplit
        rw [append_nil] at hfresh
        simp [hfresh]
      | cons w pre =>
        cases hsplit
        exact .inr ⟨pre, post, rfl, by rwa [append_assoc]⟩

/-- An item of several lists is fresh if it is so in one of them, behind the lists before
    it. -/
theorem mem_fresh_flatMap {β : Type} {F : β → List α} {bs : List β} :
    v ∈ fresh repeats before (bs.flatMap F) ↔
      ∃ pre b post, bs = pre ++ b :: post ∧
        v ∈ fresh repeats (before ++ pre.flatMap F) (F b) := by
  induction bs generalizing before with
  | nil => simp [fresh]
  | cons b bs ih =>
    rw [flatMap_cons, fresh_append, mem_append, ih]
    constructor
    · rintro (hv | ⟨pre, c, post, rfl, hv⟩)
      · exact ⟨[], b, bs, rfl, by rwa [flatMap_nil, append_nil]⟩
      · exact ⟨b :: pre, c, post, rfl, by rwa [flatMap_cons, ← append_assoc]⟩
    · rintro ⟨pre, c, post, hsplit, hv⟩
      cases pre with
      | nil =>
        cases hsplit
        rw [flatMap_nil, append_nil] at hv
        exact .inl hv
      | cons c' pre =>
        cases hsplit
        rw [flatMap_cons, ← append_assoc] at hv
        exact .inr ⟨pre, c, post, rfl, hv⟩

theorem mem_of_mem_fresh (hv : v ∈ fresh repeats before vs) : v ∈ vs := by
  obtain ⟨pre, post, rfl, _⟩ := mem_fresh.1 hv
  exact mem_append_right _ mem_cons_self

theorem repeats_eq_false_of_mem_fresh {u : α} (hv : v ∈ fresh repeats before vs)
    (hu : u ∈ before) : repeats u v = false := by
  obtain ⟨pre, post, rfl, hfresh⟩ := mem_fresh.1 hv
  rw [any_append, Bool.or_eq_false_iff, any_eq_false] at hfresh
  exact Bool.eq_false_iff.2 (hfresh.1 u hu)

theorem pairwise_fresh :
    (fresh repeats before vs).Pairwise (fun u v => repeats u v = false) := by
  induction vs generalizing before with
  | nil => exact .nil
  | cons v vs ih =>
    rw [fresh]
    split
    · exact ih
    · refine pairwise_cons.2 ⟨fun w hw => ?_, ih⟩
      exact repeats_eq_false_of_mem_fresh hw (mem_append_right _ mem_cons_self)

/-- An item that repeats none of those before is fresh, or repeats one that is. -/
theorem exists_fresh
    (htrans : ∀ u v w, repeats u v → repeats v w → repeats u w)
    (hv : v ∈ vs) (hbefore : before.any (repeats · v) = false) :
    ∃ u ∈ fresh repeats before vs, u = v ∨ repeats u v := by
  induction vs generalizing before with
  | nil => cases hv
  | cons w vs ih =>
    rw [fresh]
    by_cases hw : w = v
    · subst hw
      exact ⟨w, by simp [hbefore], .inl rfl⟩
    · have hmem : v ∈ vs := (mem_cons.1 hv).resolve_left (Ne.symm hw)
      cases hwv : repeats w v with
      | false =>
        have hnext : (before ++ [w]).any (repeats · v) = false := by simp [hbefore, hwv]
        obtain ⟨u, hu, huv⟩ := ih hmem hnext
        exact ⟨u, mem_append_right _ hu, huv⟩
      | true =>
        -- Nothing before is repeated by `w`, or else it would be by `v`.
        have hfirst : before.any (repeats · w) = false := by
          rw [any_eq_false] at hbefore ⊢
          exact fun u hu huw => hbefore u hu (htrans u w v huw hwv)
        exact ⟨w, by simp [hfirst], .inr hwv⟩

end CodeAtlas
