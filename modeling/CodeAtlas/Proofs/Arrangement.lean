import Mathlib.Data.List.Forall2
import CodeAtlas.Index

/-!
# The order of a report

The chunks of a report are ordered by file and line, and those of one line stay in
the order in which they were made. `Arranges` says so without an algorithm: the
target holds the chunks of the source, it is sorted, and at every place both list
the same chunks in the same order.

* `arranges_sortChunks`: sorting arranges;
* `forall₂_arrange`: what relates chunks at the same places one by one does so before
  and after both sides are sorted;
* `sublist_sortChunks`: sorting keeps sublists.
-/

namespace CodeAtlas

open List

namespace Chunk

variable {a b : Chunk}

/-- Both chunks start on the same line of the same file. -/
def samePlace (a b : Chunk) : Bool :=
  a.filePath == b.filePath && a.startLine == b.startLine

theorem samePlace_iff : a.samePlace b ↔ a.filePath = b.filePath ∧ a.startLine = b.startLine := by
  simp [samePlace]

theorem atOrBefore_iff :
    a.atOrBefore b ↔
      a.filePath < b.filePath ∨ a.filePath = b.filePath ∧ a.startLine ≤ b.startLine := by
  simp [atOrBefore]

theorem atOrBefore_trans (a b c : Chunk) (hab : a.atOrBefore b)
    (hbc : b.atOrBefore c) : a.atOrBefore c := by
  rw [atOrBefore_iff] at *
  rcases hab with hab | ⟨hab, hl⟩ <;> rcases hbc with hbc | ⟨hbc, hl'⟩
  · exact .inl (String.lt_trans hab hbc)
  · exact .inl (hbc ▸ hab)
  · exact .inl (hab ▸ hbc)
  · exact .inr ⟨hab.trans hbc, Nat.le_trans hl hl'⟩

theorem atOrBefore_total (a b : Chunk) : (a.atOrBefore b || b.atOrBefore a) := by
  rw [Bool.or_eq_true, atOrBefore_iff, atOrBefore_iff]
  by_cases hab : a.filePath < b.filePath
  · exact .inl (.inl hab)
  · by_cases hba : b.filePath < a.filePath
    · exact .inr (.inl hba)
    · have h := String.le_antisymm (String.not_lt.1 hba) (String.not_lt.1 hab)
      rcases Nat.le_total a.startLine b.startLine with hl | hl
      · exact .inl (.inr ⟨h, hl⟩)
      · exact .inr (.inr ⟨h.symm, hl⟩)

/-- The order looks at places only. -/
theorem atOrBefore_congr {a' b' : Chunk} (ha : a.samePlace a') (hb : b.samePlace b') :
    a.atOrBefore b = a'.atOrBefore b' := by
  rw [samePlace_iff] at ha hb
  rw [atOrBefore, atOrBefore, ha.1, ha.2, hb.1, hb.2]

theorem atOrBefore_of_samePlace (h : a.samePlace b) : a.atOrBefore b := by
  rw [samePlace_iff] at h
  exact atOrBefore_iff.2 (.inr ⟨h.1, Nat.le_of_eq h.2⟩)

end Chunk

/-- `target` lists the chunks of `source` by file and line, those of one line in their
    order. -/
structure Arranges (source target : List Chunk) : Prop where
  perm : target.Perm source
  sorted : target.Pairwise fun a b => a.atOrBefore b = true
  stable : ∀ c : Chunk, target.filter c.samePlace = source.filter c.samePlace

/-- The items by the file and line of their chunks; those of one line stay in their
    order. -/
def arrange {α : Type} (chunkOf : α → Chunk) (items : List α) : List α :=
  items.mergeSort fun a b => (chunkOf a).atOrBefore (chunkOf b)

/-- Sorting keeps the order of chunks at one place: they are sorted already, so they
    stay a sublist, and there are no others. -/
theorem filter_sortChunks (c : Chunk) (chunks : List Chunk) :
    (sortChunks chunks).filter c.samePlace = chunks.filter c.samePlace := by
  have hsorted : (chunks.filter c.samePlace).Pairwise fun a b => a.atOrBefore b := by
    refine List.Pairwise.imp_of_mem (R := fun _ _ => True) (fun ha hb _ => ?_)
      (pairwise_of_forall fun _ _ => trivial)
    have ha' := Chunk.samePlace_iff.1 (mem_filter.1 ha).2
    have hb' := Chunk.samePlace_iff.1 (mem_filter.1 hb).2
    exact Chunk.atOrBefore_of_samePlace
      (Chunk.samePlace_iff.2 ⟨ha'.1.symm.trans hb'.1, ha'.2.symm.trans hb'.2⟩)
  have hsub : (chunks.filter c.samePlace).Sublist (sortChunks chunks) :=
    sublist_mergeSort Chunk.atOrBefore_trans Chunk.atOrBefore_total hsorted
      filter_sublist
  have hfilter := hsub.filter c.samePlace
  rw [filter_filter] at hfilter
  simp only [Bool.and_self] at hfilter
  have hlength := ((mergeSort_perm chunks Chunk.atOrBefore).filter c.samePlace).length_eq
  exact (hfilter.eq_of_length hlength.symm).symm

/-- Sorting arranges chunks. -/
theorem arranges_sortChunks (chunks : List Chunk) : Arranges chunks (sortChunks chunks) where
  perm := mergeSort_perm _ _
  sorted := pairwise_mergeSort Chunk.atOrBefore_trans Chunk.atOrBefore_total _
  stable c := filter_sortChunks c chunks

/-- Items and chunks at the same places, one by one, are sorted in the same way. So what
    relates them does so before and after. -/
theorem forall₂_arrange {α : Type} {chunkOf : α → Chunk} {R : α → Chunk → Prop}
    {items : List α} {chunks : List Chunk}
    (hplace : List.Forall₂ (fun a c => (chunkOf a).samePlace c) items chunks) :
    List.Forall₂ R (arrange chunkOf items) (sortChunks chunks) ↔ List.Forall₂ R items chunks := by
  obtain ⟨hlen, hzip⟩ := forall₂_iff_zip.1 hplace
  -- Both sides are projections of the sorted list of pairs.
  let pairs := (items.zip chunks).mergeSort fun p q => (chunkOf p.1).atOrBefore (chunkOf q.1)
  have hfst : pairs.map Prod.fst = arrange chunkOf items := by
    rw [← map_fst_zip (Nat.le_of_eq hlen)]
    exact map_mergeSort fun _ _ _ _ => rfl
  have hsnd : pairs.map Prod.snd = sortChunks chunks := by
    rw [← map_snd_zip (Nat.le_of_eq hlen.symm)]
    exact map_mergeSort fun p hp q hq => Chunk.atOrBefore_congr (hzip hp) (hzip hq)
  rw [← hfst, ← hsnd, forall₂_map_left_iff, forall₂_map_right_iff, forall₂_same,
    forall₂_iff_zip]
  constructor
  · exact fun h => ⟨hlen, fun hp => h _ (mem_mergeSort.2 hp)⟩
  · exact fun h p hp => h.2 (mem_mergeSort.1 hp)

/-- A chunk that is put in front of others is sorted behind those that it does not come
    before, and in front of the rest. -/
theorem sortChunks_cons (c : Chunk) (chunks : List Chunk) :
    sortChunks (c :: chunks) =
        (sortChunks chunks).filter (!c.atOrBefore ·) ++
          c :: (sortChunks chunks).filter c.atOrBefore ∧
      sortChunks chunks =
        (sortChunks chunks).filter (!c.atOrBefore ·) ++
          (sortChunks chunks).filter c.atOrBefore := by
  obtain ⟨front, back, hcons, hsort, hfront⟩ :=
    mergeSort_cons Chunk.atOrBefore_trans Chunk.atOrBefore_total c chunks
  have hback : ∀ b ∈ back, c.atOrBefore b := by
    have hsorted := (arranges_sortChunks (c :: chunks)).sorted
    rw [sortChunks, hcons, pairwise_append, pairwise_cons] at hsorted
    exact hsorted.2.1.1
  have hfilter : (front ++ back).filter (!c.atOrBefore ·) = front ∧
      (front ++ back).filter c.atOrBefore = back := by
    constructor
    · rw [filter_append, filter_eq_self.2 hfront, filter_eq_nil_iff.2,
        append_nil]
      intro b hb
      simp [hback b hb]
    · rw [filter_append, filter_eq_self.2 hback, filter_eq_nil_iff.2,
        nil_append]
      intro b hb
      simpa using hfront b hb
  rw [sortChunks, sortChunks, hcons, hsort, hfilter.1, hfilter.2]
  exact ⟨rfl, rfl⟩

theorem sublist_sortChunks {as bs : List Chunk} (h : as.Sublist bs) :
    (sortChunks as).Sublist (sortChunks bs) := by
  induction h with
  | slnil => exact List.Sublist.refl _
  | @cons as bs b _ ih =>
    obtain ⟨hcons, hbs⟩ := sortChunks_cons b bs
    rw [hbs] at ih
    rw [hcons]
    exact ih.middle b
  | @cons_cons as bs b _ ih =>
    rw [(sortChunks_cons b as).1, (sortChunks_cons b bs).1]
    exact (ih.filter _).append ((ih.filter _).cons_cons b)

end CodeAtlas
