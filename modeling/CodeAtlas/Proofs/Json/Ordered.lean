import CodeAtlas.Json.Decode
import CodeAtlas.Proofs.Json.RoundTrip
import CodeAtlas.Proofs.Metadata

/-!
# Sorted members

Members that are put into a sorted list one by one stay sorted, and members that are sorted
already are not moved by sorting them. So a plain value, the objects of which are sorted, is
what reading it as a map makes of it (`asMap?_of_plain`).

* `pairwise_insertKey`, `pairwise_sortKeys`: the keys are in order;
* `Plain.sorted_eq`: plain values, by induction on how they are made;
* `Plain.insertKey`, `plain_sortKeys`: objects with members put into them.
-/

namespace CodeAtlas.Json

open List

variable {members : List (String × Json)}

section

variable {α : Type} {key : String} {value : α} {members : List (String × α)}

theorem pairwise_insertKey (h : (members.map Prod.fst).Pairwise (· < ·)) :
    ((insertKey key value members).map Prod.fst).Pairwise (· < ·) := by
  induction members with
  | nil => exact pairwise_singleton _ _
  | cons m rest ih =>
    obtain ⟨k, v⟩ := m
    obtain ⟨hfirst, hrest⟩ := pairwise_cons.1 h
    rw [insertKey]
    split
    · next heq => exact heq ▸ h
    · next hne =>
      split
      · next hlt =>
        refine pairwise_cons.2 ⟨forall_mem_cons.2 ⟨hlt, fun k' hk' => ?_⟩, h⟩
        exact String.lt_trans hlt (hfirst k' hk')
      · next hle =>
        have hlt : k < key := Std.lt_of_le_of_ne (String.not_lt.1 hle) (Ne.symm hne)
        refine pairwise_cons.2 ⟨fun k' hk' => ?_, ih hrest⟩
        obtain ⟨m, hm, rfl⟩ := mem_map.1 hk'
        rcases mem_insertKey hm with rfl | hm
        · exact hlt
        · exact hfirst m.1 (mem_map_of_mem hm)

theorem insertKey_of_lt (h : ∀ m ∈ members, m.1 < key) :
    insertKey key value members = members ++ [(key, value)] := by
  induction members with
  | nil => rfl
  | cons m rest ih =>
    obtain ⟨k, v⟩ := m
    obtain ⟨hfirst, hrest⟩ := forall_mem_cons.1 h
    have hne : key ≠ k := fun heq => String.lt_irrefl k (heq ▸ hfirst)
    rw [insertKey, if_neg hne, if_neg (String.lt_asymm hfirst), ih hrest, cons_append]

/-- Members that are sorted follow each other into the list. -/
theorem foldl_insertKey_of_sorted (before members : List (String × α))
    (h : ((before ++ members).map Prod.fst).Pairwise (· < ·)) :
    members.foldl (fun sorted m => insertKey m.1 m.2 sorted) before = before ++ members := by
  induction members generalizing before with
  | nil => exact (append_nil _).symm
  | cons m rest ih =>
    have hbefore : ∀ m' ∈ before, m'.1 < m.1 := by
      rw [map_append, pairwise_append] at h
      exact fun m' hm' => h.2.2 _ (mem_map_of_mem hm') _ mem_cons_self
    rw [foldl_cons, insertKey_of_lt hbefore, ih _ (by simpa using h)]
    simp

theorem sortKeys_of_sorted (h : (members.map Prod.fst).Pairwise (· < ·)) :
    sortKeys members = members :=
  foldl_insertKey_of_sorted [] members h

theorem pairwise_sortKeys (members : List (String × α)) :
    ((sortKeys members).map Prod.fst).Pairwise (· < ·) := by
  refine List.foldlRecOn (motive := fun sorted : List (String × α) =>
    (sorted.map Prod.fst).Pairwise (· < ·)) members _ List.Pairwise.nil fun _ h m _ => ?_
  exact pairwise_insertKey h

theorem mem_of_mem_sortKeys {m : String × α} (h : m ∈ sortKeys members) : m ∈ members := by
  refine List.foldlRecOn (motive := fun sorted : List (String × α) => ∀ m ∈ sorted, m ∈ members)
    members _ (by simp) (fun _ ih m' hm' m hm => ?_) m h
  rcases mem_insertKey hm with rfl | hm
  · exact hm'
  · exact ih m hm

end

/-! ## Plain values -/

theorem sortedItems_eq_map (items : List Json) : sortedItems items = items.map sorted := by
  induction items with
  | nil => rfl
  | cons item items ih => rw [sortedItems, ih, map_cons]

theorem sortedMembers_eq_map (members : List (String × Json)) :
    sortedMembers members = members.map fun m => (m.1, m.2.sorted) := by
  induction members with
  | nil => rfl
  | cons m members ih => rw [sortedMembers, ih, map_cons]

theorem sortedMembers_of_sorted (h : ∀ m ∈ members, m.2.sorted = m.2) :
    sortedMembers members = members := by
  have hsame : ∀ m ∈ members, (m.1, m.2.sorted) = m := fun m hm => by rw [h m hm]
  rw [sortedMembers_eq_map, map_congr_left hsame, map_id']

/-- The objects of a plain value are sorted. -/
theorem Plain.sorted_eq {j : Json} (h : j.Plain) : j.sorted = j := by
  induction h with
  | arr _ ih =>
    rw [sorted, sortedItems_eq_map, map_congr_left ih, map_id']
  | obj hkeys _ ih => rw [sorted, sortedMembers_of_sorted ih, sortKeys_of_sorted hkeys]
  | _ => rw [sorted] <;> simp

/-- A plain map is read as it is. -/
theorem asMap?_of_plain (h : (Json.obj members).Plain) : asMap? (.obj members) = some members := by
  cases h with
  | obj hkeys hmembers =>
    rw [asMap?, sortedMembers_of_sorted fun m hm => (hmembers m hm).sorted_eq,
      sortKeys_of_sorted hkeys]

theorem plain_sortKeys (h : ∀ m ∈ members, m.2.Plain) : (Json.obj (sortKeys members)).Plain :=
  .obj (pairwise_sortKeys members) fun m hm => h m (mem_of_mem_sortKeys hm)

theorem plain_map {α : Type} {toJson : α → Json} {as : List α} (h : ∀ a ∈ as, (toJson a).Plain) :
    (arr (as.map toJson)).Plain :=
  .arr (forall_mem_map.2 h)

theorem plain_strings (ss : List String) : (strings ss).Plain :=
  plain_map fun s _ => .str s

end CodeAtlas.Json
