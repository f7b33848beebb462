import Mathlib.Data.List.Nodup
import CodeAtlas.Location

/-!
# Keys of declarations

Declarations are told apart by keys: a base name, and behind it the sign `#` and a
number if the base name was there before. A base name that looks like a key with a
number could be mistaken for one; a name is safe without the sign in it, or where
the sign stands before a point or a colon (`Keys.Unmarked`). Then base name and number
can be read off the key, no two declarations share one, and each key leads to the place
that was entered together with it.

* `Keys.next_inj`: what can be read off a key;
* `Keys.nodup_assign`: no two declarations share a key;
* `Location.Index.ofList_eq`: places with different keys are all entered;
* `Location.get?_assign`: where a declaration is found;
* `Location.get?_of_mem_assign`: every key is found, also where keys are shared;
* `Location.keys_keep_places`: the keys of names without the sign.
-/

namespace CodeAtlas

open List Option Nat

variable {i : Nat}

namespace Keys

variable {bases : List String} {base base' : String} {count : Nat}

/-- The base name does not look like one with a number behind it. -/
def Unmarked (s : String) : Prop :=
  ∀ (base : String) (count : Nat), s ≠ base ++ "#" ++ toString count

theorem toList_numbered (base : String) (count : Nat) :
    (base ++ "#" ++ toString count).toList = base.toList ++ '#' :: Nat.toDigits 10 count := by
  simp only [String.toList_append, append_assoc, toString_eq_repr, toList_repr]
  rfl

theorem isDigit_of_mem {c : Char} (h : c ∈ Nat.toDigits 10 count) : c.isDigit :=
  isDigit_of_mem_toDigits (by decide) (by decide) h

theorem mark_not_mem_toDigits (count : Nat) : '#' ∉ Nat.toDigits 10 count :=
  fun h => absurd (isDigit_of_mem h) (by decide)

theorem unmarked_of_not_mem {s : String} (h : '#' ∉ s.toList) : Unmarked s := by
  rintro base count rfl
  rw [toList_numbered] at h
  exact h (mem_append_right _ mem_cons_self)

/-- A name behind a tag, such as a point, whatever stands before that. -/
theorem unmarked_append {lead name : String} {tag : Char} (hmark : tag ≠ '#')
    (hdigit : tag.isDigit = false) (hname : '#' ∉ name.toList) :
    Unmarked (lead ++ String.singleton tag ++ name) := by
  intro base count heq
  have hlist := congrArg String.toList heq
  rw [toList_numbered, String.toList_append, String.toList_append, String.toList_singleton,
    append_assoc, singleton_append] at hlist
  rcases append_eq_append_iff.1 hlist with ⟨rest, -, hrest⟩ | ⟨rest, -, hrest⟩
  · -- The sign does not stand before the tag, so it would be the tag or in the name.
    rcases cons_eq_append_iff.1 hrest with ⟨-, hcons⟩ | ⟨rest, -, hrest⟩
    · exact hmark (List.cons.inj hcons).1.symm
    · exact hname (hrest ▸ mem_append_right _ mem_cons_self)
  · -- The sign stands before the tag, so the tag would be among the digits.
    rcases cons_eq_append_iff.1 hrest with ⟨-, hcons⟩ | ⟨rest, -, hrest⟩
    · exact hmark (List.cons.inj hcons).1
    · have htag : tag ∈ Nat.toDigits 10 count :=
        hrest ▸ mem_append_right _ mem_cons_self
      exact Bool.false_ne_true (hdigit.symm.trans (isDigit_of_mem htag))

/-- Two names that are cut at their last sign are equal in both parts. -/
theorem append_mark_inj {as bs cs ds : List Char} (hcs : '#' ∉ cs) (hds : '#' ∉ ds)
    (h : as ++ '#' :: cs = bs ++ '#' :: ds) : as = bs ∧ cs = ds := by
  rcases append_eq_append_iff.1 h with ⟨rest, hbs, hrest⟩ | ⟨rest, has, hrest⟩
  · rcases cons_eq_append_iff.1 hrest with ⟨rfl, hcons⟩ | ⟨rest, -, hrest⟩
    · exact ⟨(append_nil as ▸ hbs).symm, (List.cons.inj hcons).2.symm⟩
    · exact absurd (hrest ▸ mem_append_right _ mem_cons_self) hcs
  · rcases cons_eq_append_iff.1 hrest with ⟨rfl, hcons⟩ | ⟨rest, -, hrest⟩
    · exact ⟨append_nil bs ▸ has, (List.cons.inj hcons).2⟩
    · exact absurd (hrest ▸ mem_append_right _ mem_cons_self) hds

theorem numbered_inj {count' : Nat}
    (h : base ++ "#" ++ toString count = base' ++ "#" ++ toString count') :
    base = base' ∧ count = count' := by
  have hlist := congrArg String.toList h
  rw [toList_numbered, toList_numbered] at hlist
  obtain ⟨hbase, hdigits⟩ :=
    append_mark_inj (mark_not_mem_toDigits _) (mark_not_mem_toDigits _) hlist
  have hcount := congrArg (Nat.ofDigitChars 10 · 0) hdigits
  simp only [ofDigitChars_ten_toDigits] at hcount
  exact ⟨String.toList_inj.1 hbase, hcount⟩

/-- A base name and its number can be read off the key. -/
theorem next_inj {seen seen' : List String} (h : Unmarked base) (h' : Unmarked base')
    (heq : (next seen base).1 = (next seen' base').1) :
    base = base' ∧ seen.count base = seen'.count base' := by
  simp only [next, Nat.add_eq_right] at heq
  split at heq
  · next hzero =>
    split at heq
    · next hzero' => exact ⟨heq, hzero.trans hzero'.symm⟩
    · exact absurd heq (h _ _)
  · split at heq
    · exact absurd heq.symm (h' _ _)
    · obtain ⟨hbase, hcount⟩ := numbered_inj heq
      exact ⟨hbase, Nat.succ.inj hcount⟩

/-! ## The keys of several names -/

theorem length_assignFrom (seen bases : List String) :
    (assignFrom seen bases).length = bases.length := by
  induction bases generalizing seen with
  | nil => rfl
  | cons base bases ih => rw [assignFrom, length_cons, length_cons, ih]

theorem length_assign (bases : List String) : (assign bases).length = bases.length :=
  length_assignFrom [] bases

theorem getElem?_assignFrom (seen bases : List String) (i : Nat) :
    (assignFrom seen bases)[i]? =
      bases[i]?.map fun base => (next ((bases.take i).reverse ++ seen) base).1 := by
  induction bases generalizing seen i with
  | nil => rfl
  | cons base bases ih =>
    cases i with
    | zero => rfl
    | succ i =>
      rw [assignFrom, getElem?_cons_succ, ih, take_succ_cons, reverse_cons, append_assoc]
      rfl

theorem getElem?_assign (bases : List String) (i : Nat) :
    (assign bases)[i]? = bases[i]?.map fun base => (next (bases.take i).reverse base).1 := by
  rw [assign, getElem?_assignFrom]
  simp only [append_nil]

/-- Up to a later place, a name has been seen at the earlier one as well. -/
theorem count_take_lt {j : Nat} (hij : i < j) (hj : j < bases.length) :
    (bases.take i).count bases[i] < (bases.take j).count bases[i] := by
  have hsub : (bases.take (i + 1)).count bases[i] ≤ (bases.take j).count bases[i] :=
    (take_sublist_take_left hij).count_le _
  rwa [take_succ_eq_append_getElem (Nat.lt_trans hij hj), count_append,
    count_singleton_self] at hsub

/-- No two declarations share a key: with the same name, the later one would have a
    higher number. -/
theorem nodup_assign (hbases : ∀ b ∈ bases, Unmarked b) : (assign bases).Nodup := by
  rw [nodup_iff_getElem?_ne_getElem?]
  intro i j hij hj heq
  rw [length_assign] at hj
  have hi := Nat.lt_trans hij hj
  rw [getElem?_assign, getElem?_assign, getElem?_eq_getElem hi, getElem?_eq_getElem hj] at heq
  obtain ⟨hbase, hcount⟩ := next_inj (hbases _ (getElem_mem hi))
    (hbases _ (getElem_mem hj)) (Option.some.inj heq)
  rw [count_reverse, count_reverse, ← hbase] at hcount
  exact Nat.ne_of_lt (count_take_lt hij hj) hcount

/-- The key of a name says how often the name has been there. -/
theorem getElem?_assign_eq_some (h : bases[i]? = some base) :
    (assign bases)[i]? = some (if base ∈ bases.take i then
      base ++ "#" ++ toString ((bases.take (i + 1)).count base) else base) := by
  have hcount : (bases.take (i + 1)).count base = (bases.take i).count base + 1 := by
    rw [take_add_one, h]
    simp
  rw [getElem?_assign, h, Option.map_some, next, count_reverse, hcount]
  by_cases hmem : base ∈ bases.take i
  · have hpos := count_pos_iff.2 hmem
    rw [if_pos hmem, if_neg (by omega)]
  · rw [if_neg hmem, count_eq_zero.2 hmem]
    rfl

end Keys

namespace Location

/-! ## Places by key -/

theorem Index.get?_append (index : Index) (key key' : String) (l : Location) :
    Index.get? (index ++ [(key, l)]) key' =
      (index.get? key').or (if key == key' then some l else none) := by
  rw [get?, List.find?_append, map_or, find?_singleton]
  cases key == key' <;> rfl

/-- The first place that is entered under a key stays. -/
theorem Index.get?_insert (index : Index) (key key' : String) (l : Location) :
    (index.insert key l).get? key' =
      (index.get? key').or (if key == key' then some l else none) := by
  rw [insert]
  split
  · next l' hl' =>
    by_cases hkey : key = key'
    · rw [← hkey, hl', some_or]
    · rw [if_neg (by simpa using hkey), or_none]
  · exact get?_append index key key' l

theorem Index.get?_ofList (entries : List (String × Location)) (key : String) :
    (Index.ofList entries).get? key = (entries.find? (·.1 == key)).map (·.2) := by
  suffices h : ∀ index : Index,
      Index.get? (entries.foldl (fun index entry => index.insert entry.1 entry.2) index) key =
        (index.get? key).or ((entries.find? (·.1 == key)).map (·.2)) from h []
  induction entries with
  | nil => exact fun index => (or_none).symm
  | cons entry entries ih =>
    intro index
    rw [foldl_cons, ih, get?_insert, Option.or_assoc, find?_cons]
    cases entry.1 == key <;> rfl

theorem Index.ofList_eq {entries : List (String × Location)} (h : (entries.map Prod.fst).Nodup) :
    Index.ofList entries = entries := by
  suffices hall : ∀ (index : Index) (entries : List (String × Location)),
      ((index ++ entries).map Prod.fst).Nodup →
        entries.foldl (fun index entry => index.insert entry.1 entry.2) index =
          index ++ entries from
    hall [] entries h
  intro index entries
  induction entries generalizing index with
  | nil => exact fun _ => (append_nil _).symm
  | cons entry entries ih =>
    intro hnodup
    have hnone : index.get? entry.1 = none := by
      rw [map_append, nodup_append] at hnodup
      rw [get?, map_eq_none_iff, find?_eq_none]
      intro e he
      rw [beq_iff_eq]
      exact hnodup.2.2 _ (mem_map_of_mem he) _ mem_cons_self
    rw [append_cons] at hnodup ⊢
    rw [foldl_cons, insert, hnone]
    exact ih (index ++ [entry]) hnodup

variable {bases : List String} {places : List Location} {key : String}

/-- The place of a declaration is found under its key. -/
theorem get?_assign (hlength : bases.length = places.length) (hbases : ∀ b ∈ bases, Keys.Unmarked b)
    (hkey : (Keys.assign bases)[i]? = some key) :
    (Index.ofList ((Keys.assign bases).zip places)).get? key = places[i]? := by
  obtain ⟨hi, rfl⟩ := List.getElem?_eq_some_iff.1 hkey
  have hi' : i < places.length := by rwa [← hlength, ← Keys.length_assign bases]
  have hzip : i < ((Keys.assign bases).zip places).length := by
    rw [length_zip]
    exact Nat.lt_min.2 ⟨hi, hi'⟩
  have hfind : ((Keys.assign bases).zip places).find? (·.1 == (Keys.assign bases)[i]) =
      some ((Keys.assign bases)[i], places[i]) := by
    -- Entries before the place have other keys, so it is the first one found.
    refine find?_eq_some_iff_getElem.2 ⟨beq_self_eq_true _, i, hzip, getElem_zip, ?_⟩
    intro j hj
    rw [getElem_zip, Bool.not_eq_true', beq_eq_false_iff_ne]
    intro h
    exact Nat.ne_of_lt hj ((Keys.nodup_assign hbases).getElem_inj_iff.1 h)
  rw [Index.get?_ofList, hfind, getElem?_eq_getElem hi']
  rfl

/-- Every key is found, at one of the places. -/
theorem get?_of_mem_assign (hlength : bases.length = places.length)
    (hkey : key ∈ Keys.assign bases) :
    ∃ l ∈ places, (Index.ofList ((Keys.assign bases).zip places)).get? key = some l := by
  obtain ⟨i, hi, rfl⟩ := mem_iff_getElem.1 hkey
  have hi' : i < places.length := by rwa [← hlength, ← Keys.length_assign bases]
  have hmem : ((Keys.assign bases)[i], places[i]) ∈ (Keys.assign bases).zip places := by
    refine mem_iff_getElem.2 ⟨i, ?_, getElem_zip⟩
    rw [length_zip]
    exact Nat.lt_min.2 ⟨hi, hi'⟩
  have hsome : (((Keys.assign bases).zip places).find?
      (·.1 == (Keys.assign bases)[i])).isSome :=
    find?_isSome.2 ⟨_, hmem, beq_self_eq_true _⟩
  obtain ⟨entry, hentry⟩ := isSome_iff_exists.1 hsome
  refine ⟨entry.2, (of_mem_zip (mem_of_find?_eq_some hentry)).2, ?_⟩
  rw [Index.get?_ofList, hentry]
  rfl

/-- Names without the sign of numbers get different keys: a name itself where it is there for the
    first time, and with its number from then on. So every place is entered, in order, and found
    under its own key. -/
theorem keys_keep_places (decls : List (String × Location)) (h : ∀ d ∈ decls, '#' ∉ d.1.toList) :
    let keys := Keys.assign (decls.map Prod.fst)
    let index := Index.ofList (keys.zip (decls.map Prod.snd))
    keys.Nodup ∧ index = keys.zip (decls.map Prod.snd) ∧
    ∀ i d, decls[i]? = some d → ∃ key, keys[i]? = some key ∧ index.get? key = some d.2 ∧
      key = if d.1 ∈ (decls.take i).map Prod.fst then
        d.1 ++ "#" ++ toString (((decls.take (i + 1)).map Prod.fst).count d.1) else d.1 := by
  intro keys index
  have hlength : (decls.map Prod.fst).length = (decls.map Prod.snd).length := by
    rw [length_map, length_map]
  have hbases : ∀ b ∈ decls.map Prod.fst, Keys.Unmarked b := by
    intro b hb
    obtain ⟨d, hd, rfl⟩ := mem_map.1 hb
    exact Keys.unmarked_of_not_mem (h d hd)
  have hnodup : keys.Nodup := Keys.nodup_assign hbases
  refine ⟨hnodup, Index.ofList_eq ?_, fun i d hd => ?_⟩
  · rwa [map_fst_zip (Nat.le_of_eq ((Keys.length_assign _).trans hlength))]
  · have hbase : (decls.map Prod.fst)[i]? = some d.1 := by rw [getElem?_map, hd, Option.map_some]
    have hkey := Keys.getElem?_assign_eq_some hbase
    refine ⟨_, hkey, ?_, by rw [map_take, map_take]⟩
    rw [get?_assign hlength hbases hkey, getElem?_map, hd, Option.map_some]

/-- A function that is declared three times, with another name in between. -/
theorem keys_keep_places_repeated :
    let decls : List (String × Location) := [("init", ⟨0, 0, 9, {}⟩), ("_", ⟨0, 10, 15, {}⟩),
      ("init", ⟨1, 0, 9, {}⟩), ("init", ⟨1, 10, 19, {}⟩)]
    Keys.assign (decls.map Prod.fst) = ["init", "_", "init#2", "init#3"] ∧
    (Index.ofList ((Keys.assign (decls.map Prod.fst)).zip (decls.map Prod.snd))).get? "init#2" =
      some ⟨1, 0, 9, {}⟩ := by
  intro decls
  have hkeys : Keys.assign (decls.map Prod.fst) = ["init", "_", "init#2", "init#3"] := by
    decide +kernel
  obtain ⟨-, -, hplaces⟩ := keys_keep_places decls (by decide +kernel)
  obtain ⟨key, hkey, hget, -⟩ := hplaces 2 _ rfl
  rw [hkeys] at hkey
  cases hkey
  exact ⟨hkeys, hget⟩

end Location

end CodeAtlas
