import Mathlib.Data.List.Chain
import CodeAtlas.Proofs.Encoding
import CodeAtlas.Proofs.Record
import CodeAtlas.Proofs.Writing

/-!
# Configurations that are saved

A configuration is written with all its fields, so that no default is used when it is read
again (`ofJson?_toJson`). What is done to a configuration behind reading changes nothing in it
if it names a language and no language twice in a row (`Settled.normalized_eq`). Such a
configuration (`Settled`) is therefore what its own text describes (`Settled.ofText_text`).

What is loaded is always of this kind (`settled_ofText`): for the numbers this is due to the
reader, which makes no natural number of more than 64 bits (`sized_of_readChars?`).
-/

namespace CodeAtlas

open List

variable {j : Json} {d : Disk} {path : String} {fs : Fields}

namespace Json

/-! ## What the reader makes -/

/-- All natural numbers in the value have 64 bits. -/
inductive Sized : Json → Prop
  | null : Sized .null
  | bool (b : Bool) : Sized (.bool b)
  | nat {n : Nat} : n < wordLimit → Sized (.nat n)
  | negative (n : Nat) : Sized (.negative n)
  | decimal (text : String) : Sized (.decimal text)
  | str (s : String) : Sized (.str s)
  | arr {items : List Json} : (∀ j ∈ items, Sized j) → Sized (.arr items)
  | obj {members : List (String × Json)} : (∀ m ∈ members, Sized m.2) → Sized (.obj members)

variable {n limit : Nat} {s rest : List Char} {key : String}

/-- What a number is kept as, `whole` if it has neither a fraction nor an exponent. -/
theorem sized_number (whole minus : Bool) (n : Nat) (text : String) :
    Sized (if whole then
        if minus then if 0 < n && n ≤ wordLimit / 2 then .negative n else .decimal text
        else if n < wordLimit then .nat n else .decimal text
      else .decimal text) := by
  repeat' split
  · exact .negative n
  · exact .decimal text
  · next hlt => exact .nat hlt
  · exact .decimal text
  · exact .decimal text

theorem sized_of_readNumber? (h : readNumber? s = some (j, rest)) : Sized j := by
  rw [readNumber?.eq_def] at h
  dsimp only at h
  -- The same of a number with a sign and of one without.
  split at h
  all_goals
    split at h
    · cases h
    split at h
    · cases h
    split at h
    · cases h
    · cases h
      exact sized_number ..

theorem sized_of_readWord? {word : List Char} {value : Json} (hvalue : Sized value)
    (h : readWord? word value s = some (j, rest)) : Sized j := by
  rw [readWord?] at h
  split at h
  · cases h
    exact hvalue
  · cases h

theorem sized_of_readItems? {items : List Json}
    (hstep : ∀ s j rest, readValue? n limit s = some (j, rest) → Sized j)
    (hmore : ∀ s items rest, readItems? n limit s = some (items, rest) → ∀ j ∈ items, Sized j)
    (h : readItems? (n + 1) limit s = some (items, rest)) : ∀ j ∈ items, Sized j := by
  rw [readItems?] at h
  split at h
  · cases h
  next item _ hitem =>
    split at h
    · obtain ⟨⟨more, _⟩, hread, heq⟩ := Option.map_eq_some_iff.1 h
      cases heq
      exact forall_mem_cons.2 ⟨hstep _ _ _ hitem, hmore _ _ _ hread⟩
    · cases h
      exact forall_mem_singleton.2 (hstep _ _ _ hitem)
    · cases h

theorem sized_of_readMembers? {members : List (String × Json)}
    (hstep : ∀ s j rest, readValue? n limit s = some (j, rest) → Sized j)
    (hmore : ∀ s members rest, readMembers? n limit s = some (members, rest) →
      ∀ m ∈ members, Sized m.2)
    (h : readMembers? (n + 1) limit s = some (members, rest)) : ∀ m ∈ members, Sized m.2 := by
  rw [readMembers?.eq_def] at h
  dsimp only at h
  split at h
  · split at h
    · cases h
    split at h
    · split at h
      · cases h
      next value _ hvalue =>
        split at h
        · obtain ⟨⟨more, _⟩, hread, heq⟩ := Option.map_eq_some_iff.1 h
          cases heq
          exact forall_mem_cons.2 ⟨hstep _ _ _ hvalue, hmore _ _ _ hread⟩
        · cases h
          exact forall_mem_singleton.2 (hstep _ _ _ hvalue)
        · cases h
    · cases h
  · cases h

theorem sized_of_readValue?
    (hitems : ∀ limit s items rest, readItems? n limit s = some (items, rest) →
      ∀ j ∈ items, Sized j)
    (hmembers : ∀ limit s members rest, readMembers? n limit s = some (members, rest) →
      ∀ m ∈ members, Sized m.2) (h : readValue? (n + 1) limit s = some (j, rest)) : Sized j := by
  rw [readValue?.eq_def] at h
  dsimp only at h
  split at h
  · cases h
  split at h
  · obtain ⟨_, _, heq⟩ := Option.map_eq_some_iff.1 h
    cases heq
    exact .str _
  split at h
  · split at h
    · cases h
    split at h
    · cases h
      exact .arr (forall_mem_nil _)
    · obtain ⟨⟨items, _⟩, hread, heq⟩ := Option.map_eq_some_iff.1 h
      cases heq
      exact .arr (hitems _ _ _ _ hread)
  split at h
  · split at h
    · cases h
    split at h
    · cases h
      exact .obj (forall_mem_nil _)
    · obtain ⟨⟨members, _⟩, hread, heq⟩ := Option.map_eq_some_iff.1 h
      cases heq
      exact .obj (hmembers _ _ _ _ hread)
  split at h
  · exact sized_of_readWord? .null h
  split at h
  · exact sized_of_readWord? (.bool _) h
  split at h
  · exact sized_of_readWord? (.bool _) h
  · exact sized_of_readNumber? h

/-- Values, items and members that are read, by induction on the steps left to the reader. -/
theorem sized_of_read (n : Nat) :
    (∀ limit s j rest, readValue? n limit s = some (j, rest) → Sized j) ∧
      (∀ limit s items rest, readItems? n limit s = some (items, rest) → ∀ j ∈ items, Sized j) ∧
      ∀ limit s members rest, readMembers? n limit s = some (members, rest) →
        ∀ m ∈ members, Sized m.2 := by
  induction n with
  | zero =>
    refine ⟨?_, ?_, ?_⟩ <;> intro _ _ _ _ h <;> cases h
  | succ n ih =>
    obtain ⟨hvalue, hitems, hmembers⟩ := ih
    exact ⟨fun _ _ _ _ => sized_of_readValue? hitems hmembers,
      fun limit _ _ _ => sized_of_readItems? (hvalue limit) (hitems limit),
      fun limit _ _ _ => sized_of_readMembers? (hvalue limit) (hmembers limit)⟩

theorem sized_of_readChars? (h : readChars? s = some j) : Sized j := by
  rw [readChars?] at h
  split at h
  · next value rest hread =>
    split at h
    · cases h
      exact (sized_of_read _).1 _ _ _ _ hread
    · cases h
  · cases h

/-! ## Fields -/

theorem mem_of_member? {v : Json} (h : member? key fs = some v) : (key, v) ∈ fs := by
  induction fs with
  | nil => cases h
  | cons x fs ih =>
    obtain ⟨k, w⟩ := x
    rw [member?] at h
    split at h
    · next hk =>
      cases h
      exact hk ▸ mem_cons_self
    · exact mem_cons_of_mem _ (ih h)

theorem Sized.of_mem_fields? (hj : Sized j) {names : List String} (h : fields? names j = some fs)
    {m : String × Json} (hm : m ∈ fs) : Sized m.2 := by
  cases hj with
  | arr hitems =>
    rw [fields?] at h
    split at h
    · cases h
      exact hitems _ (of_mem_zip hm).2
    · cases h
  | obj hmembers =>
    rw [fields?] at h
    split at h
    · cases h
      exact hmembers _ hm
    · cases h
  | null | bool | nat | negative | decimal | str => cases h

theorem lt_of_withDefault_asNat? {fallback k : Nat} (hfallback : fallback < wordLimit)
    (hfs : ∀ m ∈ fs, Sized m.2) (h : withDefault fallback asNat? key fs = some k) :
    k < wordLimit := by
  rw [withDefault] at h
  split at h
  · cases h
    exact hfallback
  · next value hvalue =>
    have hsized := hfs _ (mem_of_member? hvalue)
    cases value with
    | nat n =>
      cases h
      cases hsized with
      | nat hlt => exact hlt
    | null | bool | negative | decimal | str | arr | obj => cases h

theorem asList?_strings {α : Type} {read : Json → Option α} {word : α → String}
    (h : ∀ a, read (.str (word a)) = some a) (as : List α) :
    asList? read (strings (as.map word)) = some as := by
  rw [strings, asList?]
  induction as with
  | nil => rfl
  | cons a as ih =>
    rw [map_cons, map_cons, mapM_cons, h, ih]
    rfl

theorem depthItems_strings (ss : List String) : depthItems (ss.map .str) = 0 := by
  induction ss with
  | nil => rfl
  | cons s ss ih => simp [depthItems, depth, ih]

end Json

theorem Language.ofWord?_word (l : Language) : ofWord? l.word = some l := by
  cases l <;> rfl

namespace Config

open Json

variable (c : Config) {ls : List Language}

/-! ## Writing and reading -/

theorem goOfJson?_object (b : Bool) : goOfJson? (.obj [("exported_only", .bool b)]) = some b := by
  cases b <;> rfl

theorem givenOnce_toJson : givenOnce fieldNames c.toJson.membersOf := by
  have hkeys : c.toJson.membersOf.map Prod.fst = fieldNames := rfl
  exact givenOnce_of_sublist (by decide) (hkeys ▸ List.Sublist.refl fieldNames)

/-- A configuration is made again from what it is written as, and no default is used. -/
theorem ofJson?_toJson : ofJson? c.toJson = some c := by
  have hfields : fields? fieldNames c.toJson = some c.toJson.membersOf := by
    change (if givenOnce fieldNames c.toJson.membersOf then some c.toJson.membersOf else none) = _
    rw [if_pos c.givenOnce_toJson]
  have hlanguages : asList? (asWord? Language.ofWord?) (strings (c.languages.map Language.word)) =
      some c.languages := asList?_strings Language.ofWord?_word _
  have hstrings : ∀ ss : List String, asList? asString? (strings ss) = some ss := fun ss => by
    have hid : ∀ s : String, asString? (.str (id s)) = some s := fun _ => rfl
    simpa using asList?_strings hid ss
  rw [ofJson?, bind_of_eq_some hfields]
  simp [toJson, membersOf, withDefault, member?, asBool?, asNat?, hlanguages, hstrings,
    goOfJson?_object]

theorem depth_toJson : c.toJson.depth = 2 := by
  simp [toJson, strings, depth, depthMembers, depthItems_strings, -map_map]

/-- The configuration names a language and none twice in a row, and its number has 64 bits. -/
structure Settled : Prop where
  named : c.languages ≠ []
  apart : c.languages.IsChain (· ≠ ·)
  sized : c.maxFileBytes < wordLimit

variable {c}

theorem Settled.of_mem_membersOf (h : c.Settled) : ∀ m ∈ c.toJson.membersOf, m.2.Plain := by
  have hgo : (Json.obj [("exported_only", .bool c.exportedOnly)]).Plain :=
    .obj (pairwise_singleton _ _) (forall_mem_singleton.2 (.bool _))
  simp only [toJson, membersOf, forall_mem_cons]
  exact ⟨.bool _, .bool _, plain_strings _, plain_strings _, plain_strings _, plain_strings _,
    .bool _, hgo, .nat h.sized, forall_mem_nil _⟩

theorem Settled.read_text (h : c.Settled) : readChars? c.text.toList = some c.toJson := by
  have hread := readChars?_write h.of_mem_membersOf .spread
  have hobj : Json.obj c.toJson.membersOf = c.toJson := rfl
  rw [hobj, depth_toJson, if_pos (by decide)] at hread
  rw [text, pretty, String.toList_ofList, prettyChars_eq, hread]

/-! ## Languages without repeats -/

theorem dropRepeats_of_apart (h : ls.IsChain (· ≠ ·)) : dropRepeats ls = ls := by
  fun_induction dropRepeats ls with
  | case1 a rest ih => exact absurd rfl (isChain_cons_cons.1 h).1
  | case2 a b rest hne ih => rw [ih (isChain_cons_cons.1 h).2]
  | case3 short => rfl

theorem head?_dropRepeats (ls : List Language) : (dropRepeats ls).head? = ls.head? := by
  fun_induction dropRepeats ls with
  | case1 a rest ih => rw [ih]; rfl
  | case2 a b rest hne ih => rfl
  | case3 short => rfl

theorem apart_dropRepeats (ls : List Language) : (dropRepeats ls).IsChain (· ≠ ·) := by
  fun_induction dropRepeats ls with
  | case1 a rest ih => exact ih
  | case2 a b rest hne ih =>
    refine isChain_cons.2 ⟨fun y hy => ?_, ih⟩
    rw [head?_dropRepeats] at hy
    cases hy
    exact hne
  | case3 short hshort =>
    rcases short with _ | ⟨a, _ | ⟨b, rest⟩⟩
    · exact .nil
    · exact .singleton a
    · exact absurd rfl (hshort a b rest)

theorem dropRepeats_ne_nil (h : ls ≠ []) : dropRepeats ls ≠ [] := by
  rw [ne_eq, ← head?_eq_none_iff, head?_dropRepeats, head?_eq_none_iff]
  exact h

theorem Settled.normalized_eq (h : c.Settled) : c.normalized = c := by
  have hempty : ¬ c.languages.isEmpty := by simpa using h.named
  rw [normalized, if_neg hempty, dropRepeats_of_apart h.apart]

theorem settled_normalized (h : c.maxFileBytes < wordLimit) : c.normalized.Settled := by
  refine ⟨dropRepeats_ne_nil ?_, apart_dropRepeats _, h⟩
  split
  · exact cons_ne_nil _ _
  · next hempty => simpa using hempty

/-! ## Texts and files -/

theorem Settled.ofText_text (h : c.Settled) : ofText c.text.toList = c := by
  rw [ofText, h.read_text, Option.bind_some, ofJson?_toJson]
  exact h.normalized_eq

theorem settled_default : ({} : Config).Settled :=
  ⟨by decide, by decide, by decide⟩

theorem sized_of_ofJson? (hj : j.Sized) (h : ofJson? j = some c) : c.maxFileBytes < wordLimit := by
  simp only [ofJson?, Option.bind_eq_bind, Option.bind_eq_some_iff] at h
  obtain ⟨fs, hfields, _, _, _, _, _, _, _, _, _, _, _, _, _, _, _, _, size, hsize, heq⟩ := h
  cases heq
  exact lt_of_withDefault_asNat? (by decide) (fun _ => hj.of_mem_fields? hfields) hsize

/-- Whatever a text says, the configuration that is made of it is settled. -/
theorem settled_ofText (s : List Char) : (ofText s).Settled := by
  rw [ofText]
  split
  · next c h =>
    obtain ⟨j, hj, hc⟩ := Option.bind_eq_some_iff.1 h
    exact settled_normalized (sized_of_ofJson? (sized_of_readChars? hj) hc)
  · exact settled_default

theorem settled_of_load (h : load d path = .ok c) : c.Settled := by
  rw [load] at h
  generalize (if path.isEmpty then defaultFile else path) = file at h
  split at h
  · split at h
    · cases h
      exact settled_ofText _
    · cases h
  · cases h
    exact settled_default

theorem save_eq_ok {d' : Disk} :
    c.save d path = .ok d' ↔ d.write path (bytesOf c.text) = .ok d' := by
  rw [save]
  split
  · next hwrite => rw [hwrite, Except.ok.injEq, Except.ok.injEq]
  · next hwrite => simp [hwrite]

theorem exists_save_iff : (∃ d', c.save d path = .ok d') ↔ d.Writable path := by
  simp only [save_eq_ok, Disk.write_eq_ok]
  constructor
  · rintro ⟨_, names, name, inner, htarget, _⟩
    exact ⟨names, name, inner, htarget⟩
  · rintro ⟨names, name, inner, htarget⟩
    exact ⟨_, names, name, inner, htarget, rfl⟩

theorem Settled.load_of_save (h : c.Settled) {d' : Disk} (hsave : c.save d path = .ok d') :
    load d' path = .ok c := by
  have hwrite := save_eq_ok.1 hsave
  obtain ⟨_, _, _, htarget⟩ := exists_save_iff.1 ⟨d', hsave⟩
  have hpath : ¬ path.isEmpty := by simpa using htarget.path_ne_empty
  have htext : d'.readText path = .ok c.text.toList := by
    rw [Disk.readText, Disk.read_of_write hwrite]
    simp only [Text.decode?_bytesOf]
  rw [load, if_neg hpath]
  simp only [Disk.exists?_of_write hwrite, if_true, htext, h.ofText_text]

/-- A configuration that names languages, none twice in a row, or that was loaded from some file
    whatever stood in it, is saved wherever a file can be written, and is then loaded from there
    as it was. -/
theorem save_load_roundTrip (c : Config)
    (h : (c.languages ≠ [] ∧ c.languages.IsChain (· ≠ ·) ∧ c.maxFileBytes < wordLimit) ∨
      ∃ origin file, load origin file = .ok c) (d : Disk) (path : String) :
    ((∃ d', c.save d path = .ok d') ↔ d.Writable path) ∧
      ∀ d', c.save d path = .ok d' → load d' path = .ok c := by
  have hsettled : c.Settled := by
    rcases h with ⟨hnamed, hapart, hsized⟩ | ⟨origin, file, hload⟩
    · exact ⟨hnamed, hapart, hsized⟩
    · exact settled_of_load hload
  exact ⟨exists_save_iff, fun d' => hsettled.load_of_save⟩

/-- A file that is no JSON, and one that names no language. -/
def shelf : Disk where
  root := .file "bare.json" (bytesOf "[true, true, [], [], [], [], true, [], 7]")
    (.file "torn.json" (bytesOf "[") .empty)

/-- No file, a torn one and one without languages; and a configuration that was never loaded
    takes the place of one of them. -/
theorem save_load_roundTrip_shelf :
    (load shelf "none.json" = .ok {} ∧ load shelf "torn.json" = .ok {} ∧
      load shelf "bare.json" = .ok { includeTests := true, maxFileBytes := 7 }) ∧
    (∀ c ∈ [({} : Config), { includeTests := true, maxFileBytes := 7 },
        { languages := [.php, .go, .php], exclude := ["\"*\\"], routeFiles := [""],
          maxFileBytes := 0 }],
      ∃ d', c.save shelf "torn.json" = .ok d' ∧ load d' "torn.json" = .ok c) := by
  have hnone : load shelf "none.json" = .ok {} := rfl
  have htorn : load shelf "torn.json" = .ok {} := rfl
  have hbare : load shelf "bare.json" = .ok { includeTests := true, maxFileBytes := 7 } := rfl
  have hwritable : shelf.Writable "torn.json" :=
    ⟨[], "torn.json", shelf.root, ⟨[], rfl, rfl⟩, by decide, rfl, fun _ h => by cases h⟩
  have hkept : ∀ c : Config,
      ((c.languages ≠ [] ∧ c.languages.IsChain (· ≠ ·) ∧ c.maxFileBytes < wordLimit) ∨
        ∃ origin file, load origin file = .ok c) →
      ∃ d', c.save shelf "torn.json" = .ok d' ∧ load d' "torn.json" = .ok c := by
    intro c hc
    obtain ⟨hiff, hload⟩ := save_load_roundTrip c hc shelf "torn.json"
    obtain ⟨d', hsave⟩ := hiff.2 hwritable
    exact ⟨d', hsave, hload d' hsave⟩
  refine ⟨⟨hnone, htorn, hbare⟩, ?_⟩
  simp only [forall_mem_cons]
  exact ⟨hkept _ (.inr ⟨_, _, htorn⟩), hkept _ (.inr ⟨_, _, hbare⟩),
    hkept _ (.inl ⟨by decide, by decide, by decide⟩), forall_mem_nil _⟩

end Config

end CodeAtlas
