import CodeAtlas.Proofs.Python.Header

/-!
# Reserved words as names

A line gives its first word a type or a value if a colon or a single equals sign follows it
(`Binds`). If the word is none of `keywords`, it becomes the name of a constant, a variable or
a field. That list is shorter than the one of the reserved words (`reserved`), and lacks two
words that a colon follows by the grammar: `try` and `finally`. With a statement on the same
line, such a clause is taken for an annotation.

* `exists_assigned?_iff`: when a line gives something to a name;
* `reserved_name_iff`: when a reserved word becomes a name.
-/

namespace CodeAtlas.Python

open Text List

variable {w : String} {code name rest : List Char}

/-- The reserved words of Python. -/
def reserved : List String :=
  ["False", "None", "True", "and", "as", "assert", "async", "await", "break", "class", "continue",
   "def", "del", "elif", "else", "except", "finally", "for", "from", "global", "if", "import", "in",
   "is", "lambda", "nonlocal", "not", "or", "pass", "raise", "return", "try", "while", "with",
   "yield"]

/-! ## What follows a name -/

/-- What follows a name gives it something: a value behind a single equals sign, or a type
    behind a colon. The first equals sign in the type, if it does not come at once, is single
    too, with a value behind it. -/
def gives : List Char → Bool
  | '=' :: value => (trimStart value).head? != some '='
  | ':' :: type =>
    !(trimStart type).isEmpty && ((type.takeWhile (· != '=')).isEmpty ||
      (trimStart (type.dropWhile (· != '=')).tail).head? != some '=')
  | _ => false

/-- The line starts with the name, and gives it a value or a type. -/
def Binds (name code : List Char) : Prop :=
  ∃ rest, code = name ++ rest ∧ (∀ c ∈ rest.head?, isWordChar c = false) ∧
    gives (trimStart rest) = true

theorem eq_of_name? {s : List Char} (h : name? s = some (name, rest)) :
    s = name ++ rest ∧ ∀ c ∈ rest.head?, isWordChar c = false := by
  cases s with
  | nil => cases h
  | cons c s =>
    rw [name?] at h
    split at h
    · cases h
      refine ⟨congrArg (c :: ·) takeWhile_append_dropWhile.symm, fun d hd => ?_⟩
      have hhead := head?_dropWhile_not isWordChar s
      rw [Option.mem_def.1 hd] at hhead
      simpa using hhead
    · cases h

/-- What a line gives a value or a type to, be it a name or a word that is none. -/
def given? (code : List Char) : Option Assigned :=
  match assignment? code with
  | some a => if a.value.head? == some '=' then none else some a
  | none => typed? code

theorem map_name_given? (h : name? code = some (name, rest)) :
    (given? code).map (·.name) = if gives (trimStart rest) then some name else none := by
  rw [given?, assignment?, typed?, h]
  simp only [Option.bind_eq_bind, Option.bind_some]
  generalize trimStart rest = s
  rcases s with _ | ⟨c, s⟩
  · simp [gives, strip?]
  · by_cases heq : c = '='
    · subst heq
      by_cases hvalue : (trimStart s).head? = some '=' <;> simp [gives, hvalue]
    · by_cases hcolon : c = ':'
      · subst hcolon
        simp only [gives, drop_length_takeWhile]
        cases hdrop : s.dropWhile (· != '=') with
        | nil =>
          have hnil : trimStart [] = [] := rfl
          by_cases hblank : trimStart s = [] <;> simp [strip?, hblank, hnil]
        | cons d value =>
          obtain rfl : d = '=' := by
            have hhead := head?_dropWhile_not (· != '=') s
            simpa [hdrop] using hhead
          have hfull : trimStart s ≠ [] := by
            rw [trimStart, ne_eq, dropWhile_eq_nil_iff]
            intro hblank
            have hmem : '=' ∈ s := (dropWhile_sublist _).subset (hdrop ▸ mem_cons_self)
            cases hblank '=' hmem
          by_cases htype : s.takeWhile (· != '=') = []
          · simp [strip?, htype, hfull]
          · by_cases hvalue : (trimStart value).head? = some '=' <;> simp [htype, hfull, hvalue]
      · simp [gives, strip?, heq, hcolon, Ne.symm hcolon]

theorem assigned?_eq (code : List Char) :
    assigned? code = (given? code).bind fun a =>
      if keywords.contains (String.ofList a.name) then none
      else some ⟨a.name, collapse a.type, collapse a.value⟩ := by
  rw [assigned?, given?]
  cases assignment? code with
  | none => rfl
  | some a => dsimp only; split <;> rfl

/-- A line gives something to a name if it starts with it, and the name is no keyword. -/
theorem exists_assigned?_iff (hname : IsWord name) (hstart : name.head?.any isNameStart) :
    (∃ a, assigned? code = some a ∧ a.name = name) ↔
      String.ofList name ∉ keywords ∧ Binds name code := by
  simp only [assigned?_eq, Option.bind_eq_some_iff]
  constructor
  · rintro ⟨_, ⟨a, ha, hb⟩, rfl⟩
    split at hb
    · cases hb
    · next hkeyword =>
      cases hb
      cases hread : name? code with
      | none => simp [given?, assignment?, typed?, hread] at ha
      | some x =>
        obtain ⟨n, rest⟩ := x
        have hmap := map_name_given? hread
        obtain ⟨hcode, hrest⟩ := eq_of_name? hread
        rw [ha] at hmap
        split at hmap
        · next hgives =>
          cases hmap
          exact ⟨by simpa using hkeyword, rest, hcode, hrest, hgives⟩
        · cases hmap
  · rintro ⟨hkeyword, rest, rfl, hrest, hgives⟩
    have hread := name?_append hname hrest
    rw [if_pos hstart] at hread
    have hmap := map_name_given? hread
    rw [if_pos hgives] at hmap
    obtain ⟨a, ha, rfl⟩ := Option.map_eq_some_iff.1 hmap
    exact ⟨_, ⟨a, ha, if_neg (by simpa using hkeyword)⟩, rfl⟩

/-! ## Reserved words -/

/-- The reserved words that are no keywords here. -/
def unlisted : List String :=
  ["False", "None", "True", "async", "break", "continue", "finally", "global", "nonlocal", "pass",
   "try"]

theorem mem_unlisted (hw : w ∈ reserved) (hkeyword : w ∉ keywords) : w ∈ unlisted := by
  have hall : reserved.all (fun w => keywords.contains w || unlisted.contains w) := by
    decide +kernel
  have h := all_eq_true.1 hall w hw
  simpa [hkeyword] using h

theorem isWord_of_mem_reserved (hw : w ∈ reserved) :
    IsWord w.toList ∧ w.toList.head?.any isNameStart := by
  have hall : reserved.all (fun w => !w.toList.isEmpty && w.toList.all isWordChar &&
      w.toList.head?.any isNameStart) := by decide +kernel
  have h := all_eq_true.1 hall w hw
  simp only [Bool.and_eq_true, all_eq_true] at h
  exact ⟨⟨by simpa using h.1.1, h.1.2⟩, h.2⟩

/-- A line that gives something to such a word declares nothing else. -/
theorem passed_of_binds (hw : w ∈ unlisted) (h : Binds w.toList code) :
    classHeader? code = none ∧ defHeader? code = none ∧ imports? code = none := by
  obtain ⟨rest, rfl, hrest, hgives⟩ := h
  simp only [unlisted, mem_cons, not_mem_nil, or_false] at hw
  have hasync : defHeader? ("async".toList ++ rest) = none := by
    have hdef : ∀ s, gives s → afterWord? "def" s = none := by
      intro s hs
      rw [gives.eq_def] at hs
      split at hs
      · rfl
      · rfl
      · cases hs
    cases rest with
    | nil => cases hgives
    | cons c rest =>
      have hread : afterWord? "async" ("async".toList ++ c :: rest) =
          if isBlank c then some (trimStart rest) else none := rfl
      have hother : afterWord? "def" ("async".toList ++ c :: rest) = none := rfl
      rw [trimStart, dropWhile_cons] at hgives
      cases hc : isBlank c with
      | true =>
        rw [hc] at hgives
        simp [defHeader?, hread.trans (if_pos hc), hdef (trimStart rest) hgives,
          -String.reduceToList]
      | false =>
        rw [hc] at hread
        simp [defHeader?, hread, hother, -String.reduceToList]
  rcases hw with rfl | rfl | rfl | rfl | rfl | rfl | rfl | rfl | rfl | rfl | rfl
  case inr.inr.inr.inl => exact ⟨rfl, hasync, rfl⟩
  all_goals exact ⟨rfl, rfl, rfl⟩

/-- A statement makes a value or a field of a reserved word if it gives something to it, and the
    word is no keyword. -/
theorem exists_value?_iff (s : Script) (hw : w ∈ reserved) (d : Declared) :
    ((∃ b, d.value? s = some b ∧ b.name = w) ↔ w ∉ keywords ∧ Binds w.toList d.head.code) ∧
      ((∃ f, d.field? = some f ∧ f.name = w) ↔ w ∉ keywords ∧ Binds w.toList d.head.code) := by
  obtain ⟨hword, hstart⟩ := isWord_of_mem_reserved hw
  have hassigned : (∃ a, assigned? d.head.code = some a ∧ a.name = w.toList) ↔ _ :=
    exists_assigned?_iff hword hstart
  rw [String.ofList_toList] at hassigned
  have hname : ∀ name, String.ofList name = w → name = w.toList := by
    rintro name rfl
    exact String.toList_ofList.symm
  have hpassed (h : w ∉ keywords ∧ Binds w.toList d.head.code) :
      d.head.opensBlock = false ∧ imports? d.head.code = none := by
    obtain ⟨hclass, hdef, himports⟩ := passed_of_binds (mem_unlisted hw h.1) h.2
    exact ⟨by simp [LogicalLine.opensBlock, hclass, hdef], himports⟩
  refine ⟨⟨?_, fun h => ?_⟩, ⟨?_, fun h => ?_⟩⟩
  · rintro ⟨b, hb, rfl⟩
    rw [Declared.value?] at hb
    split at hb
    · cases hb
    · obtain ⟨a, ha, ⟨⟩⟩ := Option.bind_eq_some_iff.1 hb
      exact hassigned.1 ⟨a, ha, hname _ rfl⟩
  · obtain ⟨a, ha, haname⟩ := hassigned.2 h
    obtain ⟨hopens, himports⟩ := hpassed h
    simp [Declared.value?, hopens, himports, bindingOf?, ha, haname]
  · rintro ⟨f, hf, rfl⟩
    rw [Declared.field?] at hf
    split at hf
    · cases hf
    · obtain ⟨a, ha, rfl⟩ := Option.map_eq_some_iff.1 hf
      exact hassigned.1 ⟨a, ha, hname _ rfl⟩
  · obtain ⟨a, ha, haname⟩ := hassigned.2 h
    simp [Declared.field?, (hpassed h).1, ha, haname]

/-! ## The names of an outline -/

/-- A constant, a variable or a field of a class has the name. -/
def Names (o : Outline) (name : String) : Prop :=
  (∃ b ∈ o.constants ++ o.vars, b.name = name) ∨ ∃ t ∈ o.types, ∃ f ∈ t.fields, f.name = name

/-- A statement at the top of a module, or in the body of a class there. -/
def IsRead (path : String) (text : List Char) (d : Declared) : Prop :=
  d ∈ statementsOf (lines text) ∨ ∃ c ∈ statementsOf (lines text),
    (classHeader? c.head.code).isSome ∧ d ∈ bodyOf ⟨Path.slashed path, lines text⟩ c

theorem IsRead.head_mem {path : String} {text : List Char} {d : Declared}
    (h : IsRead path text d) : d.head ∈ logicalLines (lines text) := by
  rcases h with hd | ⟨c, hc, -, hd⟩
  · exact subset_of_mem_statementsIn d hd mem_cons_self
  · exact mem_of_mem_block c hc _ (subset_of_mem_statementsIn d hd mem_cons_self)

theorem names_outline_iff (path : String) (text : List Char) (hw : w ∈ reserved) :
    Names (outline path text) w ↔
      w ∉ keywords ∧ ∃ d, IsRead path text d ∧ Binds w.toList d.head.code := by
  obtain ⟨_, _, _, _, h, -⟩ := outline_eq path text
  have hmade := exists_value?_iff ⟨Path.slashed path, lines text⟩ hw
  have hfields (c : Declared) (header : ClassHeader) :=
    (classOf_eq ⟨Path.slashed path, lines text⟩ c header).1
  have htypes := congrArg Outline.types h
  rw [Names, htypes]
  constructor
  · rintro (⟨b, hb, hname⟩ | ⟨t, ht, f, hf, hname⟩)
    · obtain ⟨d, hd, hb⟩ := mem_values_outline.1 hb
      obtain ⟨hkeyword, hbinds⟩ := (hmade d).1.1 ⟨b, hb, hname⟩
      exact ⟨hkeyword, d, .inl hd, hbinds⟩
    · obtain ⟨c, hc, ht⟩ := mem_filterMap.1 ht
      obtain ⟨header, hheader, rfl⟩ := Option.map_eq_some_iff.1 ht
      rw [hfields] at hf
      obtain ⟨d, hd, hf⟩ := mem_filterMap.1 hf
      obtain ⟨hkeyword, hbinds⟩ := (hmade d).2.1 ⟨f, hf, hname⟩
      exact ⟨hkeyword, d, .inr ⟨c, hc, by simp [hheader], hd⟩, hbinds⟩
  · rintro ⟨hkeyword, d, hd | ⟨c, hc, hclass, hd⟩, hbinds⟩
    · obtain ⟨b, hb, hname⟩ := (hmade d).1.2 ⟨hkeyword, hbinds⟩
      exact .inl ⟨b, mem_values_outline.2 ⟨d, hd, hb⟩, hname⟩
    · obtain ⟨header, hheader⟩ := Option.isSome_iff_exists.1 hclass
      obtain ⟨f, hf, hname⟩ := (hmade d).2.2 ⟨hkeyword, hbinds⟩
      refine .inr ⟨_, mem_filterMap.2 ⟨c, hc, congrArg (Option.map _) hheader⟩, f, ?_, hname⟩
      rw [hfields]
      exact mem_filterMap.2 ⟨d, hd, hf⟩

/-- What the grammar of Python says of the reserved words at the start of a line: a colon follows
    only some, and a single equals sign none. -/
def isAllowed (code : List Char) : Bool :=
  reserved.all fun w =>
    match (strip? w.toList code).map trimStart with
    | some (':' :: _) => ["else", "except", "finally", "lambda", "try"].contains w
    | some ('=' :: value) => value.head? == some '='
    | _ => true

/-- Of the words that are no keywords here, the grammar lets a colon follow two. -/
theorem of_isAllowed (h : isAllowed code) (hw : w ∈ unlisted)
    (hbinds : Binds w.toList code) : w = "try" ∨ w = "finally" := by
  have hreserved : unlisted ⊆ reserved := by decide +kernel
  have hclause : ∀ w ∈ unlisted, ["else", "except", "finally", "lambda", "try"].contains w →
      w = "try" ∨ w = "finally" := by decide +kernel
  obtain ⟨rest, rfl, -, hgives⟩ := hbinds
  have hread := all_eq_true.1 h w (hreserved hw)
  rw [strip?_eq_some_iff.2 rfl, Option.map_some] at hread
  rw [gives.eq_def] at hgives
  split at hgives
  · next value htrim =>
    rw [htrim] at hread
    obtain ⟨_, rfl⟩ := head?_eq_some_iff.1 (by simpa using hread)
    cases hgives
  · next type htrim =>
    rw [htrim] at hread
    exact hclause w hw hread
  · cases hgives

/-- A reserved word becomes a name where a line gives something to it, unless the word is one of
    `keywords`. If the lines follow the grammar, it is `try` or `finally`. -/
theorem reserved_name_iff (path : String) (text : List Char) (hw : w ∈ reserved) :
    (Names (outline path text) w ↔
        w ∉ keywords ∧ ∃ d, IsRead path text d ∧ Binds w.toList d.head.code) ∧
      ((∀ l ∈ logicalLines (lines text), isAllowed l.code) → Names (outline path text) w →
        w = "try" ∨ w = "finally") := by
  refine ⟨names_outline_iff path text hw, fun hallowed hnames => ?_⟩
  obtain ⟨hkeyword, d, hd, hbinds⟩ := (names_outline_iff path text hw).1 hnames
  exact of_isAllowed (hallowed d.head hd.head_mem) (mem_unlisted hw hkeyword) hbinds

/-- The two clauses, each on one line. -/
def clauses : List Char :=
  "try: pass\nfinally: pass\n".toList

theorem reserved_name_clauses :
    (∀ l ∈ logicalLines (lines clauses), isAllowed l.code) ∧
      Names (outline "m.py" clauses) "try" ∧ Names (outline "m.py" clauses) "finally" ∧
      ¬ Names (outline "m.py" clauses) "pass" ∧ ¬ Names (outline "m.py" clauses) "yield" := by
  have hlines : ∀ l ∈ logicalLines (lines clauses), isAllowed l.code := by decide +kernel
  have hread : (statementsOf (lines clauses)).map (·.head.code) =
      ["try".toList ++ ": pass".toList, "finally".toList ++ ": pass".toList] := by decide +kernel
  have hclause : ∀ w ∈ reserved, w ∉ keywords →
      w.toList ++ ": pass".toList ∈ (statementsOf (lines clauses)).map (·.head.code) →
      Names (outline "m.py" clauses) w := by
    intro w hw hkeyword hcode
    obtain ⟨d, hd, hcode⟩ := mem_map.1 hcode
    exact (reserved_name_iff "m.py" clauses hw).1.2
      ⟨hkeyword, d, .inl hd, ": pass".toList, hcode, by rintro _ ⟨⟩; rfl, by decide +kernel⟩
  rw [hread] at hclause
  refine ⟨hlines, hclause _ (by decide +kernel) (by decide +kernel) mem_cons_self,
    hclause _ (by decide +kernel) (by decide +kernel) (mem_cons_of_mem _ mem_cons_self),
    fun h => ?_, fun h => ?_⟩
  · have hpass := (reserved_name_iff "m.py" clauses (by decide +kernel)).2 hlines h
    simp at hpass
  · exact ((reserved_name_iff "m.py" clauses (by decide +kernel)).1.1 h).1 (by decide +kernel)

/-- A clause on one line is taken for an annotation. -/
theorem clause_becomes_variable :
    (outline "m.py" clauses).vars.map (·.name) = ["try", "finally"] := by
  decide +kernel

end CodeAtlas.Python
