import CodeAtlas.Proofs.Go.TypeSyntax
import CodeAtlas.Proofs.Spacing

/-!
# Names that are taken from types

To find the type that a function makes values of, a name is taken from the text of a type: what
stands behind the last blank and any stars, up to a bracket (`nameIn?`). Which name that is can
be told from the type (`TypeExpr.nameShown?`). It need not be that of the type or of what it
points to (`TypeExpr.made?`): a channel of `T` shows `T`, and what is instantiated with several
types shows none, since a blank stands between these.

* `TypeExpr.nameIn?_text`: the name that is taken from the text of a type;
* `TypeExpr.nameShown?_of_isPlain`: where that is the name of the type.
-/

namespace CodeAtlas

open List Bool

variable {c : Char} {s t : List Char}

namespace Go

open Grammar

variable {p : List Char} {sep : String}

/-! ## Names in texts of types -/

/-- The name that is taken from a text: behind the last blank and any stars, up to a bracket.
    It goes with whether there is a bracket. None if that is no word. -/
def nameIn? (s : List Char) : Option (List Char × Bool) :=
  let piece := (Text.afterLast ' ' s).dropWhile (· == '*')
  let name := piece.takeWhile (· != '[')
  if !name.isEmpty && name.all isWordPart then some (name, piece.contains '[') else none

/-- What remains of a name if something else than a bracket follows. -/
def closed (found : Option (List Char × Bool)) : Option (List Char × Bool) :=
  found.filter (·.2)

theorem nameIn?_append (h : ' ' ∈ t) (s : List Char) : nameIn? (s ++ t) = nameIn? t := by
  rw [nameIn?, nameIn?, Text.afterLast_append_of_mem h]

theorem nameIn?_blank (s t : List Char) : nameIn? (s ++ ' ' :: t) = nameIn? t := by
  by_cases h : ' ' ∈ t
  · rw [append_cons]
    exact nameIn?_append h _
  · rw [nameIn?, nameIn?, Text.afterLast_append h, Text.afterLast_of_not_mem h]

theorem nameIn?_star (s : List Char) : nameIn? ('*' :: s) = nameIn? s := by
  by_cases h : ' ' ∈ s
  · exact nameIn?_append h ['*']
  · have hstar : ' ' ∉ '*' :: s := by simpa using h
    rw [nameIn?, nameIn?, Text.afterLast_of_not_mem h, Text.afterLast_of_not_mem hstar]
    rfl

theorem nameIn?_bracket (h : ' ' ∉ t) (s : List Char) :
    nameIn? (s ++ '[' :: t) = (nameIn? s).map fun x => (x.1, true) := by
  have hlast := Text.afterLast_append_of_not_mem (c := ' ') (t := '[' :: t) (by simpa using h) s
  have htake : ∀ p : List Char, (p ++ '[' :: t).takeWhile (· != '[') = p.takeWhile (· != '[') := by
    intro p
    rw [takeWhile_append]
    split
    · next hlength =>
      rw [takeWhile_cons_of_neg (by simp), append_nil]
      exact ((List.takeWhile_prefix _).eq_of_length hlength).symm
    · rfl
  rw [nameIn?, nameIn?, hlast, dropWhile_append_cons (by simp), htake]
  split
  · simp
  · rfl

/-- A sign that is no bracket ends the name, unless a bracket does so before. -/
theorem nameIn?_sign (hc : c ≠ ' ' ∧ c ≠ '*' ∧ c ≠ '[' ∧ isWordPart c = false) (h : ' ' ∉ t)
    (s : List Char) : nameIn? (s ++ c :: t) = closed (nameIn? s) := by
  obtain ⟨hblank, hstar, hbracket, hword⟩ := hc
  have hlast := Text.afterLast_append_of_not_mem (c := ' ') (t := c :: t)
    (by simp [h, Ne.symm hblank]) s
  rw [nameIn?, nameIn?, hlast, dropWhile_append_cons (by simp [hstar])]
  generalize (Text.afterLast ' ' s).dropWhile (· == '*') = p
  by_cases hp : '[' ∈ p
  · have htake : (p ++ c :: t).takeWhile (· != '[') = p.takeWhile (· != '[') := by
      rw [takeWhile_append, if_neg]
      intro hlength
      have hself := (List.takeWhile_prefix _).eq_of_length hlength
      simpa using takeWhile_eq_self_iff.1 hself '[' hp
    have hboth : (p ++ c :: t).contains '[' ∧ p.contains '[' := by simp [hp]
    rw [htake, hboth.1, hboth.2]
    split <;> rfl
  · have htake : (p ++ c :: t).takeWhile (· != '[') = p ++ c :: t.takeWhile (· != '[') := by
      rw [takeWhile_append_of_pos, takeWhile_cons_of_pos (by simp [hbracket])]
      intro d hd
      rw [bne_iff_ne]
      rintro rfl
      exact hp hd
    have hall : (p ++ c :: t.takeWhile (· != '[')).all isWordPart = false := by simp [hword]
    have hnone : p.contains '[' = false := by simpa using hp
    rw [htake, hall, Bool.and_false, hnone, if_neg Bool.false_ne_true]
    split <;> rfl

theorem Word.not_mem (w : Word) (hc : isWordPart c = false) : c ∉ w.1.toList := by
  intro hmem
  have hword := w.2
  rw [isWord, and_eq_true, all_eq_true] at hword
  exact false_ne_true (hc.symm.trans (hword.2 c hmem))

theorem nameIn?_word (w : Word) : nameIn? w.1.toList = some (w.1.toList, false) := by
  have hword := w.2
  rw [isWord, and_eq_true, all_eq_true] at hword
  have hstar : w.1.toList.dropWhile (· == '*') = w.1.toList := by
    refine dropWhile_eq_self_iff.2 fun hpos hstar => w.not_mem (c := '*') (by decide +kernel) ?_
    exact eq_of_beq hstar ▸ getElem_mem hpos
  have hbracket : w.1.toList.takeWhile (· != '[') = w.1.toList := by
    refine takeWhile_eq_self_iff.2 fun c hc => ?_
    rw [bne_iff_ne]
    rintro rfl
    exact w.not_mem (by decide +kernel) hc
  have hcontains : w.1.toList.contains '[' = false := by
    simpa using w.not_mem (c := '[') (by decide +kernel)
  have hempty : w.1.toList.isEmpty = false := by simpa using hword.1
  rw [nameIn?, Text.afterLast_of_not_mem (w.not_mem (by decide +kernel)), hstar, hbracket,
    hcontains, hempty, all_eq_true.2 hword.2]
  rfl

/-- Behind a sign at the start there is no name, unless a blank stands in between. -/
theorem nameIn?_lead (hc : c ≠ ' ' ∧ c ≠ '*' ∧ isWordPart c = false) (h : ' ' ∉ t) :
    nameIn? (c :: t) = none := by
  by_cases hbracket : c = '['
  · rw [hbracket]
    exact nameIn?_bracket h []
  · exact nameIn?_sign ⟨hc.1, hc.2.1, hbracket, hc.2.2⟩ h []

theorem joinStrings_cons_cons (sep x y : String) (ys : List String) :
    joinStrings sep (x :: y :: ys) = x ++ sep ++ joinStrings sep (y :: ys) := rfl

/-- What stands behind brackets or parentheses shows the name if it holds a blank, and else what
    stands within them if that does. -/
theorem nameIn?_enclosed (hc : c = ']' ∨ c = ')') (lead : List Char) {opening : Char}
    {shown : Option (List Char × Bool)}
    (hshown : ' ' ∉ s ++ c :: t → nameIn? (lead ++ opening :: (s ++ c :: t)) = shown) :
    nameIn? (lead ++ opening :: (s ++ c :: t)) =
      if t.contains ' ' then nameIn? t
      else if s.contains ' ' then closed (nameIn? s)
      else shown := by
  have hsign : c ≠ ' ' ∧ c ≠ '*' ∧ c ≠ '[' ∧ isWordPart c = false := by
    rcases hc with rfl | rfl <;> decide +kernel
  split
  · next ht =>
    rw [← nameIn?_append (contains_iff_mem.1 ht) (lead ++ opening :: (s ++ [c]))]
    simp
  · next ht =>
    rw [contains_iff_mem] at ht
    split
    · next hs =>
      rw [← nameIn?_sign hsign ht, ← nameIn?_append
        (mem_append_left _ (contains_iff_mem.1 hs)) (lead ++ [opening])]
      simp
    · next hs => exact hshown (by simpa [ht, Ne.symm hsign.1] using hs)

/-- What is joined by something that ends in a blank. -/
theorem nameIn?_joinStrings (hsep : sep.toList = p ++ [' ']) (x y : String) (ys : List String) :
    nameIn? (joinStrings sep (x :: y :: ys)).toList =
      nameIn? (joinStrings sep (y :: ys)).toList := by
  have hlist : (joinStrings sep (x :: y :: ys)).toList =
      (x.toList ++ p) ++ ' ' :: (joinStrings sep (y :: ys)).toList := by
    rw [joinStrings_cons_cons, String.toList_append, String.toList_append, hsep]
    simp
  rw [hlist, nameIn?_blank]

theorem nameIn?_paramText (x type : String) :
    nameIn? (paramText x type).toList = nameIn? type.toList := by
  rw [paramText]
  split
  · rfl
  · rw [String.toList_append, String.toList_append]
    exact (congrArg nameIn? (append_assoc ..)).trans (nameIn?_blank ..)

/-! ## Names in types -/

namespace TypeExpr

variable {results : List String}

/-- The text of the type holds a blank. -/
def isSpaced (t : TypeExpr) : Bool :=
  t.text.toList.contains ' '

/-- Results are written in parentheses. -/
def inParens (results : List String) (parenthesized : Bool) : Bool :=
  match results with
  | [] => false
  | [single] => parenthesized && single.toList.contains ' '
  | _ => true

mutual

/-- The name that is taken from the text of a type, and whether a bracket follows it. -/
def nameShown? : TypeExpr → Option (List Char × Bool)
  | .name w => some (w.1.toList, false)
  | .qualified .. => none
  | .pointer t => nameShown? t
  | .slice t => if t.isSpaced then nameShown? t else none
  | .array length t =>
    if t.isSpaced then nameShown? t
    else if length.toList.contains ' ' then closed (nameIn? length.toList)
    else none
  | .map k v =>
    if v.isSpaced then nameShown? v
    else if k.isSpaced then closed (nameShown? k)
    else some ("map".toList, true)
  | .channel _ v => nameShown? v
  | .function ps rs parenthesized =>
    if rs.isEmpty then
      if (joinStrings ", " (paramTexts ps)).toList.contains ' ' then closed (lastParamShown? ps)
      else none
    else if inParens (paramTexts rs) parenthesized then closed (lastParamShown? rs)
    else lastParamShown? rs
  | .generic t args =>
    if (joinStrings ", " (texts args)).toList.contains ' ' then closed (lastShown? args)
    else (nameShown? t).map fun x => (x.1, true)
  | .union ts => lastShown? ts
  | .paren t => if t.isSpaced then closed (nameShown? t) else none
  | .negated t => if t.isSpaced then nameShown? t else none
  | .variadic t => if t.isSpaced then nameShown? t else none
  | .interface => none
  | .struct => none
  | .other s => nameIn? s.toList

/-- That of the last type. -/
def lastShown? : List TypeExpr → Option (List Char × Bool)
  | [] => none
  | [t] => nameShown? t
  | _ :: ts => lastShown? ts

/-- That of the last parameter or result. -/
def lastParamShown? : List (String × TypeExpr) → Option (List Char × Bool)
  | [] => none
  | [(_, t)] => nameShown? t
  | _ :: ps => lastParamShown? ps

end

theorem nameIn?_texts (hsep : sep.toList = p ++ [' ']) (ts : List TypeExpr)
    (ih : ∀ t ∈ ts, nameIn? t.text.toList = nameShown? t) :
    nameIn? (joinStrings sep (texts ts)).toList = lastShown? ts := by
  induction ts with
  | nil => rfl
  | cons t ts iht =>
    obtain ⟨ht, hts⟩ := forall_mem_cons.1 ih
    cases ts with
    | nil => exact ht
    | cons u us => exact (nameIn?_joinStrings hsep ..).trans (iht hts)

theorem nameIn?_paramTexts (ps : List (String × TypeExpr))
    (ih : ∀ p ∈ ps, nameIn? p.2.text.toList = nameShown? p.2) :
    nameIn? (joinStrings ", " (paramTexts ps)).toList = lastParamShown? ps := by
  induction ps with
  | nil => rfl
  | cons p ps ihp =>
    obtain ⟨hp, hps⟩ := forall_mem_cons.1 ih
    cases ps with
    | nil => exact (nameIn?_paramText p.1 p.2.text).trans hp
    | cons q qs => exact (nameIn?_joinStrings (p := [',']) rfl ..).trans (ihp hps)

theorem resultsText_eq (h : results ≠ []) (parenthesized : Bool) :
    resultsText results parenthesized =
      if inParens results parenthesized then " (" ++ joinStrings ", " results ++ ")"
      else " " ++ joinStrings ", " results := by
  match results with
  | [] => exact absurd rfl h
  | [single] =>
    rw [resultsText, inParens]
    cases parenthesized <;> cases single.toList.contains ' ' <;> rfl
  | _ :: _ :: _ => rfl

theorem blank_mem_of_inParens {parenthesized : Bool} (h : inParens results parenthesized) :
    ' ' ∈ (joinStrings ", " results).toList := by
  match results with
  | [single] =>
    rw [inParens, and_eq_true] at h
    exact contains_iff_mem.1 h.2
  | x :: y :: ys =>
    rw [joinStrings_cons_cons]
    simp

theorem toList_text_map (k v : TypeExpr) :
    (map k v).text.toList = "map".toList ++ '[' :: (k.text.toList ++ ']' :: v.text.toList) := by
  simp [text]

theorem toList_text_generic (t : TypeExpr) (args : List TypeExpr) :
    (generic t args).text.toList =
      t.text.toList ++ '[' :: ((joinStrings ", " (texts args)).toList ++ [']']) := by
  simp [text]

/-- Behind something that starts with a sign, what stands behind a blank. -/
theorem nameIn?_behind (hc : c ≠ ' ' ∧ c ≠ '*' ∧ isWordPart c = false) {more : List Char}
    (hmore : ' ' ∉ more) {t : TypeExpr} (ih : nameIn? t.text.toList = nameShown? t) :
    nameIn? (c :: more ++ t.text.toList) = if t.isSpaced then nameShown? t else none := by
  by_cases h : ' ' ∈ t.text.toList
  · rw [nameIn?_append h, ih, isSpaced, if_pos (contains_iff_mem.2 h)]
  · rw [isSpaced, if_neg (mt contains_iff_mem.1 h)]
    exact nameIn?_lead hc (by simp [hmore, h])

/-- The name that is taken from a function without results. -/
theorem nameIn?_params {ps : List (String × TypeExpr)}
    (ih : ∀ p ∈ ps, nameIn? p.2.text.toList = nameShown? p.2) :
    nameIn? ("func(" ++ joinStrings ", " (paramTexts ps) ++ ")").toList =
      if (joinStrings ", " (paramTexts ps)).toList.contains ' ' then closed (lastParamShown? ps)
      else none := by
  have hlist : ("func(" ++ joinStrings ", " (paramTexts ps) ++ ")").toList =
      "func".toList ++ '(' :: ((joinStrings ", " (paramTexts ps)).toList ++ [')']) := by
    simp
  rw [hlist, ← nameIn?_paramTexts ps ih]
  exact nameIn?_enclosed (t := []) (.inr rfl) _ fun h =>
    (nameIn?_sign (by decide +kernel) h _).trans (by decide +kernel)

/-- The name that is taken from what is written behind the parameters. -/
theorem nameIn?_results {rs : List (String × TypeExpr)} (hrs : rs ≠ [])
    (ih : ∀ p ∈ rs, nameIn? p.2.text.toList = nameShown? p.2) (params : String)
    (parenthesized : Bool) :
    nameIn? (params ++ resultsText (paramTexts rs) parenthesized).toList =
      if inParens (paramTexts rs) parenthesized then closed (lastParamShown? rs)
      else lastParamShown? rs := by
  have hne : paramTexts rs ≠ [] := by
    rw [paramTexts_eq_map]
    simpa using hrs
  rw [resultsText_eq hne, ← nameIn?_paramTexts rs ih]
  split
  · next h =>
    have hlist : (params ++ (" (" ++ joinStrings ", " (paramTexts rs) ++ ")")).toList =
        params.toList ++ ' ' :: '(' :: ((joinStrings ", " (paramTexts rs)).toList ++ [')']) := by
      simp
    rw [hlist, nameIn?_blank]
    exact (nameIn?_enclosed (t := []) (.inr rfl) [] fun _ => rfl).trans
      (if_pos (contains_iff_mem.2 (blank_mem_of_inParens h)))
  · rw [String.toList_append, String.toList_append]
    exact nameIn?_blank ..

theorem nameIn?_text (t : TypeExpr) : nameIn? t.text.toList = nameShown? t := by
  induction t using TypeExpr.induct with
  | name w => exact nameIn?_word w
  | qualified p w =>
    have hlist : (qualified p w).text.toList = p.1.toList ++ '.' :: w.1.toList := by
      rw [text, String.toList_append, String.toList_append, append_assoc]
      rfl
    rw [hlist, nameIn?_sign (by decide +kernel) (w.not_mem (by decide +kernel)), nameIn?_word]
    rfl
  | pointer t ih =>
    have hlist : (pointer t).text.toList = '*' :: t.text.toList := by
      rw [text, String.toList_append]
      rfl
    rw [hlist, nameIn?_star, ih, nameShown?]
  | slice t ih =>
    rw [text, String.toList_append]
    exact nameIn?_behind (by decide +kernel) (by decide) ih
  | array length t ih =>
    have hlist : (array length t).text.toList =
        '[' :: (length.toList ++ ']' :: t.text.toList) := by
      simp [text]
    rw [hlist, nameShown?, isSpaced, ← ih]
    exact nameIn?_enclosed (.inl rfl) [] (nameIn?_lead (by decide +kernel))
  | map k v ihk ihv =>
    rw [toList_text_map, nameShown?, isSpaced, isSpaced, ← ihk, ← ihv]
    exact nameIn?_enclosed (.inl rfl) _ fun h => (nameIn?_bracket h _).trans (by decide +kernel)
  | channel d v ih =>
    have hblank : ∃ pre, d.text.toList = pre ++ [' '] := by
      cases d with
      | both => exact ⟨"chan".toList, rfl⟩
      | send => exact ⟨"chan<-".toList, rfl⟩
      | receive => exact ⟨"<-chan".toList, rfl⟩
    obtain ⟨pre, hpre⟩ := hblank
    have hlist : (channel d v).text.toList = pre ++ ' ' :: v.text.toList := by
      rw [text, String.toList_append, hpre, append_assoc, singleton_append]
    rw [hlist, nameIn?_blank, ih, nameShown?]
  | function ps rs b ihp ihr =>
    rw [text]
    cases rs with
    | nil =>
      rw [paramTexts, resultsText, String.append_empty]
      exact nameIn?_params ihp
    | cons r rs => exact nameIn?_results (cons_ne_nil r rs) ihr _ b
  | generic t args ih iha =>
    have hargs : nameIn? (joinStrings ", " (texts args)).toList = lastShown? args :=
      nameIn?_texts (p := [',']) rfl args iha
    rw [toList_text_generic, nameShown?, ← hargs, ← ih]
    exact nameIn?_enclosed (t := []) (.inl rfl) _ fun h => nameIn?_bracket h _
  | union ts ih => exact nameIn?_texts (p := [' ', '|']) rfl ts ih
  | paren t ih =>
    have hlist : (paren t).text.toList = '(' :: (t.text.toList ++ [')']) := by
      simp [text]
    rw [hlist, nameShown?, isSpaced, ← ih]
    exact nameIn?_enclosed (t := []) (.inr rfl) [] (nameIn?_lead (by decide +kernel))
  | negated t ih =>
    rw [text, String.toList_append]
    exact nameIn?_behind (by decide +kernel) (by decide) ih
  | variadic t ih =>
    rw [text, String.toList_append]
    exact nameIn?_behind (by decide +kernel) (by decide) ih
  | interface => decide +kernel
  | struct => decide +kernel
  | other s => rfl

/-! ## The type of values -/

/-- The name of a type that goes by one, instantiated or not. -/
def named? : TypeExpr → Option Word
  | .name w => some w
  | .generic t _ => named? t
  | .paren t => named? t
  | _ => none

/-- The name of the type whose values, or pointers to them, are of the type. -/
def made? : TypeExpr → Option Word
  | .paren t => made? t
  | .pointer t => named? t
  | t => named? t

/-- The type is neither a pointer nor in parentheses; if it has arguments, it goes by a name. -/
def isBasic : TypeExpr → Bool
  | .name _ | .qualified .. | .slice _ | .array .. | .map .. | .channel .. | .function ..
  | .interface | .struct => true
  | .generic (.name _) _ | .generic (.qualified ..) _ => true
  | _ => false

/-- The type is written without a blank, and is basic or a pointer to a basic type. -/
def isPlain (t : TypeExpr) : Bool :=
  !t.isSpaced && match t with
    | .pointer u => u.isBasic
    | t => t.isBasic

/-- A basic type without blanks shows its name, if it has one. A map shows the word that it
    starts with. -/
theorem nameShown?_of_isBasic {t : TypeExpr} (hbasic : t.isBasic)
    (hblank : ' ' ∉ t.text.toList) :
    (nameShown? t).map Prod.fst = t.named?.map (·.1.toList) ∨
      nameShown? t = some ("map".toList, true) ∧ t.named? = none := by
  -- What starts with a sign shows nothing.
  have hsign : ∀ {s : List Char}, t.text.toList = '[' :: s → nameShown? t = none := by
    intro s hs
    rw [hs] at hblank
    rw [← nameIn?_text, hs]
    exact nameIn?_lead (by decide +kernel) fun h => hblank (mem_cons_of_mem _ h)
  cases t with
  | name w => exact .inl rfl
  | qualified p w => exact .inl rfl
  | interface => exact .inl rfl
  | struct => exact .inl rfl
  | slice u => exact .inl (by rw [hsign (s := ']' :: u.text.toList) (by simp [text])]; rfl)
  | array length u =>
    exact .inl (by rw [hsign (s := length.toList ++ ']' :: u.text.toList) (by simp [text])]; rfl)
  | map k v =>
    rw [toList_text_map] at hblank
    refine .inr ⟨?_, rfl⟩
    rw [← nameIn?_text, toList_text_map, nameIn?_bracket (by simpa using hblank)]
    decide +kernel
  | channel d v => cases d <;> simp [text, Direction.text] at hblank
  | function ps rs b =>
    have hlist : (function ps rs b).text.toList =
        "func".toList ++ '(' :: ((joinStrings ", " (paramTexts ps)).toList ++
          ')' :: (resultsText (paramTexts rs) b).toList) := by
      simp [text]
    rw [hlist] at hblank
    refine .inl ?_
    rw [← nameIn?_text, hlist, nameIn?_sign (by decide +kernel) (by simpa using hblank)]
    rfl
  | generic u args =>
    rw [toList_text_generic] at hblank
    have hshown : nameShown? (generic u args) = (nameShown? u).map fun x => (x.1, true) := by
      rw [← nameIn?_text, toList_text_generic, nameIn?_bracket, nameIn?_text]
      intro h
      exact hblank (mem_append_right _ (mem_cons_of_mem _ h))
    cases u with
    | name w => exact .inl (by rw [hshown]; rfl)
    | qualified p w => exact .inl (by rw [hshown]; rfl)
    | _ => cases hbasic
  | _ => cases hbasic

/-- A plain type shows the name of the type whose values, or pointers to them, are of it. Only
    maps and pointers to them show something else. -/
theorem nameShown?_of_isPlain {t : TypeExpr} (h : t.isPlain) :
    (nameShown? t).map Prod.fst = t.made?.map (·.1.toList) ∨
      (nameShown? t).map Prod.fst = some "map".toList ∧ t.made? = none := by
  obtain ⟨hblank, hbasic⟩ := and_eq_true_iff.1 h
  rw [not_eq_true', isSpaced, contains_eq_mem, decide_eq_false_iff_not] at hblank
  have hshown : ∀ {u : TypeExpr}, u.isBasic → ' ' ∉ u.text.toList →
      (nameShown? u).map Prod.fst = u.named?.map (·.1.toList) ∨
        (nameShown? u).map Prod.fst = some "map".toList ∧ u.named? = none :=
    fun hu hblank => (nameShown?_of_isBasic hu hblank).imp_right fun ⟨hmap, hnone⟩ =>
      ⟨congrArg (Option.map Prod.fst) hmap, hnone⟩
  cases t with
  | pointer u =>
    refine hshown (u := u) hbasic fun hmem => hblank ?_
    rw [text, String.toList_append]
    exact mem_append_right _ hmem
  | paren u => cases hbasic
  | _ => exact hshown hbasic hblank

end TypeExpr

end Go

end CodeAtlas
