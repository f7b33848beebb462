import CodeAtlas.Proofs.Python.Nesting
import CodeAtlas.Proofs.Spacing
import CodeAtlas.Python.Statement

/-!
# Parameters

A parameter with a name (`Parameter`) may have stars, an annotation and a default. It is cut at
the first equals sign outside brackets, with strings disregarded, and what is left of that at the
first colon. Of the name and the annotation all is read, up to white space (`fieldsOf_left`).

Equals signs are not lost when white space is collapsed. So the default is read only if the
parameter is cut at its own equals sign (`Parameter.equals_of_default`), which is one half of
what makes a parameter legible (`Parameter.Legible`); the other is that stars stand next to the
name. These are the parameters that are read as they are declared
(`Parameter.paramOf_text_iff`).
-/

namespace CodeAtlas.Python

open Text List

variable {c mark : Char} {pre t : List Char} (s : List Char) {r : Reader}

/-! ## Parameters as they are declared -/

/-- An expression, as far as the lexical rules go. -/
structure Expression where
  tokens : List Token
  sound : areSound tokens = true
  balanced : openAfter [] tokens = some []

def Expression.text (e : Expression) : List Char :=
  textOf e.tokens

/-- A parameter with a name: the stars before the name and the white space between them, the
    annotation, and the default. -/
structure Parameter where
  before : List Char
  stars : List Char
  apart : List Char
  name : List Char
  behind : List Char
  annotation : Option Expression
  default : Option Expression
  hbefore : ∀ c ∈ before, isBlank c = true
  hstars : stars = [] ∧ apart = [] ∨ stars = ['*'] ∨ stars = ['*', '*']
  hapart : ∀ c ∈ apart, isBlank c = true
  hname : IsWord name
  hbehind : ∀ c ∈ behind, isBlank c = true

namespace Parameter

variable (p : Parameter)

/-- The stars and the name. -/
def head : List Char :=
  p.stars ++ (p.apart ++ p.name)

/-- The text of the annotation. -/
def type : List Char :=
  p.annotation.elim [] Expression.text

/-- What stands before the default. -/
def left : List Char :=
  p.head ++ (p.behind ++ p.annotation.elim [] fun e => ':' :: e.text)

def text : List Char :=
  p.before ++ (p.left ++ p.default.elim [] fun e => '=' :: e.text)

/-- What is to be listed of the parameter. -/
def param : Param where
  name := String.ofList (p.stars ++ p.name)
  type := String.ofList (collapse p.type)
  default := p.default.map fun e => String.ofList (collapse e.text)
  variadic := !p.stars.isEmpty

/-- The parameter is read as it is declared: no white space stands behind its stars, and with
    strings disregarded, its annotation has closed brackets and no equals sign outside of them.
    Without a default, brackets may stay open. -/
structure Legible : Prop where
  tight : p.apart = []
  equals : ∃ t, Nested false (· == '=') (p.type ++ t) ∧ (p.default.isSome = true → t = [])

end Parameter

/-! ## The parts of a parameter -/

/-- The characters that parameters are cut at, and those that are open until they are closed. -/
def marks : List Char :=
  [',', ':', '=', '(', ')', '[', ']', '\x7b', '\x7d', '\x27', '"']

theorem not_mem_marks_of_isBlank (hc : isBlank c) : c ∉ marks := by
  have hnone : marks.any isBlank = false := rfl
  exact fun hmem => any_eq_false.1 hnone c hmem hc

theorem not_mem_marks_of_isWordChar (hc : isWordChar c) : c ∉ marks := by
  have hnone : marks.any isWordChar = false := by decide
  exact fun hmem => any_eq_false.1 hnone c hmem hc

theorem of_not_mem_marks (hc : c ∉ marks) :
    isOpening c = false ∧ isClosing c = false ∧ isQuote c = false := by
  simp only [marks, mem_cons, not_or] at hc
  simp [isOpening, isClosing, isQuote, hc]

/-- The text has no brackets and no quotes, and the mark does not stand in it. -/
def Idle (mark : Char) (pre : List Char) : Prop :=
  ∀ c ∈ pre, isOpening c = false ∧ isClosing c = false ∧ isQuote c = false ∧ c ≠ mark

theorem idle_of_not_mem_marks (hmark : mark ∈ marks) (hpre : ∀ c ∈ pre, c ∉ marks) :
    Idle mark pre := by
  intro c hc
  obtain ⟨hopen, hclose, hquote⟩ := of_not_mem_marks (hpre c hc)
  exact ⟨hopen, hclose, hquote, fun heq => hpre c hc (heq ▸ hmark)⟩

/-- Such a text means nothing to a reader that looks for the mark. -/
theorem Idle.pass? (hpre : Idle mark pre) (h : r.Fits 0 (· == mark)) (s : List Char) :
    r.pass? ⟨0, none⟩ (pre ++ s) = r.pass? ⟨0, none⟩ s := by
  refine Reader.pass?_plain (fun c hc => ?_) s
  obtain ⟨hopen, hclose, hquote, hne⟩ := hpre c hc
  exact ⟨hopen, hclose, by simp [hquote], (h.here c).trans (by simpa using hne)⟩

theorem Idle.nested (hpre : Idle mark pre) (h : r.Fits 0 (· == mark)) :
    Nested r.quoting (· == mark) pre := by
  have hpass := hpre.pass? h []
  rw [append_nil] at hpass
  exact h.pass?_eq_some_iff.1 hpass

namespace Parameter

variable {p : Parameter} {gap : List Char}

theorem mem_head (hc : c ∈ p.head) : c = '*' ∨ isBlank c ∨ isWordChar c := by
  rcases mem_append.1 hc with hc | hc
  · rcases p.hstars with ⟨h, _⟩ | h | h <;> rw [h] at hc
    · cases hc
    · exact .inl (mem_singleton.1 hc)
    · exact .inl (by simpa using hc)
  · rcases mem_append.1 hc with hc | hc
    · exact .inr (.inl (p.hapart c hc))
    · exact .inr (.inr (p.hname.2 c hc))

theorem not_mem_marks_of_mem_head (hc : c ∈ p.head) : c ∉ marks := by
  rcases mem_head hc with rfl | hblank | hword
  · decide
  · exact not_mem_marks_of_isBlank hblank
  · exact not_mem_marks_of_isWordChar hword

theorem not_mem_marks_of_mem_front (hc : c ∈ p.head ++ p.behind) : c ∉ marks := by
  rcases mem_append.1 hc with hc | hc
  · exact not_mem_marks_of_mem_head hc
  · exact not_mem_marks_of_isBlank (p.hbehind c hc)

theorem starts_head : Starts (p.head ++ s) := by
  have hstars : p.stars = [] ∧ p.apart = [] ∨ ∃ more, p.stars = '*' :: more := by
    rcases p.hstars with h | h | h
    · exact .inl h
    · exact .inr ⟨_, h⟩
    · exact .inr ⟨_, h⟩
  rw [head]
  rcases hstars with ⟨hstars, hapart⟩ | ⟨more, hstars⟩
  · rw [hstars, hapart]
    exact p.hname.starts s
  · rw [hstars]
    intro c hc
    cases hc
    rfl

/-- The name ends in no white space. -/
theorem trimEnd_head (hgap : ∀ c ∈ gap, isBlank c) : trimEnd (p.head ++ gap) = p.head := by
  obtain ⟨hne, hword⟩ := p.hname
  obtain ⟨name, c, hname⟩ : ∃ name c, p.name = name ++ [c] :=
    ⟨_, _, (dropLast_append_getLast hne).symm⟩
  have hc : isBlank c = false := isBlank_of_isWordChar (hword c (by simp [hname]))
  have hsplit : p.head = p.stars ++ (p.apart ++ name) ++ c :: [] := by
    rw [head, hname]
    simp
  rw [trimEnd_gap hgap, hsplit, trimEnd, dropEnd_append_cons hc]
  rfl

theorem trim_head (hgap : ∀ c ∈ gap, isBlank c) : trim (p.head ++ gap) = p.head := by
  rw [trim, trimStart_of_starts (starts_head gap), trimEnd_head hgap]

theorem head?_head : (p.head.head? == some '*') = !p.stars.isEmpty := by
  rcases p.hstars with ⟨hstars, hapart⟩ | hstars | hstars
  · obtain ⟨hne, hword⟩ := p.hname
    obtain ⟨c, name, hname⟩ := exists_cons_of_ne_nil hne
    have hc : c ≠ '*' := by
      rintro rfl
      have hstar : isWordChar '*' := hword '*' (by simp [hname])
      revert hstar
      decide
    rw [head, hstars, hapart, hname]
    simpa using hc
  · rw [head, hstars]
    rfl
  · rw [head, hstars]
    rfl

theorem trim_left : trim p.left = trimEnd p.left := by
  have hstarts : Starts p.left := starts_head _
  rw [trim, trimStart_of_starts hstarts]

theorem trim_text :
    trim p.text = trimEnd (p.left ++ p.default.elim [] fun e => '=' :: e.text) := by
  have hstarts : Starts (p.left ++ p.default.elim [] fun e => '=' :: e.text) := by
    rw [left, append_assoc]
    exact starts_head _
  rw [trim, text, trimStart_gap p.hbefore hstarts]

end Parameter

/-! ## Reading a parameter -/

/-- What is read of the text before a default. -/
def fieldsOf (left : List Char) : Param :=
  match cutAt? [':'] left with
  | some (name, type) =>
    { name := String.ofList (trim name)
      type := String.ofList (collapse type)
      variadic := (trim name).head? == some '*' }
  | none =>
    { name := String.ofList (trim left)
      variadic := (trim left).head? == some '*' }

theorem paramOf_of_cut {l r : List Char} (h : cutOutside? '=' t = some (l, r)) :
    paramOf t = { fieldsOf (trim l) with default := some (String.ofList (collapse r)) } := by
  rw [paramOf, h, fieldsOf]
  dsimp only
  cases cutAt? [':'] (trim l) <;> rfl

theorem paramOf_of_none (h : cutOutside? '=' t = none) : paramOf t = fieldsOf t := by
  rw [paramOf, h, fieldsOf]
  dsimp only
  cases cutAt? [':'] t <;> rfl

theorem fieldsOf_default (left : List Char) : (fieldsOf left).default = none := by
  rw [fieldsOf]
  cases cutAt? [':'] left <;> rfl

theorem fits_equals : (Reader.finder '=').Fits 0 (· == '=') :=
  fits_finder rfl rfl

/-- White space at the end is not what a text is cut at. -/
theorem cutOutside?_trimEnd : cutOutside? '=' s = none ↔ cutOutside? '=' (trimEnd s) = none := by
  obtain ⟨gap, hgap, hs⟩ := exists_trimEnd s
  have hmark : '=' ∉ gap := fun h => not_mem_marks_of_isBlank (hgap _ h) (by decide)
  constructor
  · intro hnone
    rw [hs, cutOutside?_eq_none_iff rfl rfl] at hnone
    obtain ⟨t, ht⟩ := hnone
    rw [append_assoc] at ht
    exact (cutOutside?_eq_none_iff rfl rfl).2 ⟨_, ht⟩
  · intro hnone
    rcases @cutOutside?_cases '=' rfl rfl s with
      ⟨_, hcut⟩ | ⟨s₁, s₂, hsplit, hnested, _⟩
    · exact hcut
    · -- The mark does not stand in the white space, so the trimmed text is cut there as well.
      rw [hs] at hsplit
      obtain ⟨rest, hrest⟩ : ∃ rest, trimEnd s = s₁ ++ '=' :: rest := by
        rcases append_eq_append_iff.1 hsplit with ⟨a, hs₁, hgap'⟩ | ⟨a, htrim, hrest⟩
        · exact absurd (hgap' ▸ mem_append_right _ mem_cons_self) hmark
        · cases a with
          | nil =>
            have hmem : '=' ∈ [] ++ gap := hrest ▸ mem_cons_self
            exact absurd hmem hmark
          | cons c a =>
            obtain ⟨rfl, _⟩ := List.cons.inj hrest
            exact ⟨a, htrim⟩
      rw [hrest, cutOutside?_append rfl rfl hnested] at hnone
      cases hnone

namespace Parameter

variable {p : Parameter}

/-- The name and the type of a parameter are read, the name with its stars and the white space
    behind them. -/
theorem fieldsOf_left :
    fieldsOf (trim p.left) = { p.param with name := String.ofList p.head, default := none } := by
  have hcolon : ':' ∉ p.head ++ p.behind := fun h => not_mem_marks_of_mem_front h (by decide)
  rw [trim_left, left, fieldsOf, param, type]
  cases p.annotation with
  | none =>
    have htrim : trimEnd (p.head ++ (p.behind ++ [])) = p.head := by
      rw [append_nil, trimEnd_head p.hbehind]
    have hhead : trim p.head = p.head := by
      have h : trim (p.head ++ []) = p.head := trim_head (by simp)
      rwa [append_nil] at h
    have hnone : cutAt? [':'] p.head = none :=
      cutAt?_eq_none fun h => hcolon (mem_append_left _ h)
    dsimp only [Option.elim]
    rw [htrim, hnone]
    simp only [hhead, head?_head]
    rfl
  | some e =>
    have htrim : trimEnd (p.head ++ (p.behind ++ ':' :: e.text)) =
        (p.head ++ p.behind) ++ ':' :: trimEnd e.text := by
      rw [← append_assoc, trimEnd, dropEnd_append_cons (by decide)]
      rfl
    dsimp only [Option.elim]
    have hcut : cutAt? [':'] (p.head ++ p.behind ++ ':' :: trimEnd e.text) =
        some (p.head ++ p.behind, trimEnd e.text) := cutAt?_append hcolon _
    rw [htrim, hcut]
    simp only [trim_head p.hbehind, head?_head, collapse_trimEnd]

/-- Before the annotation nothing is open. -/
theorem pass?_left :
    (Reader.finder '=').pass? ⟨0, none⟩ (p.left ++ s) =
      (Reader.finder '=').pass? ⟨0, none⟩ (p.type ++ s) := by
  have hfront : Idle '=' (p.head ++ p.behind) :=
    idle_of_not_mem_marks (by decide) fun c hc => not_mem_marks_of_mem_front hc
  rw [left, type]
  cases p.annotation with
  | none => simpa using hfront.pass? fits_equals s
  | some e =>
    have hcolon : Idle '=' [':'] := by simp [Idle, isOpening, isClosing, isQuote]
    have hsplit : p.head ++ (p.behind ++ ':' :: e.text) ++ s =
        (p.head ++ p.behind) ++ ([':'] ++ (e.text ++ s)) := by simp
    dsimp only [Option.elim]
    rw [hsplit, hfront.pass? fits_equals, hcolon.pass? fits_equals]

theorem nested_left {s : List Char} :
    Nested false (· == '=') (p.left ++ s) ↔ Nested false (· == '=') (p.type ++ s) := by
  have hiff : ∀ t, (Reader.finder '=').pass? ⟨0, none⟩ t = some ⟨0, none⟩ ↔
      Nested false (· == '=') t := fun _ => fits_equals.pass?_eq_some_iff
  rw [← hiff, ← hiff, pass?_left]

/-- The parameter is cut at its own equals sign, or not at all if it has none. -/
theorem paramOf_of_equals
    (h : ∃ t, Nested false (· == '=') (p.type ++ t) ∧ (p.default.isSome → t = [])) :
    paramOf (trim p.text) = { p.param with name := String.ofList p.head } := by
  obtain ⟨t, hnested, ht⟩ := h
  rw [← nested_left] at hnested
  rw [trim_text]
  cases hd : p.default with
  | none =>
    have hcut : cutOutside? '=' (trimEnd p.left) = none := by
      rw [← cutOutside?_trimEnd, cutOutside?_eq_none_iff rfl rfl]
      exact ⟨t, hnested⟩
    dsimp only [Option.elim]
    rw [append_nil, paramOf_of_none hcut, ← trim_left, fieldsOf_left]
    simp [param, hd]
  | some e =>
    obtain rfl := ht (by rw [hd]; rfl)
    rw [append_nil] at hnested
    have hcut := cutOutside?_append rfl rfl hnested (trimEnd e.text)
    have htrim : trimEnd (p.left ++ '=' :: e.text) = p.left ++ '=' :: trimEnd e.text :=
      dropEnd_append_cons (by decide) _ _
    dsimp only [Option.elim]
    rw [htrim, paramOf_of_cut hcut, fieldsOf_left, collapse_trimEnd]
    simp [param, hd]

/-- Cut at another equals sign, or at none, the default is another one: equals signs are not
    lost. -/
theorem equals_of_default (h : (paramOf (trim p.text)).default = p.param.default) :
    ∃ t, Nested false (· == '=') (p.type ++ t) ∧ (p.default.isSome → t = []) := by
  rw [trim_text] at h
  cases hd : p.default with
  | none =>
    rw [hd] at h
    dsimp only [Option.elim] at h
    rw [append_nil, param, hd] at h
    have hcut : cutOutside? '=' (trimEnd p.left) = none := by
      rcases hcut : cutOutside? '=' (trimEnd p.left) with _ | ⟨l, r⟩
      · rfl
      · rw [paramOf_of_cut hcut] at h
        cases h
    rw [← cutOutside?_trimEnd, cutOutside?_eq_none_iff rfl rfl] at hcut
    obtain ⟨t, ht⟩ := hcut
    exact ⟨t, nested_left.1 ht, by simp⟩
  | some e =>
    have htrim : trimEnd (p.left ++ '=' :: e.text) = p.left ++ '=' :: trimEnd e.text :=
      dropEnd_append_cons (by decide) _ _
    rw [hd] at h
    dsimp only [Option.elim] at h
    rw [htrim, param, hd] at h
    rcases @cutOutside?_cases '=' rfl rfl (p.left ++ '=' :: trimEnd e.text) with
      ⟨_, hcut⟩ | ⟨l, r, hsplit, hnested, hcut⟩
    · rw [paramOf_of_none hcut, fieldsOf_default] at h
      cases h
    · rw [paramOf_of_cut hcut] at h
      have hcollapse : collapse r = collapse e.text := by
        simpa using congrArg (Option.map String.toList) h
      -- Behind the cut there are as many equals signs as in the default, so it is at its own sign.
      have hcount : r.count '=' = (trimEnd e.text).count '=' := by
        rw [← count_collapse rfl r, hcollapse, count_collapse rfl, count_trimEnd rfl]
      have htotal := congrArg (List.count '=') hsplit
      rw [count_append, count_append, count_cons_self,
        count_cons_self] at htotal
      obtain ⟨rfl, _⟩ := eq_of_append_cons hsplit (by omega)
      rw [← append_nil p.left] at hnested
      exact ⟨[], nested_left.1 hnested, fun _ => rfl⟩

/-- The parameters that are read as they are declared. -/
theorem paramOf_text_iff : paramOf (trim p.text) = p.param ↔ p.Legible := by
  constructor
  · intro h
    have hequals := equals_of_default (congrArg Param.default h)
    rw [paramOf_of_equals hequals] at h
    have hname : p.stars ++ (p.apart ++ p.name) = p.stars ++ p.name := by
      have hchars := congrArg (fun x => x.name.toList) h
      dsimp only [param] at hchars
      rwa [String.toList_ofList, String.toList_ofList] at hchars
    refine ⟨?_, hequals⟩
    simpa using append_cancel_left hname
  · rintro ⟨htight, hequals⟩
    rw [paramOf_of_equals hequals, head, htight]
    rfl

end Parameter

end CodeAtlas.Python
