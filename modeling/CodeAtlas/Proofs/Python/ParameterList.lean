import CodeAtlas.Proofs.Python.Parameter

/-!
# Lists of parameters

A list of parameters (`ParamList`) is written with commas between its items, which are
parameters with a name and the marks between their kinds. It is split at the commas outside
brackets and strings, and each piece is read on its own (`paramsOf_eq`).

The list is read as it is declared if the pieces can be told apart by their commas (`Separable`)
and each parameter can be read (`ParamList.paramsOf_text`). The other way round, commas are
neither lost nor made when a piece is read (`commasIn_paramOf`). So a piece that is read as the
parameter whose text it starts with is all of that text (`Parameter.first_piece`), and the pieces
are the items (`legible_of_filterMap`).

Both hold of lists whose tokens do not need escapes, or strings in annotations, to be told from
code (`ParamList.legible_of_isPlain`).
-/

namespace CodeAtlas.Python

open Text List

variable {gap : List Char}

/-! ## Lists as they are declared -/

/-- The mark between kinds of parameters, with the white space around it. -/
structure Divider where
  before : List Char
  sign : Char
  after : List Char
  hbefore : ∀ c ∈ before, isBlank c = true
  hsign : sign = '/' ∨ sign = '*'
  hafter : ∀ c ∈ after, isBlank c = true

inductive ListItem
  | named (p : Parameter)
  | divider (d : Divider)

namespace ListItem

def text : ListItem → List Char
  | .named p => p.text
  | .divider d => d.before ++ d.sign :: d.after

/-- What is to be listed of the item. -/
def param? : ListItem → Option Param
  | .named p => some p.param
  | .divider _ => none

end ListItem

/-- A list of parameters. There may be a comma behind the last one, and then white space. -/
structure ParamList where
  items : List ListItem
  last : Option (List Char)
  hlast : ∀ gap ∈ last, ∀ c ∈ gap, isBlank c = true

/-- The pieces are told apart by the commas between them: with strings taken up to the next
    quote, their strings and brackets are closed, and commas stand only in these. In the last
    piece strings and brackets may stay open. -/
structure Separable (pieces : List (List Char)) : Prop where
  inner : ∀ s ∈ pieces.dropLast, Nested true (· == ',') s
  last : ∀ s ∈ pieces.getLast?, ∃ t, Nested true (· == ',') (s ++ t)

namespace ParamList

variable (l : ParamList)

def pieces : List (List Char) :=
  l.items.map ListItem.text ++ l.last.toList

def text : List Char :=
  joinWith [','] l.pieces

/-- What is to be listed: the parameters with a name, in order. -/
def params : List Param :=
  l.items.filterMap ListItem.param?

/-- The list is read as it is declared. -/
structure Legible : Prop where
  named : ∀ p, .named p ∈ l.items → p.Legible
  commas : Separable l.pieces

end ParamList

/-! ## Reading a list -/

/-- What is listed of a piece. -/
def piece? (s : List Char) : Option Param :=
  if !(trim s).isEmpty && trim s != ['/'] && trim s != ['*'] then some (paramOf (trim s)) else none

/-- The parameters are read from the pieces, one by one. -/
theorem paramsOf_eq (s : List Char) :
    paramsOf s = (splitCommasFrom 0 none [] s).filterMap piece? := by
  have hpieces : ∀ ps : List (List Char), ((ps.map trim).filter fun p =>
      !p.isEmpty && p != ['/'] && p != ['*']).map paramOf = ps.filterMap piece? := by
    intro ps
    induction ps with
    | nil => rfl
    | cons p ps ih =>
      rw [map_cons, filter_cons, filterMap_cons, piece?]
      split
      · rw [map_cons, ih]
      · exact ih
  -- A blank piece at the end is left out anyway.
  rw [paramsOf, ← hpieces, splitCommas]
  generalize (splitCommasFrom 0 none [] s).map trim = ps
  split
  · next hlast =>
    obtain ⟨ps, rfl⟩ := getLast?_eq_some_iff.1 (beq_iff_eq.1 hlast)
    simp
  · rfl

/-- A piece with a name in it is listed. -/
theorem piece?_of_mem {s : List Char} {c : Char} (hmem : c ∈ s) (hc : isWordChar c) :
    piece? s = some (paramOf (trim s)) := by
  have hblank : ∀ c, isBlank c → isWordChar c = false := by
    intro c hc
    rw [← Bool.not_eq_true]
    intro hword
    cases hc.symm.trans (isBlank_of_isWordChar hword)
  -- Trimming keeps the name, and what is not listed has no letters in it.
  have hpos : 0 < (trim s).countP isWordChar := by
    rw [countP_trim hblank]
    exact countP_pos_iff.2 ⟨c, hmem, hc⟩
  have hne : ∀ t, t.countP isWordChar = 0 → trim s ≠ t := by
    intro t ht heq
    rw [heq, ht] at hpos
    exact absurd hpos (Nat.lt_irrefl 0)
  have hempty : (trim s).isEmpty = false := by simpa using hne [] rfl
  rw [piece?]
  simp [hempty, hne ['/'] (by decide), hne ['*'] (by decide)]

theorem piece?_of_blank (hgap : ∀ c ∈ gap, isBlank c) : piece? gap = none := by
  have htrim : trim gap = [] := by
    have h := trimStart_gap (s := []) hgap (by simp [Starts])
    rw [append_nil] at h
    rw [trim, h]
    rfl
  rw [piece?, htrim]
  rfl

/-! ## Commas -/

theorem isBlank_comma : isBlank ',' = false := rfl

/-- The commas in what is listed of a parameter. -/
def commasIn (p : Param) : Nat :=
  p.name.toList.count ',' + p.type.toList.count ',' +
    p.default.elim 0 fun d => d.toList.count ','

theorem commasIn_fieldsOf (s : List Char) : commasIn (fieldsOf s) = s.count ',' := by
  rw [fieldsOf]
  rcases hcut : cutAt? [':'] s with _ | ⟨name, type⟩
  · simp [commasIn, count_trim isBlank_comma]
  · simp [commasIn, count_trim isBlank_comma, count_collapse isBlank_comma, eq_of_cutAt? hcut]

/-- No comma is lost. -/
theorem commasIn_paramOf (s : List Char) : commasIn (paramOf s) = s.count ',' := by
  rcases @cutOutside?_cases '=' rfl rfl s with ⟨_, hcut⟩ | ⟨l, r, rfl, _, hcut⟩
  · rw [paramOf_of_none hcut, commasIn_fieldsOf]
  · have hfields := commasIn_fieldsOf (trim l)
    rw [commasIn, fieldsOf_default] at hfields
    rw [paramOf_of_cut hcut]
    simp only [commasIn, Option.elim, String.toList_ofList, count_trim isBlank_comma,
      count_collapse isBlank_comma] at hfields ⊢
    simpa using hfields

theorem Parameter.commasIn_param (p : Parameter) : commasIn p.param = p.text.count ',' := by
  have hbefore : p.before.count ',' = 0 := count_gap isBlank_comma p.hbefore
  have hapart : p.apart.count ',' = 0 := count_gap isBlank_comma p.hapart
  have hbehind : p.behind.count ',' = 0 := count_gap isBlank_comma p.hbehind
  rw [commasIn, param, text, left, head, type]
  cases p.annotation <;> cases p.default <;>
    simp [count_collapse isBlank_comma, hbefore, hapart, hbehind, Nat.add_assoc]

/-! ## Telling pieces apart -/

variable {s : List Char} {ps : List (List Char)}

theorem separable_singleton_iff : Separable [s] ↔ ∃ t, Nested true (· == ',') (s ++ t) :=
  ⟨fun h => h.last s rfl, fun h => ⟨by simp, by simpa using h⟩⟩

theorem separable_cons_iff (hps : ps ≠ []) :
    Separable (s :: ps) ↔ Nested true (· == ',') s ∧ Separable ps := by
  obtain ⟨t, ps, rfl⟩ := exists_cons_of_ne_nil hps
  constructor
  · intro h
    obtain ⟨hs, hinner⟩ := forall_mem_cons.1 h.inner
    exact ⟨hs, hinner, by simpa using h.last⟩
  · rintro ⟨hs, h⟩
    exact ⟨forall_mem_cons.2 ⟨hs, h.inner⟩, by simpa using h.last⟩

/-- By induction on the pieces: the first comma that counts stands behind the first one. -/
theorem Separable.split (h : Separable ps) (hne : ps ≠ []) :
    splitCommasFrom 0 none [] (joinWith [','] ps) = ps := by
  induction ps with
  | nil => exact absurd rfl hne
  | cons s ps ih =>
    by_cases hps : ps = []
    · subst hps
      obtain ⟨t, ht⟩ := separable_singleton_iff.1 h
      exact splitCommasFrom_of_nested ht
    · obtain ⟨hs, h⟩ := (separable_cons_iff hps).1 h
      rw [joinWith_cons hps, splitCommasFrom_comma hs, ih h hps]

/-! ## The items of a list -/

theorem idle_of_blank (hgap : ∀ c ∈ gap, isBlank c) : Idle ',' gap :=
  idle_of_not_mem_marks (by decide) fun c hc => not_mem_marks_of_isBlank (hgap c hc)

namespace Divider

variable (d : Divider)

theorem nested_text : Nested true (· == ',') (ListItem.divider d).text := by
  have hidle : Idle ',' (d.before ++ d.sign :: d.after) := by
    refine idle_of_not_mem_marks (by decide) fun c hc => ?_
    rcases mem_append.1 hc with hc | hc
    · exact not_mem_marks_of_isBlank (d.hbefore c hc)
    · rcases mem_cons.1 hc with rfl | hc
      · rcases d.hsign with h | h <;> rw [h] <;> decide
      · exact not_mem_marks_of_isBlank (d.hafter c hc)
  exact hidle.nested fits_splitter

theorem piece?_text : piece? (ListItem.divider d).text = none := by
  have hsign : isBlank d.sign = false := by
    rcases d.hsign with h | h <;> rw [h] <;> rfl
  have hstarts : Starts (d.sign :: d.after) := by
    intro c hc
    cases hc
    exact hsign
  have htrim : trim (ListItem.divider d).text = [d.sign] := by
    rw [ListItem.text, trim, trimStart_gap d.hbefore hstarts, ← singleton_append,
      trimEnd_gap d.hafter, trimEnd, dropEnd_cons hsign]
    rfl
  rw [piece?, htrim]
  rcases d.hsign with h | h <;> rw [h] <;> rfl

end Divider

namespace Parameter

variable {p : Parameter}

theorem exists_mem_front : ∃ c ∈ p.before ++ p.head, isWordChar c := by
  obtain ⟨hne, hword⟩ := p.hname
  obtain ⟨c, name, hname⟩ := exists_cons_of_ne_nil hne
  exact ⟨c, by simp [head, hname], hword c (by simp [hname])⟩

theorem exists_text (p : Parameter) : ∃ more, p.text = (p.before ++ p.head) ++ more :=
  ⟨_, by rw [text, left]; simp only [append_assoc]; rfl⟩

theorem piece?_text : piece? p.text = some (paramOf (trim p.text)) := by
  obtain ⟨c, hmem, hc⟩ := p.exists_mem_front
  obtain ⟨more, hmore⟩ := p.exists_text
  exact piece?_of_mem (hmore ▸ mem_append_left more hmem) hc

/-- If the first thing listed is the parameter, then the first piece is its text: it has as many
    commas, and there is no other piece of the text that starts where it does. -/
theorem first_piece {rest : List Char} (hrest : rest = [] ∨ ∃ t, rest = ',' :: t)
    {params : List Param}
    (h : (splitCommasFrom 0 none [] (p.text ++ rest)).filterMap piece? = p.param :: params) :
    p.Legible ∧ ((rest = [] ∧ ∃ t, Nested true (· == ',') (p.text ++ t)) ∨
      ∃ t, rest = ',' :: t ∧ Nested true (· == ',') p.text ∧
        (splitCommasFrom 0 none [] t).filterMap piece? = params) := by
  obtain ⟨c, hmem, hc⟩ := p.exists_mem_front
  obtain ⟨more, hmore⟩ := p.exists_text
  have hcommas : ∀ s, paramOf (trim s) = p.param → s.count ',' = p.text.count ',' := by
    intro s hs
    rw [← count_trim isBlank_comma, ← commasIn_paramOf, hs, commasIn_param]
  rcases splitCommasFrom_cases (p.text ++ rest) with
    ⟨hnested, hsplit⟩ | ⟨s, t, heq, hnested, hsplit⟩
  · -- All is one piece, so there is no comma behind the parameter.
    have hmem' : c ∈ p.text := hmore ▸ mem_append_left more hmem
    have hpiece := piece?_of_mem (mem_append_left rest hmem') hc
    rw [hsplit, filterMap_cons, hpiece] at h
    have hparam := (List.cons.inj h).1
    have hcount := hcommas _ hparam
    rw [count_append] at hcount
    rcases hrest with rfl | ⟨t, rfl⟩
    · rw [append_nil] at hparam hnested
      exact ⟨paramOf_text_iff.1 hparam, .inl ⟨rfl, hnested⟩⟩
    · rw [count_cons_self] at hcount
      omega
  · -- The name stands before the first comma, so the piece before it is listed.
    have hfront : ',' ∉ p.before ++ p.head := by
      intro hcomma
      rcases mem_append.1 hcomma with hcomma | hcomma
      · exact not_mem_marks_of_isBlank (p.hbefore _ hcomma) (by decide)
      · exact not_mem_marks_of_mem_head hcomma (by decide)
    obtain ⟨more', hs⟩ : ∃ more', s = (p.before ++ p.head) ++ more' := by
      rw [hmore, append_assoc] at heq
      exact exists_append_of_not_mem hfront heq
    have hpiece := piece?_of_mem (s := s) (hs ▸ mem_append_left more' hmem) hc
    rw [hsplit, filterMap_cons, hpiece] at h
    obtain ⟨hparam, hparams⟩ := List.cons.inj h
    have hcount := hcommas s hparam
    rcases hrest with rfl | ⟨t', rfl⟩
    · rw [append_nil] at heq
      rw [heq, count_append, count_cons_self] at hcount
      omega
    · obtain ⟨rfl, rfl⟩ := eq_of_append_cons heq hcount.symm
      exact ⟨paramOf_text_iff.1 hparam, .inr ⟨t', rfl, hnested, hparams⟩⟩

end Parameter

/-! ## Lists that are read as they are declared -/

/-- By induction on the items: each of them is the first piece of what is left. -/
theorem legible_of_filterMap {items : List ListItem} {last : Option (List Char)}
    (hlast : ∀ gap ∈ last, ∀ c ∈ gap, isBlank c)
    (h : (splitCommasFrom 0 none [] (joinWith [','] (items.map ListItem.text ++
      last.toList))).filterMap piece? = items.filterMap ListItem.param?) :
    (∀ p, .named p ∈ items → p.Legible) ∧
      Separable (items.map ListItem.text ++ last.toList) := by
  induction items with
  | nil =>
    refine ⟨by simp, ?_⟩
    cases last with
    | none => exact ⟨by simp, by simp⟩
    | some gap =>
      have hgap : Nested true (· == ',') gap :=
        (idle_of_blank (hlast gap rfl)).nested fits_splitter
      exact separable_singleton_iff.2 ⟨[], by simpa using hgap⟩
  | cons i items ih =>
    rw [map_cons, cons_append] at h ⊢
    generalize hps : items.map ListItem.text ++ last.toList = ps at h ih ⊢
    -- Nothing behind the item means that it is the last, with no comma behind it.
    have hitems : ps = [] → items = [] := by
      rintro rfl
      simpa using (append_eq_nil_iff.1 hps).1
    cases i with
    | divider d =>
      by_cases hne : ps = []
      · subst hne
        rw [hitems rfl]
        exact ⟨by simp, separable_singleton_iff.2 ⟨[], by simpa using d.nested_text⟩⟩
      · rw [joinWith_cons hne, splitCommasFrom_comma d.nested_text, filterMap_cons,
          d.piece?_text] at h
        obtain ⟨hnamed, hrest⟩ := ih h
        exact ⟨by simpa using hnamed, (separable_cons_iff hne).2 ⟨d.nested_text, hrest⟩⟩
    | named p =>
      dsimp only [ListItem.text] at h ⊢
      by_cases hne : ps = []
      · subst hne
        rw [hitems rfl] at h ⊢
        have hwhole : joinWith [','] [p.text] = p.text ++ [] := (append_nil _).symm
        rw [hwhole] at h
        obtain ⟨hp, ⟨_, hlast⟩ | ⟨t, ht, _⟩⟩ := Parameter.first_piece (.inl rfl) h
        · exact ⟨by simpa using hp, separable_singleton_iff.2 hlast⟩
        · cases ht
      · rw [joinWith_cons hne] at h
        obtain ⟨hp, ⟨ht, _⟩ | ⟨t, ht, hnested, hparams⟩⟩ :=
          Parameter.first_piece (.inr ⟨_, rfl⟩) h
        · cases ht
        · obtain ⟨_, rfl⟩ := List.cons.inj ht
          obtain ⟨hnamed, hrest⟩ := ih hparams
          exact ⟨by simpa using ⟨hp, hnamed⟩, (separable_cons_iff hne).2 ⟨hnested, hrest⟩⟩

namespace ParamList

variable {l : ParamList}

theorem paramsOf_text (h : l.Legible) : paramsOf l.text = l.params := by
  have hitems : ∀ i ∈ l.items, piece? i.text = i.param? := by
    rintro (p | d) hi
    · exact p.piece?_text.trans (congrArg some (Parameter.paramOf_text_iff.2 (h.named p hi)))
    · exact d.piece?_text
  have hlast : l.last.toList.filterMap piece? = [] := by
    cases hl : l.last with
    | none => rfl
    | some gap => simp [piece?_of_blank (l.hlast gap hl)]
  by_cases hne : l.pieces = []
  · have hnil : l.items = [] := by simpa using (append_eq_nil_iff.1 hne).1
    rw [text, params, hne, hnil]
    rfl
  · rw [text, paramsOf_eq, h.commas.split hne, pieces, filterMap_append, hlast, append_nil,
      filterMap_map]
    exact filterMap_congr hitems

theorem legible_of_paramsOf (h : paramsOf l.text = l.params) : l.Legible := by
  rw [paramsOf_eq] at h
  obtain ⟨hnamed, hcommas⟩ := legible_of_filterMap l.hlast h
  exact ⟨hnamed, hcommas⟩

end ParamList

/-! ## Lists of plain parameters -/

namespace Expression

variable {e : Expression}

/-- The expression is read in the same way without escapes, and commas stand only in its brackets
    and literals. -/
def isPlain (e : Expression) : Bool :=
  e.tokens.all Token.isLegible && hides ',' [] e.tokens

/-- The expression is read in the same way with literals taken as code, and equals signs stand
    only in its brackets. -/
def isBare (e : Expression) : Bool :=
  e.tokens.all (Token.isBare '=') && hides '=' [] e.tokens

theorem nested {mark : Char} (hmark : mark = ',' ∨ mark = '=') {r : Reader}
    (h : r.Fits 0 (· == mark)) (hpasses : ∀ t ∈ e.tokens, r.Passes t)
    (hhides : hides mark [] e.tokens) : Nested r.quoting (· == mark) e.text := by
  refine h.pass?_eq_some_iff.1 (h.pass?_textOf ?_ (fun t => isSound_of_mem e.sound) hpasses ?_
    e.balanced)
  · intro c hc
    have hne : c ≠ mark := by
      rintro rfl
      rcases hmark with rfl | rfl <;> revert hc <;> decide
    simpa using hne
  · intro c hc _
    rwa [beq_iff_eq.1 hc]

theorem nested_commas (h : e.isPlain) : Nested true (· == ',') e.text := by
  obtain ⟨hlegible, hhides⟩ := Bool.and_eq_true_iff.1 h
  refine nested (.inl rfl) fits_splitter (fun t ht => ?_) hhides
  exact Reader.passes_of_isLegible rfl (isSound_of_mem e.sound ht)
    (all_eq_true.1 hlegible t ht)

theorem nested_equals (h : e.isBare) : Nested false (· == '=') e.text := by
  obtain ⟨hbare, hhides⟩ := Bool.and_eq_true_iff.1 h
  refine nested (.inr rfl) fits_equals (fun t ht => ?_) hhides
  exact Reader.passes_of_isBare (all_eq_true.1 hbare t ht)

end Expression

namespace Parameter

variable {p : Parameter}

def isPlain (p : Parameter) : Bool :=
  p.apart.isEmpty && p.annotation.all (fun e => e.isPlain && e.isBare) &&
    p.default.all Expression.isPlain

theorem legible_of_isPlain (h : p.isPlain) : p.Legible := by
  simp only [isPlain, Bool.and_eq_true] at h
  obtain ⟨⟨hapart, hannotation⟩, _⟩ := h
  refine ⟨List.isEmpty_iff.1 hapart, [], ?_, fun _ => rfl⟩
  rw [append_nil, type]
  cases ha : p.annotation with
  | none => exact .nil
  | some e =>
    rw [ha] at hannotation
    exact e.nested_equals (Bool.and_eq_true_iff.1 hannotation).2

theorem nested_of_isPlain (h : p.isPlain) : Nested true (· == ',') p.text := by
  have happend : ∀ s t, Nested true (· == ',') s → Nested true (· == ',') t →
      Nested true (· == ',') (s ++ t) := fun s t => fits_splitter.nested_append
  have hmarked : ∀ (mark : Char) (e : Option Expression), Idle ',' [mark] →
      e.all Expression.isPlain →
        Nested true (· == ',') (e.elim [] fun e => mark :: e.text) := by
    intro mark e hmark he
    cases e with
    | none => exact .nil
    | some e => exact happend [mark] _ (hmark.nested fits_splitter) (e.nested_commas he)
  simp only [isPlain, Bool.and_eq_true] at h
  obtain ⟨⟨_, hannotation⟩, hdefault⟩ := h
  have hhead : Nested true (· == ',') p.head :=
    (idle_of_not_mem_marks (by decide) fun _ => not_mem_marks_of_mem_head).nested fits_splitter
  have hplain : p.annotation.all Expression.isPlain := by
    cases ha : p.annotation with
    | none => rfl
    | some e =>
      rw [ha] at hannotation
      exact (Bool.and_eq_true_iff.1 hannotation).1
  refine happend _ _ ((idle_of_blank p.hbefore).nested fits_splitter) (happend _ _ ?_ ?_)
  · refine happend _ _ hhead (happend _ _ ((idle_of_blank p.hbehind).nested fits_splitter) ?_)
    exact hmarked ':' _ (by simp [Idle, isOpening, isClosing, isQuote]) hplain
  · exact hmarked '=' _ (by simp [Idle, isOpening, isClosing, isQuote]) hdefault

end Parameter

def ListItem.isPlain : ListItem → Bool
  | .named p => p.isPlain
  | .divider _ => true

/-- No white space stands behind stars; no literal holds its own quote, and none in an annotation
    holds a bracket or an equals sign; commas, and equals signs in annotations, stand in brackets
    or literals only; there are no comments. -/
def ParamList.isPlain (l : ParamList) : Bool :=
  l.items.all ListItem.isPlain

theorem ParamList.legible_of_isPlain {l : ParamList} (h : l.isPlain) : l.Legible := by
  have hitems := all_eq_true.1 h
  have hnested : ∀ s ∈ l.pieces, Nested true (· == ',') s := by
    intro s hs
    rcases mem_append.1 hs with hs | hs
    · obtain ⟨i, hi, rfl⟩ := mem_map.1 hs
      cases i with
      | named p => exact p.nested_of_isPlain (hitems _ hi)
      | divider d => exact d.nested_text
    · exact (idle_of_blank (l.hlast s (Option.mem_toList.1 hs))).nested fits_splitter
  refine ⟨fun p hp => p.legible_of_isPlain (hitems _ hp), ?_, ?_⟩
  · exact fun s hs => hnested s (mem_of_mem_dropLast hs)
  · exact fun s hs => ⟨[], by simpa using hnested s (mem_of_getLast? hs)⟩

/-- A list of parameters is read as it is declared, with one entry for each parameter that has a
    name, in order, with its name, type and default, exactly if it is legible; and lists of plain
    parameters are. -/
theorem params_as_declared (l : ParamList) :
    (paramsOf l.text = l.params ↔ l.Legible) ∧ (l.isPlain = true → l.Legible) :=
  ⟨⟨ParamList.legible_of_paramsOf, ParamList.paramsOf_text⟩, ParamList.legible_of_isPlain⟩

/-- A parameter with nothing but a name. -/
def bareName (name : List Char) (hname : IsWord name) : Parameter where
  before := []
  stars := []
  apart := []
  name := name
  behind := []
  annotation := none
  default := none
  hbefore := all_eq_true.1 rfl
  hstars := .inl ⟨rfl, rfl⟩
  hapart := all_eq_true.1 rfl
  hname := hname
  hbehind := all_eq_true.1 rfl

/-- A list with all kinds of parameters, and with commas and brackets in a call. -/
def mixedList : ParamList where
  items := [
    .named (bareName ['a'] ⟨by decide, all_eq_true.1 rfl⟩),
    .divider ⟨[' '], '/', [], all_eq_true.1 rfl, .inl rfl, all_eq_true.1 rfl⟩,
    .named { bareName ['b'] ⟨by decide, all_eq_true.1 rfl⟩ with
      before := [' ']
      annotation := some ⟨" Dict".toList.map .plain ++ [.opening .square] ++
        "str,  int".toList.map .plain ++ [.closing .square, .plain ' '], by decide, by decide⟩
      default := some ⟨[.plain ' ', .plain 'f', .opening .round,
        .literal '"' false [.plain ')', .plain ','], .plain ',', .opening .curly,
        .closing .curly, .closing .round], by decide, by decide⟩
      hbefore := all_eq_true.1 rfl },
    .named { bareName "kw".toList ⟨by decide, all_eq_true.1 (by decide)⟩ with
      stars := ['*', '*']
      behind := [' ']
      hstars := .inr (.inr rfl)
      hbehind := all_eq_true.1 rfl }]
  last := some ['\n']
  hlast := by simp [isBlank]

theorem params_as_declared_mixed :
    mixedList.text = "a, /, b: Dict[str,  int] = f(\"),\",\x7b\x7d),**kw ,\n".toList ∧
      mixedList.isPlain = true ∧
      paramsOf mixedList.text = [{ name := "a" },
        { name := "b", type := "Dict[str, int]", default := some "f(\"),\",\x7b\x7d)" },
        { name := "**kw", variadic := true }] := by
  have hplain : mixedList.isPlain = true := by decide
  obtain ⟨hiff, hlegible⟩ := params_as_declared mixedList
  exact ⟨by decide, hplain, (hiff.2 (hlegible hplain)).trans (by decide)⟩

/-- A lambda with two parameters for a default. -/
def lambdaParameter : Parameter :=
  { bareName ['a'] ⟨by decide, all_eq_true.1 rfl⟩ with
    default := some ⟨"lambda x, y: x".toList.map .plain, by decide, by decide⟩ }

/-- A default that holds its own quote behind a backslash. -/
def quoteParameter (before name : List Char) (hbefore : ∀ c ∈ before, isBlank c = true)
    (hname : IsWord name) : Parameter :=
  { bareName name hname with
    before := before
    hbefore := hbefore
    default := some ⟨[.literal '"' false [.escaped '"']], by decide, by decide⟩ }

/-- A bracket in the string of an annotation. -/
def bracketParameter : Parameter :=
  { bareName ['a'] ⟨by decide, all_eq_true.1 rfl⟩ with
    annotation := some ⟨[.plain ' ', .literal '"' false [.plain '('], .plain ' '], by decide,
      by decide⟩
    default := some ⟨[.plain ' ', .plain '1'], by decide, by decide⟩ }

/-- A star apart from its name. -/
def starParameter : Parameter :=
  { bareName "args".toList ⟨by decide, all_eq_true.1 (by decide)⟩ with
    stars := ['*']
    apart := [' ']
    hstars := .inr (.inl rfl)
    hapart := all_eq_true.1 rfl }

def listOf (ps : List Parameter) : ParamList where
  items := ps.map .named
  last := none
  hlast := by simp

/-- Two defaults that hold their own quote. -/
def quoteList : ParamList :=
  listOf [quoteParameter [] ['a'] (all_eq_true.1 rfl) ⟨by decide, all_eq_true.1 rfl⟩,
    quoteParameter [' '] ['b'] (all_eq_true.1 rfl) ⟨by decide, all_eq_true.1 rfl⟩]

/-- A lambda is cut at its comma; two parameters with quotes in their defaults are taken for one;
    a default is taken for part of an annotation; a star is not joined to its name. -/
theorem params_misread :
    ((listOf [lambdaParameter]).text = "a=lambda x, y: x".toList ∧
      (listOf [lambdaParameter]).params = [{ name := "a", default := some "lambda x, y: x" }] ∧
      paramsOf (listOf [lambdaParameter]).text =
        [{ name := "a", default := some "lambda x" }, { name := "y", type := "x" }]) ∧
    (quoteList.text = "a=\"\\\"\", b=\"\\\"\"".toList ∧
      quoteList.params = [{ name := "a", default := some "\"\\\"\"" },
        { name := "b", default := some "\"\\\"\"" }] ∧
      paramsOf quoteList.text = [{ name := "a", default := some "\"\\\"\", b=\"\\\"\"" }]) ∧
    ((listOf [bracketParameter]).text = "a: \"(\" = 1".toList ∧
      (listOf [bracketParameter]).params =
        [{ name := "a", type := "\"(\"", default := some "1" }] ∧
      paramsOf (listOf [bracketParameter]).text = [{ name := "a", type := "\"(\" = 1" }]) ∧
    ((listOf [starParameter]).text = "* args".toList ∧
      (listOf [starParameter]).params = [{ name := "*args", variadic := true }] ∧
      paramsOf (listOf [starParameter]).text = [{ name := "* args", variadic := true }]) := by
  refine ⟨?_, ?_, ?_, ?_⟩ <;> decide +kernel

end CodeAtlas.Python
