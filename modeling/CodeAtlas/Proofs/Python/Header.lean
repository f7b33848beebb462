import CodeAtlas.Proofs.Python.Accessor
import CodeAtlas.Proofs.Python.Nesting

/-!
# The heads of functions

A line that declares a function has a name, and parameters in brackets (`DefLine`). By the
lexical rules they end at the bracket that closes the first one. Whether the head is read with
these parameters depends on how they look to a reader without escapes (`DefLine.Legible`): a
literal that holds its own quote, behind a backslash or between triple quotes, may hide the end
of the parameters, and with it the function.

* `exists_defHeader?_iff`: what is read of a line;
* `DefLine.exists_reads_iff`: which lines are read as they are declared;
* `DefLine.Reads.exists_mem_functions`, `DefLine.Reads.exists_lists`: their functions are listed;
* `def_lines_read`: all of this.
-/

namespace CodeAtlas.Python

open Text List

variable {s lead : List Char} {isAsync : Bool} {header : DefHeader}

/-! ## Lines that declare functions -/

/-- White space between two words. -/
def IsGap (gap : List Char) : Prop :=
  gap ≠ [] ∧ ∀ c ∈ gap, isBlank c = true

/-- What stands before the name of a function, which is asynchronous or not. -/
inductive Lead : Bool → List Char → Prop
  | plain {gap : List Char} : IsGap gap → Lead false ("def".toList ++ gap)
  | async {gap gap' : List Char} : IsGap gap → IsGap gap' →
    Lead true ("async".toList ++ (gap ++ ("def".toList ++ gap')))

theorem afterWord?_append {gap : List Char} (word : String) (hgap : IsGap gap) (hs : Starts s) :
    afterWord? word (word.toList ++ (gap ++ s)) = some s := by
  rw [afterWord?, strip?_eq_some_iff.2 rfl, Option.bind_some]
  obtain ⟨hne, hblank⟩ := hgap
  cases gap with
  | nil => exact absurd rfl hne
  | cons c gap =>
    obtain ⟨hc, hgap⟩ := forall_mem_cons.1 hblank
    rw [cons_append, afterBlank?, if_pos hc, trimStart_gap hgap hs]

/-- A name is read if it starts with a letter of ASCII or an underscore. -/
theorem name?_append {name : List Char} (h : IsWord name)
    (hs : ∀ c ∈ s.head?, isWordChar c = false) :
    name? (name ++ s) = if name.head?.any isNameStart then some (name, s) else none := by
  obtain ⟨hne, hword⟩ := h
  cases name with
  | nil => exact absurd rfl hne
  | cons c name =>
    have hrest : ∀ d ∈ name, isWordChar d := (forall_mem_cons.1 hword).2
    have htake : s.takeWhile isWordChar = [] := by
      cases s with
      | nil => rfl
      | cons d s => exact takeWhile_cons_of_neg (by simp [hs d rfl])
    have hdrop : s.dropWhile isWordChar = s := by
      cases s with
      | nil => rfl
      | cons d s => exact dropWhile_cons_of_neg (by simp [hs d rfl])
    rw [cons_append, name?, takeWhile_append_of_pos hrest,
      dropWhile_append_of_pos hrest, htake, hdrop, append_nil]
    rfl

/-- The words before the name are read, one way or the other. -/
theorem Lead.read (h : Lead isAsync lead) (hs : Starts s) :
    (isAsync = false ∧ afterWord? "async" (lead ++ s) = none ∧
        afterWord? "def" (lead ++ s) = some s) ∨
      isAsync ∧ ∃ rest, afterWord? "async" (lead ++ s) = some rest ∧
        afterWord? "def" rest = some s := by
  cases h with
  | plain hgap =>
    exact .inl ⟨rfl, rfl, afterWord?_append "def" hgap hs⟩
  | @async gap gap' hgap hgap' =>
    have hdef : Starts ("def".toList ++ (gap' ++ s)) := by
      intro c hc
      cases hc
      rfl
    rw [append_assoc, append_assoc]
    exact .inr ⟨rfl, _, afterWord?_append "async" hgap hdef, afterWord?_append "def" hgap' hs⟩

theorem Lead.exists_cons (h : Lead isAsync lead) :
    (∃ rest, lead = 'd' :: rest) ∨ ∃ rest, lead = 'a' :: rest := by
  cases h with
  | plain => exact .inl ⟨_, rfl⟩
  | async => exact .inr ⟨_, rfl⟩

/-- When the head of a function is read from a line, and with which parameters. -/
theorem exists_defHeader?_iff {name params : List Char} (hlead : Lead isAsync lead)
    (hname : IsWord name) :
    (∃ header, defHeader? (lead ++ (name ++ '(' :: s)) = some header ∧
        header.isAsync = isAsync ∧ header.name = name ∧ header.params = params) ↔
      name.head?.any isNameStart ∧
        ∃ after, bracketed? ('(' :: s) = some (params, after) := by
  have hword : ∀ c ∈ ('(' :: s).head?, isWordChar c = false := by
    intro c hc
    cases hc
    decide
  have hread := name?_append hname hword
  have hlead := hlead.read (hname.starts ('(' :: s))
  by_cases hstart : name.head?.any isNameStart
  · rw [if_pos hstart] at hread
    rcases hlead with ⟨rfl, hasync, hdef⟩ | ⟨rfl, rest, hasync, hdef⟩
    all_goals
      cases hbrackets : bracketed? ('(' :: s) with
      | none => simp [defHeader?, hasync, hdef, hread, hbrackets]
      | some x => simp [defHeader?, hasync, hdef, hread, hstart, hbrackets, Prod.ext_iff]
  · rcases hlead with ⟨rfl, hasync, hdef⟩ | ⟨rfl, rest, hasync, hdef⟩
    · simp [defHeader?, hasync, hdef, hread, hstart]
    · simp [defHeader?, hasync, hdef, hread, hstart]

/-- A line that declares a function: the words before its name, the name, the tokens of its
    parameters, which the next bracket closes, and what stands behind that bracket. -/
structure DefLine where
  isAsync : Bool
  lead : List Char
  name : List Char
  params : List Token
  tail : List Char
  hlead : Lead isAsync lead
  hname : IsWord name
  sound : areSound (params ++ [.closing .round]) = true
  balanced : openAfter [] params = some []

namespace DefLine

variable (d : DefLine) {text : List Char} {l : LogicalLine}

/-- The code of the line. -/
def code : List Char :=
  d.lead ++ (d.name ++ '(' :: (textOf d.params ++ ')' :: d.tail))

/-- The line is read as what it is: its name can start a name, and the brackets and strings in
    its parameters are closed for a reader without escapes. -/
structure Legible : Prop where
  name : d.name.head?.any isNameStart = true
  params : Nested true isClosing (textOf d.params)

variable {d}

/-- A head is read as it is declared. -/
def Reads (d : DefLine) (header : DefHeader) : Prop :=
  defHeader? d.code = some header ∧ header.isAsync = d.isAsync ∧ header.name = d.name ∧
    header.params = textOf d.params

theorem exists_reads_iff : (∃ header, d.Reads header) ↔ d.Legible := by
  have hparams : (∃ after, bracketed? ('(' :: (textOf d.params ++ ')' :: d.tail)) =
      some (textOf d.params, after)) ↔ Nested true isClosing (textOf d.params) :=
    exists_bracketed?_iff rfl
  refine (exists_defHeader?_iff d.hlead d.hname).trans ?_
  rw [hparams]
  exact ⟨fun ⟨hname, hnested⟩ => ⟨hname, hnested⟩, fun h => ⟨h.name, h.params⟩⟩

theorem nested_of_isLegible (h : ∀ t ∈ d.params, t.isLegible) :
    Nested true isClosing (textOf d.params) :=
  nested_textOf (fun _ ht => isSound_of_mem d.sound (mem_append_left _ ht)) h d.balanced

theorem classHeader?_code : classHeader? d.code = none := by
  have hnone : afterWord? "class" d.code = none := by
    rw [code]
    rcases d.hlead.exists_cons with ⟨rest, hrest⟩ | ⟨rest, hrest⟩ <;> rw [hrest] <;> rfl
  rw [classHeader?, hnone]
  rfl

/-- The function is the one that the line declares. -/
structure Declares (d : DefLine) (l : LogicalLine) (f : Callable) : Prop where
  name : f.name = String.ofList d.name
  params : f.params = paramsOf (textOf d.params)
  isAsync : f.isAsync = d.isAsync
  line : f.span.nameStart = l.first

theorem Reads.declares (h : d.Reads header) (s : Script) (e : Declared) (owner : Option String) :
    d.Declares e.head (callableOf s e header owner) := by
  obtain ⟨_, hasync, hname, hparams⟩ := h
  exact ⟨congrArg String.ofList hname, congrArg paramsOf hparams, hasync, rfl⟩

/-- A function that stands by itself is listed. -/
theorem Reads.exists_mem_functions (h : d.Reads header) (path : String)
    (hl : l ∈ logicalLines (lines text)) (hcode : l.code = d.code) (hindent : l.indent = 0) :
    ∃ f ∈ (outline path text).functions, d.Declares l f := by
  have hkind := kind_of_defHeader? hl (hcode ▸ h.1)
  have htop : l.isTop := by simp [LogicalLine.isTop, LogicalLine.isCode, hkind, hindent]
  have hp : ∀ x : LogicalLine, x.isTop → x.isCode ∧ x.indent = 0 := fun x hx => by
    simpa [LogicalLine.isTop] using hx
  obtain ⟨e, he, rfl⟩ : ∃ e ∈ statementsIn LogicalLine.isTop 0 [] (logicalLines (lines text)),
      e.head = l := exists_mem_statementsIn hp hl htop (by simp [hkind])
  refine ⟨_, mem_functions_outline he ?_ (hcode ▸ h.1), h.declares _ e none⟩
  rw [hcode]
  exact d.classHeader?_code

/-- A function of a class is listed in it. -/
theorem Reads.exists_lists (h : d.Reads header) (path : String) {c : Declared}
    (hc : c ∈ statementsOf (lines text)) {head : ClassHeader}
    (hclass : classHeader? c.head.code = some head) (hl : l ∈ c.block) (hcode : l.code = d.code)
    (hindent : l.indent = indentIn c.block) :
    ∃ t ∈ (outline path text).types, t.name = String.ofList head.name ∧ t.span = c.span ∧
      ∃ f, d.Declares l f ∧ Lists t.methods t.properties f := by
  have hblock : ∀ x ∈ c.block, x ∈ logicalLines (lines text) := mem_of_mem_block c hc
  let s : Script := ⟨Path.slashed path, lines text⟩
  have hdef : defHeader? l.code = some header := hcode ▸ h.1
  have hmember : declaresMember c l := by
    simp [declaresMember, LogicalLine.isCode, kind_of_defHeader? (hblock l hl) hdef, hindent, hdef]
  have hmem := mem_filter.2 ⟨hl, hmember⟩
  rw [← heads_functionsIn s hblock] at hmem
  obtain ⟨e, he, rfl⟩ := mem_map.1 hmem
  exact ⟨_, mem_types_outline hc hclass, rfl, rfl, _, h.declares s e _,
    lists_classOf (mem_of_mem_filter he) (by rw [functionOf?, hdef]; rfl)⟩

end DefLine

/-- The head of a function is read from a line with the parameters that it has by the lexical
    rules exactly if its name can start a name and the parameters are closed for a reader without
    escapes, as they are if no literal among them holds its own quote. The function is then
    listed, wherever the line stands at the top of a module or of a class. -/
theorem def_lines_read (d : DefLine) :
    ((∃ header, d.Reads header) ↔ d.Legible) ∧
    ((∀ t ∈ d.params, t.isLegible = true) → Nested true isClosing (textOf d.params)) ∧
    (d.Legible → ∀ path text,
      (∀ l ∈ logicalLines (lines text), l.code = d.code → l.indent = 0 →
        ∃ f ∈ (outline path text).functions, d.Declares l f) ∧
      ∀ c ∈ statementsOf (lines text), ∀ head, classHeader? c.head.code = some head →
        ∀ l ∈ c.block, l.code = d.code → l.indent = indentIn c.block →
          ∃ t ∈ (outline path text).types, t.name = String.ofList head.name ∧ t.span = c.span ∧
            ∃ f, d.Declares l f ∧ Lists t.methods t.properties f) := by
  refine ⟨d.exists_reads_iff, d.nested_of_isLegible, fun hlegible path text => ?_⟩
  obtain ⟨header, hreads⟩ := d.exists_reads_iff.2 hlegible
  exact ⟨fun l hl hcode hindent => hreads.exists_mem_functions path hl hcode hindent,
    fun c hc head hclass l hl hcode hindent =>
      hreads.exists_lists path hc hclass hl hcode hindent⟩

/-- A line with a bracket and an escape in a literal. -/
def bracketLine : DefLine where
  isAsync := true
  lead := "async  def ".toList
  name := "run".toList
  params := [.plain 'a', .plain '=', .literal '\x27' false [.plain ')', .escaped 'n'], .plain ',']
  tail := ":".toList
  hlead := @Lead.async [' ', ' '] [' '] ⟨by decide, all_eq_true.1 rfl⟩
    ⟨by decide, all_eq_true.1 rfl⟩
  hname := ⟨by decide, all_eq_true.1 (by decide)⟩
  sound := by decide
  balanced := by decide

/-- The line at the top of a module and in a class, there with a decorator. -/
def bracketText : List Char :=
  "async  def run(a=')\\n',):\n  0\nclass C:\n  @x\n  async  def run(a=')\\n',):\n    0\n".toList

/-- Both functions are listed. -/
theorem def_lines_read_bracket :
    (∀ t ∈ bracketLine.params, t.isLegible = true) ∧
    (∃ f ∈ (outline "m.py" bracketText).functions, f.name = "run" ∧ f.span.nameStart = 1) ∧
    ∃ t ∈ (outline "m.py" bracketText).types, t.name = "C" ∧
      ∃ f, f.name = "run" ∧ f.span.nameStart = 5 ∧ Lists t.methods t.properties f := by
  have htokens : ∀ t ∈ bracketLine.params, t.isLegible = true := by decide
  obtain ⟨hiff, hnested, hlisted⟩ := def_lines_read bracketLine
  obtain ⟨hfunctions, hmethods⟩ := hlisted ⟨by decide, hnested htokens⟩ "m.py" bracketText
  let head : LogicalLine := ⟨1, 1, 0, .code, bracketLine.code⟩
  let member : LogicalLine := ⟨5, 5, 2, .code, bracketLine.code⟩
  let c : Declared := ⟨⟨3, 3, 0, .code, "class C:".toList⟩,
    [⟨4, 4, 2, .decorator, "@x".toList⟩, member, ⟨6, 6, 4, .code, ['0']⟩], []⟩
  have hlines : logicalLines (lines bracketText) =
      [head, ⟨2, 2, 2, .code, ['0']⟩] ++ c.head :: c.block := by decide +kernel
  have hstatements : statementsOf (lines bracketText) =
      [⟨head, [⟨2, 2, 2, .code, ['0']⟩], []⟩, c] := by
    rw [statementsOf, hlines]
    rfl
  obtain ⟨f, hf, hdeclares⟩ := hfunctions head (by simp [hlines]) rfl rfl
  obtain ⟨t, ht, hname, _, g, hg, hlists⟩ := hmethods c (by simp [hstatements]) ⟨"C".toList, []⟩ rfl
    member (by simp [c]) rfl rfl
  exact ⟨htokens, ⟨f, hf, hdeclares.name, hdeclares.line⟩, t, ht, hname, g, hg.name, hg.line,
    hlists⟩

/-- A line with a literal that holds its own quote behind a backslash. -/
def escapedLine : DefLine where
  isAsync := false
  lead := "def ".toList
  name := "run".toList
  params := [.plain 'a', .plain '=', .literal '"' false [.escaped '"']]
  tail := ":".toList
  hlead := @Lead.plain [' '] ⟨by decide, all_eq_true.1 rfl⟩
  hname := ⟨by decide, all_eq_true.1 (by decide)⟩
  sound := by decide
  balanced := by decide

/-- A line with a name that starts with no letter of ASCII. -/
def accentedLine : DefLine where
  isAsync := false
  lead := "def ".toList
  name := "été".toList
  params := []
  tail := ":".toList
  hlead := @Lead.plain [' '] ⟨by decide, all_eq_true.1 rfl⟩
  hname := ⟨by decide, all_eq_true.1 (by decide)⟩
  sound := by decide
  balanced := by decide

/-- Functions of a module are not listed if a literal holds its own quote, or for their name. -/
theorem escaped_quote_hides_function :
    ((logicalLines ["def run(a=\"\\\"\"):".toList, " 0".toList]).map fun l => (l.code, l.indent)) =
        [(escapedLine.code, 0), (['0'], 1)] ∧
      (outline "m.py" "def run(a=\"\\\"\"):\n 0\n".toList).functions = [] ∧
    ((logicalLines ["def été():".toList, " 0".toList]).map fun l => (l.code, l.indent)) =
        [(accentedLine.code, 0), (['0'], 1)] ∧
      (outline "m.py" "def été():\n 0\n".toList).functions = [] := by
  refine ⟨by decide +kernel, List.isEmpty_iff.1 (by decide +kernel), by decide +kernel,
    List.isEmpty_iff.1 (by decide +kernel)⟩

end CodeAtlas.Python
