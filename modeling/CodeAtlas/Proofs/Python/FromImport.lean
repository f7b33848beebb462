import CodeAtlas.Proofs.Python.Header
import CodeAtlas.Proofs.Python.ParameterList

/-!
# Layouts of imports

A statement is written on rows: a row has a piece of its code on it, and goes on with the next one
behind a backslash or within brackets, where blank lines and comments may stand in between
(`Spans`). Whatever the rows are, they are read as one line with the pieces on it. So the imports
of names from a module do not depend on how the names are laid out.

* `Spans.groupLines_eq`: the rows of a statement are one logical line;
* `FromImport.fromImports?_code`: what is read of an import;
* `imports_of_layout`: the imports of a module with the rows of one.
-/

namespace CodeAtlas.Python

open Text List

/-! ## Rows of a statement -/

/-- A physical line with a piece of code on it, and behind it a comment, a backslash or
    nothing. -/
structure Row where
  indent : List Char
  piece : List Char
  gap : List Char
  mark : List Char
  indent_blank : ∀ c ∈ indent, isBlank c = true := by exact forall_mem_of_all (by decide +kernel)
  gap_blank : ∀ c ∈ gap, isBlank c = true := by exact forall_mem_of_all (by decide +kernel)
  piece_ne : piece ≠ [] := by decide +kernel
  piece_trim : trim piece = piece := by decide +kernel
  piece_plain : ∀ c ∈ piece, c ≠ '#' ∧ c ≠ '\\' ∧ isQuote c = false := by
    exact forall_mem_of_all (by decide +kernel)
  mark_cases : mark = [] ∨ mark = ['\\'] ∨ mark.head? = some '#' := by decide +kernel

namespace Row

variable (r : Row)

def text : List Char :=
  r.indent ++ (r.piece ++ (r.gap ++ r.mark))

/-- The row ends in a backslash. -/
def goesOn : Bool :=
  r.mark == ['\\']

/-- What is read of the row. -/
def code : List Char :=
  r.indent ++ (r.piece ++ (r.gap ++ if r.goesOn then ['\\'] else []))

/-- The number of brackets that are open behind the row. -/
def depthBehind (depth : Nat) : Nat :=
  r.piece.foldl (fun depth c => depthAfter c depth) depth

end Row

variable {depth : Nat} {s : List Char} {rows pieces : List (List Char)}

theorem scanFrom_gap (hs : ∀ c ∈ s, isBlank c) (depth : Nat) (t : List Char) :
    scanFrom .code depth (s ++ t) = kept s (scanFrom .code depth t) := by
  induction s with
  | nil => rfl
  | cons c s ih =>
    obtain ⟨hc, hs⟩ := forall_mem_cons.1 hs
    rw [cons_append, scanFrom_blank hc, ih hs]
    rfl

theorem scanFrom_piece (hs : ∀ c ∈ s, c ≠ '#' ∧ c ≠ '\\' ∧ isQuote c = false) (depth : Nat)
    (t : List Char) :
    scanFrom .code depth (s ++ t) =
      kept s (scanFrom .code (s.foldl (fun depth c => depthAfter c depth) depth) t) := by
  induction s generalizing depth with
  | nil => rfl
  | cons c s ih =>
    obtain ⟨⟨hhash, -, hquote⟩, hs⟩ := forall_mem_cons.1 hs
    rw [cons_append, scanFrom_plain hhash hquote, ih hs]
    rfl

namespace Row

variable (r : Row)

theorem scanFrom_text (depth : Nat) :
    scanFrom .code depth r.text = (r.code, ⟨none, r.depthBehind depth⟩) := by
  have hmark : ∀ depth, scanFrom .code depth r.mark =
      (if r.goesOn then ['\\'] else [], ⟨none, depth⟩) := by
    intro depth
    rw [goesOn]
    rcases r.mark_cases with h | h | h
    · rw [h]; rfl
    · rw [h]; rfl
    · obtain ⟨comment, h⟩ := head?_eq_some_iff.1 h
      rw [h]
      exact scanFrom_comment comment
  rw [text, scanFrom_gap r.indent_blank, scanFrom_piece r.piece_plain, scanFrom_gap r.gap_blank,
    hmark]
  rfl

theorem trimEnd_append (s t : List Char) :
    trimEnd (s ++ (r.piece ++ t)) = s ++ (r.piece ++ trimEnd t) := by
  have h := trimEnd_append_trim (r.piece_trim.symm ▸ r.piece_ne) s t
  rwa [r.piece_trim] at h

/-- The piece is read of the row, and whether a backslash stands behind it. -/
theorem add_code (o : OpenLine) (depth : Nat) :
    continues r.code ⟨none, depth⟩ = r.goesOn ∧
      o.add r.code r.goesOn = ⟨o.first, o.text, o.pieces ++ [r.piece]⟩ := by
  have htrim := trim_append_trim (r.piece_trim.symm ▸ r.piece_ne) r.indent
  rw [r.piece_trim, trimStart_of_blank r.indent_blank] at htrim
  obtain ⟨s, c, hpiece⟩ := eq_nil_or_concat' r.piece |>.resolve_left r.piece_ne
  have hc : c ≠ '\\' := (r.piece_plain c (by simp [hpiece])).2.1
  rw [continues, OpenLine.add, code, r.trimEnd_append, htrim]
  cases r.goesOn with
  | false => simp [trimEnd_of_blank r.gap_blank, hpiece, hc]
  | true =>
    have hslash : trimEnd (r.gap ++ ['\\']) = r.gap ++ ['\\'] := dropEnd_append_cons rfl _ _
    have hgap : ∀ c ∈ dropEnd (· == '\\') r.gap, isBlank c := fun c hc =>
      r.gap_blank c (mem_reverse.1 ((dropWhile_suffix _).subset (mem_reverse.1 hc)))
    have hdrop : dropEnd (· == '\\') (r.piece ++ (r.gap ++ ['\\'])) =
        r.piece ++ dropEnd (· == '\\') r.gap := by
      have h := dropEnd_append_cons (p := (· == '\\')) (by simpa using hc) s (r.gap ++ ['\\'])
      rw [dropEnd_concat] at h
      simpa [hpiece] using h
    have htrimmed : trimEnd (r.piece ++ dropEnd (· == '\\') r.gap) = r.piece := by
      simpa [trimEnd_of_blank hgap] using r.trimEnd_append [] (dropEnd (· == '\\') r.gap)
    simp [hslash, hdrop, htrimmed, r.piece_ne]

end Row

theorem groupLines_row (r : Row) (depth n : Nat) (o : OpenLine) (rest : List (List Char)) :
    groupLines ⟨none, depth⟩ n (some o) (r.text :: rest) =
      let o' : OpenLine := ⟨o.first, o.text, o.pieces ++ [r.piece]⟩
      let st : ScanState := ⟨none, r.depthBehind depth⟩
      if (decide (0 < st.depth) || r.goesOn) && !rest.isEmpty then
        groupLines st (n + 1) (some o') rest
      else o'.close n :: groupLines st (n + 1) none rest := by
  obtain ⟨hgoesOn, hadd⟩ := r.add_code o (r.depthBehind depth)
  have hscan : scanLine ⟨none, depth⟩ r.text = _ := r.scanFrom_text depth
  rw [groupLines, hscan]
  simp [hgoesOn, hadd]

/-- The rows hold the code of one statement, piece by piece, where `depth` brackets are open.
    Only within brackets there may be lines that say nothing. -/
inductive Spans : Nat → List (List Char) → List (List Char) → Prop
  | quiet {depth : Nat} {line : List Char} {rows pieces : List (List Char)}
    (hline : saysNothing line = true) (h : Spans (depth + 1) rows pieces) :
    Spans (depth + 1) (line :: rows) pieces
  | next {depth : Nat} {rows pieces : List (List Char)} (r : Row) (behind : Nat)
    (hbehind : r.depthBehind depth = behind) (hopen : 0 < behind ∨ r.goesOn = true)
    (h : Spans behind rows pieces) : Spans depth (r.text :: rows) (r.piece :: pieces)
  | last {depth : Nat} (r : Row) (hdepth : r.depthBehind depth = 0) (hgoesOn : r.goesOn = false) :
    Spans depth [r.text] [r.piece]

theorem Spans.ne_nil (h : Spans depth rows pieces) : rows ≠ [] := by
  cases h <;> simp

/-- By induction on the rows: the pieces are collected in one logical line. -/
theorem Spans.groupLines_eq (h : Spans depth rows pieces) (n : Nat) (o : OpenLine)
    (rest : List (List Char)) :
    ∃ last, groupLines ⟨none, depth⟩ n (some o) (rows ++ rest) =
      OpenLine.close ⟨o.first, o.text, o.pieces ++ pieces⟩ last ::
        groupLines {} (n + rows.length) none rest := by
  induction h generalizing n o with
  | @quiet depth line rows pieces hline h ih =>
    obtain ⟨code, hscan, hblank⟩ := scanFrom_of_saysNothing hline (depth + 1)
    obtain ⟨hgoesOn, hadd⟩ := add_of_blank hblank o ⟨none, depth + 1⟩
    obtain ⟨last, hlast⟩ := ih (n + 1) o
    have hscan : scanLine ⟨none, depth + 1⟩ line = _ := hscan
    refine ⟨last, ?_⟩
    rw [cons_append, groupLines, hscan]
    simp [hgoesOn, hadd, h.ne_nil, hlast, Nat.add_assoc, Nat.add_comm 1]
  | @next depth rows pieces r behind hbehind hopen h ih =>
    subst hbehind
    obtain ⟨last, hlast⟩ := ih (n + 1) ⟨o.first, o.text, o.pieces ++ [r.piece]⟩
    refine ⟨last, ?_⟩
    rw [cons_append, groupLines_row]
    simp [hopen, h.ne_nil, hlast, Nat.add_assoc, Nat.add_comm 1]
  | last r hdepth hgoesOn =>
    refine ⟨n, ?_⟩
    rw [singleton_append, groupLines_row]
    simp [hdepth, hgoesOn]

/-! ## Imports of names -/

/-- A name that is imported, and the name it gets if that is another one. -/
structure ImportedName where
  name : List Char
  known? : Option (List Char)
  isWord : IsWord name ∧ ∀ known ∈ known?, IsWord known

namespace ImportedName

variable (i : ImportedName)

def text : List Char :=
  i.known?.elim i.name fun known => i.name ++ (" as ".toList ++ known)

theorem text_ne_nil : i.text ≠ [] := by
  obtain ⟨name, known?, hname, -⟩ := i
  cases known? <;> simp [text, hname.1]

theorem aliased_text : aliased i.text = (i.name, i.known?.getD i.name) := by
  have hblank : ∀ {w : List Char}, IsWord w → ∀ c ∈ w, isBlank c = false :=
    fun hw c hc => isBlank_of_isWordChar (hw.2 c hc)
  have htrim : ∀ {w : List Char}, IsWord w → trim w = w :=
    fun hw => trim_of_neat (neat_of_filled hw.1 (hblank hw))
  obtain ⟨name, known?, hname, hknown⟩ := i
  have hspace : ' ' ∉ name := fun h => by cases hblank hname _ h
  cases known? with
  | none =>
    have hcut : cutAt? " as ".toList name = none := cutAt?_eq_none hspace
    rw [aliased, text, Option.elim_none, hcut]
    exact congrArg₂ Prod.mk (htrim hname) (htrim hname)
  | some known =>
    have hcut : cutAt? " as ".toList (name ++ (" as ".toList ++ known)) = some (name, known) :=
      cutAt?_append hspace known
    rw [aliased, text, Option.elim_some, hcut]
    exact congrArg₂ Prod.mk (htrim hname) (htrim (hknown known rfl))

end ImportedName

/-- A list with commas between its parts, which may stand in parentheses. -/
def listText (parens : Bool) (parts : List (List Char)) : List Char :=
  if parens then '(' :: (joinWith [','] parts ++ [')']) else joinWith [','] parts

/-- Names that are imported from a module, with white space around them. A comma may stand behind
    the last one. -/
structure FromImport where
  module : List Char
  items : List ImportedName
  parens : Bool
  parts : List (List Char)
  module_ne : module ≠ []
  module_dotted : ∀ c ∈ module, c = '.' ∨ isWordChar c = true
  items_ne : items ≠ []
  parts_plain : ∀ p ∈ parts, ∀ c ∈ p, isBlank c = true ∨ isWordChar c = true
  parts_trim : parts.map trim = items.map ImportedName.text ∨
    parts.map trim = items.map ImportedName.text ++ [[]]
  list_trim : trim (listText parens parts) = listText parens parts

namespace FromImport

variable (f : FromImport)

def list : List Char :=
  listText f.parens f.parts

def code : List Char :=
  "from".toList ++ ([' '] ++ (f.module ++ ([' '] ++ ("import".toList ++ ([' '] ++ f.list)))))

/-- The imports, each with the module in front of its name. -/
def entries : Imports :=
  let lead := if f.module.all (· == '.') then f.module else f.module ++ ['.']
  f.items.map fun i => ⟨String.ofList (i.known?.getD i.name), String.ofList (lead ++ i.name)⟩

theorem parts_ne_nil : f.parts ≠ [] := by
  intro h
  have hparts := f.parts_trim
  simp [h, f.items_ne] at hparts

theorem idle_parts {p : List Char} (hp : p ∈ f.parts) : Idle ',' p := by
  refine idle_of_not_mem_marks (by decide) fun c hc => ?_
  exact (f.parts_plain p hp c hc).elim not_mem_marks_of_isBlank not_mem_marks_of_isWordChar

theorem splitCommas_parts : splitCommas (joinWith [','] f.parts) = f.items.map (·.text) := by
  have hnested : ∀ p ∈ f.parts, Nested true (· == ',') p := fun p hp =>
    (f.idle_parts hp).nested fits_splitter
  have hseparable : Separable f.parts :=
    ⟨fun p hp => hnested p (mem_of_mem_dropLast hp),
      fun p hp => ⟨[], by simpa using hnested p (mem_of_getLast? hp)⟩⟩
  have hlast : (f.items.map (·.text)).getLast? ≠ some [] := fun h => by
    obtain ⟨i, -, hi⟩ := mem_map.1 (mem_of_getLast? h)
    exact i.text_ne_nil hi
  rw [splitCommas, hseparable.split f.parts_ne_nil]
  rcases f.parts_trim with h | h <;> rw [h]
  · rw [if_neg (by simpa using hlast)]
  · simp

theorem not_mem_parts {c : Char} (hc : (isOpening c || isClosing c)) :
    c ∉ joinWith [','] f.parts := by
  have hnone : (joinWith [','] f.parts).countP (fun c => isOpening c || isClosing c) = 0 := by
    rw [countP_joinWith rfl, countP_eq_zero]
    intro c hc
    obtain ⟨p, hp, hc⟩ := mem_flatten.1 hc
    obtain ⟨hopen, hclose, -⟩ := f.idle_parts hp c hc
    simp [hopen, hclose]
  exact fun hmem => countP_eq_zero.1 hnone c hmem hc

theorem list_ne_nil : f.list ≠ [] := by
  rw [list, listText]
  split
  · simp
  · intro h
    have hsplit := f.splitCommas_parts
    rw [h] at hsplit
    exact f.items_ne (map_eq_nil_iff.1 hsplit.symm)

theorem dropEnd_list :
    dropEnd (· == ')') (f.list.dropWhile (· == '(')) = joinWith [','] f.parts := by
  have hfront : ∀ {c : Char} {s : List Char}, c ∉ s → s.dropWhile (· == c) = s := by
    intro c s h
    cases s with
    | nil => rfl
    | cons d s => exact dropWhile_cons_of_neg (by simpa using Ne.symm (ne_of_not_mem_cons h))
  have hback : dropEnd (· == ')') (joinWith [','] f.parts) = joinWith [','] f.parts := by
    rw [dropEnd, hfront (by simpa using f.not_mem_parts rfl), reverse_reverse]
  have hopen : '(' ∉ joinWith [','] f.parts := f.not_mem_parts rfl
  rw [list, listText]
  split
  · rw [dropWhile_cons_of_pos rfl, hfront (by simpa using hopen), dropEnd_concat, hback]
    rfl
  · rw [hfront hopen, hback]

/-- The names are read of the code of an import. -/
theorem fromImports?_code : fromImports? f.code = some f.entries := by
  have hgap : IsGap [' '] := ⟨by simp, all_eq_true.1 rfl⟩
  have hmodule : ∀ c ∈ f.module, isBlank c = false := fun c hc =>
    (f.module_dotted c hc).elim (by rintro rfl; rfl) isBlank_of_isWordChar
  have htrim : trim f.list = f.list := f.list_trim
  have hlist : Starts f.list := htrim ▸ (starts_trim _).1
  have himport := afterWord?_append "import" hgap hlist
  have hstarts : Starts (f.module ++ ([' '] ++ ("import".toList ++ ([' '] ++ f.list)))) := by
    obtain ⟨c, module, h⟩ := exists_cons_of_ne_nil f.module_ne
    rw [h] at hmodule ⊢
    rintro d ⟨⟩
    exact hmodule c mem_cons_self
  have htake : (f.module ++ ([' '] ++ ("import".toList ++ ([' '] ++ f.list)))).takeWhile
      (!isBlank ·) = f.module := by
    rw [takeWhile_append_of_pos (by simpa using hmodule)]
    exact append_nil _
  rw [fromImports?, code, afterWord?_append "from" hgap hstarts]
  simp only [Option.bind_eq_bind, Option.bind_some, htake, drop_left]
  have hblank : afterBlank? ([' '] ++ ("import".toList ++ ([' '] ++ f.list))) =
      some ("import".toList ++ ([' '] ++ f.list)) := rfl
  rw [hblank, Option.bind_some, himport, Option.bind_some, htrim, f.dropEnd_list,
    f.splitCommas_parts, if_neg (by simp [f.module_ne, f.list_ne_nil]), filterMap_map]
  refine congrArg some ?_
  rw [entries, ← filterMap_eq_map]
  refine filterMap_congr fun i _ => ?_
  simp [i.aliased_text, i.isWord.1.1]

end FromImport

/-! ## Modules -/

/-- The imports that are made by the lines at the margin. -/
def importsIn (ls : List LogicalLine) : Imports :=
  (ls.filter fun l => l.isTop && l.kind ≠ .decorator).flatMap fun l =>
    if l.opensBlock then [] else (imports? l.code).getD []

theorem imports_outline_eq (path : String) (text : List Char) :
    (outline path text).imports = importsIn (logicalLines (lines text)) := by
  have hheads := map_head_statementsIn (p := (·.isTop)) (fun l hl => by
    simpa [LogicalLine.isTop] using hl) 0 [] (logicalLines (lines text))
  rw [drop_zero] at hheads
  rw [imports_outline, importsIn, ← hheads, flatMap_map]
  rfl

theorem importsIn_append (ls ls' : List LogicalLine) :
    importsIn (ls ++ ls') = importsIn ls ++ importsIn ls' := by
  simp [importsIn]

theorem FromImport.importsIn_line (f : FromImport) (first last : Nat) :
    importsIn [⟨first, last, 0, .code, f.code⟩] = f.entries := by
  rw [importsIn, filter_cons_of_pos rfl, filter_nil, flatMap_singleton, imports?,
    f.fromImports?_code]
  rfl

/-- Whatever rows an import of names is written on, the imports of a module are the same. -/
theorem imports_of_layout (path : String) {text above below : List Char}
    {rows pieces : List (List Char)} {f : FromImport}
    (htext : lines text = lines above ++ (rows ++ lines below))
    (habove : EndsClosed {} (lines above)) (hrows : Spans 0 rows pieces)
    (hindent : ∀ row ∈ rows.head?, indentOf row = 0) (hcode : joinWith [' '] pieces = f.code) :
    (outline path text).imports =
      (outline path above).imports ++ (f.entries ++ (outline path below).imports) := by
  obtain ⟨row, more, rfl⟩ := exists_cons_of_ne_nil hrows.ne_nil
  have hrow : indentOf row = 0 := hindent row rfl
  let n := (lines above).length + 1
  obtain ⟨last, hlast⟩ := hrows.groupLines_eq n ⟨n, row, []⟩ (lines below)
  have hgroup : groupLines {} n none (row :: more ++ lines below) = _ := hlast
  have hclose : OpenLine.close ⟨n, row, [] ++ pieces⟩ last = ⟨n, last, 0, .code, f.code⟩ := by
    rw [OpenLine.close, nil_append, hcode, hrow]
    rfl
  -- The lines below have other numbers than by themselves.
  have hbelow : importsIn (groupLines {} (n + (row :: more).length) none (lines below)) =
      importsIn (logicalLines (lines below)) := by
    have hn : n + (row :: more).length = 1 + (lines above ++ row :: more).length := by
      rw [length_append]
      omega
    have hadd : groupLines {} (1 + (lines above ++ row :: more).length) none (lines below) = _ :=
      groupLines_add _ {} 1 none (lines below)
    rw [hn, hadd, importsIn, filter_map, flatMap_map]
    rfl
  rw [imports_outline_eq, imports_outline_eq, imports_outline_eq, htext,
    logicalLines_append habove, importsIn_append, hgroup, hclose, ← singleton_append,
    importsIn_append, f.importsIn_line, hbelow]

/-- Two names in parentheses, the first one under another name. -/
def spreadImport : FromImport where
  module := "..pkg".toList
  items := [⟨['a'], some ['b'], by simp [IsWord]; decide⟩, ⟨['c'], none, by simp [IsWord]; decide⟩]
  parens := true
  parts := [" a as b".toList, " c".toList, [' ']]
  module_ne := by decide
  module_dotted := forall_mem_of_all (by decide)
  items_ne := by simp
  parts_plain := forall_mem_cons.2 ⟨forall_mem_of_all (by decide), forall_mem_cons.2
    ⟨forall_mem_of_all (by decide), forall_mem_singleton.2 (forall_mem_of_all (by decide))⟩⟩
  parts_trim := by decide +kernel
  list_trim := by decide +kernel

theorem imports_of_layout_spread :
    (outline "m.py" <| String.toList
      "import os\nfrom ..pkg \\\n  import (  # names\n    # first\n  a as b,\n\tc,\n)\nimport re"
      ).imports =
      [⟨"os", "os"⟩, ⟨"b", "..pkg.a"⟩, ⟨"c", "..pkg.c"⟩, ⟨"re", "re"⟩] := by
  have habove : EndsClosed {} (lines "import os".toList) := by
    rw [EndsClosed]
    decide +kernel
  have hrows : Spans 0 _ _ :=
    .next (.mk [] "from ..pkg".toList [' '] ['\\']) 0 (by decide +kernel) (.inr rfl) <|
    .next (.mk [' ', ' '] "import (".toList [' ', ' '] "# names".toList) 1 (by decide +kernel)
      (.inl one_pos) <|
    .quiet (show saysNothing "    # first".toList = true by decide +kernel) <|
    .next (.mk [' ', ' '] "a as b,".toList [] []) 1 (by decide +kernel) (.inl one_pos) <|
    .next (.mk ['\t'] "c,".toList [] []) 1 (by decide +kernel) (.inl one_pos) <|
    .last (.mk [] [')'] [] []) (by decide +kernel) rfl
  exact (@imports_of_layout "m.py" _ _ "import re".toList _ _ spreadImport (by decide +kernel)
    habove hrows (by decide +kernel) (by decide +kernel)).trans (by decide +kernel)

end CodeAtlas.Python
