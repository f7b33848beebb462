import CodeAtlas.Proofs.Python.Token

/-!
# How lines are read

The lines of a text are read one by one, each from what was open at the end of the line
before (`results`). In the middle of a line, what was kept of it so far tells whether a
backslash at its end would count (`IsQuiet`). Reading goes on token by token: a token that
is no line feed of its own is passed over (`PassesOver`), with the lines that end in it.

* `scanFrom_short`: a literal in single quotes is passed over, by induction on its pieces;
* `resume_piece`, `resume_long`: so is one in triple quotes, line by line;
* `passesOver_token`: so is any token, case by case;
* `lineEnds_resume`: what is found at the ends of lines is what the lexical rules say, by
  induction on the tokens.
-/

namespace CodeAtlas.Python

open Text List

/-! ## The results of reading lines -/

/-- What is read behind what was kept before. -/
def kept (taken : List Char) (r : List Char × ScanState) : List Char × ScanState :=
  (taken ++ r.1, r.2)

/-- What is read of each line. -/
def results (st : ScanState) : List (List Char) → List (List Char × ScanState)
  | [] => []
  | line :: rest => scanLine st line :: results (scanLine st line).2 rest

/-- What is read of a line from the middle on, where `before` was kept of it, and of the
    lines behind it. -/
def resume (before : List Char) (mode : Mode) (depth : Nat) (line : List Char)
    (rest : List (List Char)) : List (List Char × ScanState) :=
  kept before (scanFrom mode depth line) :: results (scanFrom mode depth line).2 rest

/-- Nothing is open behind a line. -/
def isClosed (r : List Char × ScanState) : Bool :=
  r.2.triple.isNone && r.2.depth = 0 && !continues r.1 r.2

/-! ## Reading on within a line -/

variable {q c : Char} {depth depth' : Nat} {before line text : List Char} {rest : List (List Char)}
  {body : List Piece} {mode : Mode}

theorem scanFrom_plain (hc : c ≠ '#') (hq : isQuote c = false) (s : List Char) :
    scanFrom .code depth (c :: s) = kept [c] (scanFrom .code (depthAfter c depth) s) := by
  rw [scanFrom.eq_def]
  simp [hc, hq, kept]

theorem scanFrom_comment (s : List Char) :
    scanFrom .code depth ('#' :: s) = ([], ⟨none, depth⟩) := by
  rw [scanFrom.eq_def]
  rfl

theorem isQuote_spec (hq : isQuote q) :
    q ≠ '#' ∧ q ≠ '\n' ∧ q ≠ '\\' ∧ isBlank q = false := by
  rcases (by simpa [isQuote] using hq : q = '\x27' ∨ q = '"') with rfl | rfl <;> decide

theorem ne_backslash_of_isQuote (hq : isQuote q) : q ≠ '\\' :=
  (isQuote_spec hq).2.2.1

theorem scanFrom_quotes (hq : isQuote q) (s : List Char) :
    scanFrom .code depth (q :: q :: q :: s) = kept [q, q, q] (scanFrom (.triple q) depth s) := by
  rw [scanFrom.eq_def]
  simp [isQuote_spec hq, hq, kept]

variable {s : List Char}

theorem scanFrom_quote (hq : isQuote q) (hs : ¬ [q, q] <+: s) :
    scanFrom .code depth (q :: s) = kept [q] (scanFrom (.string q) depth s) := by
  rw [scanFrom.eq_def]
  -- The scan looks two characters ahead for the other quotes of three.
  rcases s with _ | ⟨d, _ | ⟨e, s⟩⟩
  · simp [isQuote_spec hq, hq, kept]
  · simp [isQuote_spec hq, hq, kept]
  · have hde : ¬ (d = q ∧ e = q) := by
      rintro ⟨rfl, rfl⟩
      exact hs ⟨s, rfl⟩
    simp [isQuote_spec hq, hq, hde, kept]

/-- A literal in single quotes is passed over. -/
theorem scanFrom_short (hbody : ∀ p ∈ body, p ≠ .plain q ∧ p ≠ .plain '\\') (hq : q ≠ '\\')
    (s : List Char) :
    scanFrom (.string q) depth (body.flatMap Piece.text ++ q :: s) =
      kept (body.flatMap Piece.text ++ [q]) (scanFrom .code depth s) := by
  induction body with
  | nil =>
    rw [flatMap_nil, nil_append, nil_append, scanFrom.eq_def]
    simp [hq, kept]
  | cons p body ih =>
    have ih := ih fun p hp => hbody p (mem_cons_of_mem _ hp)
    have hp := hbody p mem_cons_self
    rw [flatMap_cons]
    cases p with
    | plain c =>
      have hc : c ≠ q ∧ c ≠ '\\' := by simpa using hp
      rw [Piece.text, scanFrom.eq_def]
      simp [hc, ih, kept]
    | escaped c =>
      rw [Piece.text, scanFrom.eq_def]
      simp [ih, kept]

theorem scanFrom_triple_close (hq : q ≠ '\\') (s : List Char) :
    scanFrom (.triple q) depth (q :: q :: q :: s) = kept [q, q, q] (scanFrom .code depth s) := by
  rw [scanFrom.eq_def]
  simp [hq, kept]

theorem scanFrom_triple_escaped (c : Char) (s : List Char) :
    scanFrom (.triple q) depth ('\\' :: c :: s) =
      kept ['\\', c] (scanFrom (.triple q) depth s) := by
  rw [scanFrom.eq_def]
  simp [kept]

theorem scanFrom_triple_plain (hc : c ≠ '\\') (hs : ¬ [q, q, q] <+: c :: s) :
    scanFrom (.triple q) depth (c :: s) = kept [c] (scanFrom (.triple q) depth s) := by
  rw [scanFrom.eq_def]
  rcases s with _ | ⟨d, _ | ⟨e, s⟩⟩
  · rfl
  · simp [hc, kept]
  · have hcde : ¬ ((c = q ∧ d = q) ∧ e = q) := by
      rintro ⟨⟨rfl, rfl⟩, rfl⟩
      exact hs ⟨s, rfl⟩
    simp [hc, hcde, kept]

theorem kept_kept (s t : List Char) (r : List Char × ScanState) :
    kept s (kept t r) = kept (s ++ t) r := by
  simp [kept]

theorem resume_append {mode' : Mode}
    (h : scanFrom mode depth (s ++ line) = kept s (scanFrom mode' depth' line)) :
    resume before mode depth (s ++ line) rest = resume (before ++ s) mode' depth' line rest := by
  rw [resume, h, kept_kept]
  rfl

/-- At the end of a line the next one is read. -/
theorem resume_nil (hmode : (ScanState.ofMode mode depth).mode = mode) :
    resume before mode depth [] (line :: rest) =
      (before, .ofMode mode depth) :: resume [] mode depth line rest := by
  have hdepth : (ScanState.ofMode mode depth).depth = depth := by cases mode <;> rfl
  have hnext : scanLine (.ofMode mode depth) line = scanFrom mode depth line := by
    rw [scanLine, hmode, hdepth]
  rw [resume, scanFrom, results, hnext]
  simp [resume, kept]

/-! ## Physical lines -/

/-- The text is the rest of a line and the lines behind it. -/
structure Splits (text line : List Char) (rest : List (List Char)) : Prop where
  text_eq : text = line ++ '\n' :: linesText rest
  whole : '\n' ∉ line
  unbroken : ∀ line ∈ rest, '\n' ∉ line

theorem Splits.cons (h : Splits (c :: text) line rest) (hc : c ≠ '\n') :
    ∃ line', line = c :: line' ∧ Splits text line' rest := by
  have htext := h.text_eq
  cases line with
  | nil =>
    cases htext
    exact absurd rfl hc
  | cons d line =>
    cases htext
    exact ⟨line, rfl, rfl, fun hl => h.whole (mem_cons_of_mem _ hl), h.unbroken⟩

theorem Splits.append (h : Splits (s ++ text) line rest) (hs : '\n' ∉ s) :
    ∃ line', line = s ++ line' ∧ Splits text line' rest := by
  induction s generalizing line with
  | nil => exact ⟨line, rfl, h⟩
  | cons c s ih =>
    have hc : c ≠ '\n' := fun hc => hs (hc ▸ mem_cons_self)
    obtain ⟨line', rfl, hsplit⟩ := Splits.cons h hc
    obtain ⟨line'', rfl, hrest⟩ := ih hsplit fun hm => hs (mem_cons_of_mem _ hm)
    exact ⟨line'', rfl, hrest⟩

/-- Behind a line feed another line begins, unless the text ends there. -/
theorem Splits.newline (h : Splits ('\n' :: text) line rest) :
    line = [] ∧ (text = [] ∧ rest = [] ∨
      text ≠ [] ∧ ∃ line' rest', rest = line' :: rest' ∧ Splits text line' rest') := by
  have htext := h.text_eq
  cases line with
  | cons d line =>
    cases htext
    exact absurd mem_cons_self h.whole
  | nil =>
    cases htext
    refine ⟨rfl, ?_⟩
    cases rest with
    | nil => exact .inl ⟨rfl, rfl⟩
    | cons line' rest' =>
      obtain ⟨hline, hrest⟩ := forall_mem_cons.1 h.unbroken
      exact .inr ⟨by simp [linesText], line', rest', rfl, by simp [linesText], hline, hrest⟩

theorem Splits.next (h : Splits ('\n' :: text) line rest) (htext : text ≠ []) :
    line = [] ∧ ∃ line' rest', rest = line' :: rest' ∧ Splits text line' rest' :=
  h.newline.imp_right fun hnext => (hnext.resolve_left fun hnil => htext hnil.1).2

/-! ## Literals in triple quotes -/

/-- A quote within a literal in triple quotes does not end it. -/
theorem not_quotes_prefix (hq : q ≠ '\\') (hlast : (.plain c :: body).getLast? ≠ some (.plain q))
    (hinner : ¬ [.plain q, .plain q, .plain q] <:+: .plain c :: body) :
    ¬ [q, q, q] <+: c :: (body.flatMap Piece.text ++ s) := by
  rintro ⟨t, ht⟩
  obtain ⟨rfl, htail⟩ := List.cons.inj ht
  -- Of three quotes in a row, the last two are pieces of the body or beyond its end.
  cases body with
  | nil => exact hlast rfl
  | cons p body =>
    rw [flatMap_cons, append_assoc] at htail
    obtain ⟨rfl, hnext⟩ := Piece.head_text hq htail.symm
    cases body with
    | nil => exact hlast rfl
    | cons p body =>
      rw [flatMap_cons, append_assoc] at hnext
      obtain ⟨rfl, -⟩ := Piece.head_text hq hnext
      exact hinner ⟨[], body, rfl⟩

theorem resume_triple_nil :
    (resume before (.triple q) depth [] (line :: rest)).map isClosed =
      false :: (resume [] (.triple q) depth line rest).map isClosed := by
  rfl

/-- One piece of a literal in triple quotes: if it holds a line feed, the literal goes on in
    the next line. -/
theorem resume_piece {p : Piece} (hp : p ≠ .plain '\\')
    (hopen : ∀ c, p = .plain c → ¬ [q, q, q] <+: c :: text) (htext : text ≠ [])
    (hsplit : Splits (p.text ++ text) line rest) :
    ∃ before' line' rest', Splits text line' rest' ∧
      (resume before (.triple q) depth line rest).map isClosed =
        List.replicate (p.text.count '\n') false ++
          (resume before' (.triple q) depth line' rest').map isClosed := by
  cases p with
  | plain c =>
    by_cases hc : c = '\n'
    · subst hc
      obtain ⟨rfl, line', rest', rfl, hnext⟩ := Splits.next hsplit htext
      exact ⟨[], line', rest', hnext, resume_triple_nil⟩
    · obtain ⟨line', rfl, hnext⟩ := Splits.cons hsplit hc
      have hcode : c ≠ '\\' := fun h => hp (h ▸ rfl)
      have hline : ¬ [q, q, q] <+: c :: line' := fun h =>
        hopen c rfl (h.trans ⟨_, hsplit.text_eq.symm⟩)
      refine ⟨before ++ [c], line', rest, hnext, ?_⟩
      rw [← resume_append (scanFrom_triple_plain hcode hline)]
      simp [Piece.text, hc]
  | escaped c =>
    have hslash : '\\' ≠ '\n' := by decide
    obtain ⟨line', rfl, hbehind⟩ := Splits.cons hsplit hslash
    by_cases hc : c = '\n'
    · -- The backslash is the last character of its line.
      subst hc
      obtain ⟨rfl, line', rest', rfl, hnext⟩ := Splits.next hbehind htext
      have hstep : scanFrom (.triple q) depth (['\\'] ++ []) =
          kept ['\\'] (scanFrom (.triple q) depth []) := by
        rw [append_nil, scanFrom.eq_def]
        rfl
      refine ⟨[], line', rest', hnext, ?_⟩
      rw [← append_nil ['\\'], resume_append hstep, resume_triple_nil]
      rfl
    · obtain ⟨line', rfl, hnext⟩ := Splits.cons hbehind hc
      refine ⟨before ++ ['\\', c], line', rest, hnext, ?_⟩
      rw [← resume_append (scanFrom_triple_escaped c line')]
      simp [Piece.text, hc]

/-- Within a literal in triple quotes no line ends a logical one, and behind it code is
    read again. -/
theorem resume_long (hq : q ≠ '\\' ∧ q ≠ '\n')
    (hplain : ∀ p ∈ body, p ≠ .plain '\\') (hlast : body.getLast? ≠ some (.plain q))
    (hinner : ¬ [.plain q, .plain q, .plain q] <:+: body)
    (hsplit : Splits (body.flatMap Piece.text ++ q :: q :: q :: text) line rest) :
    ∃ before' line' rest', Splits text line' rest' ∧
      (resume before (.triple q) depth line rest).map isClosed =
        List.replicate ((body.flatMap Piece.text).count '\n') false ++
          (resume (before' ++ [q]) .code depth line' rest').map isClosed := by
  induction body generalizing before line rest with
  | nil =>
    -- The quotes at the end are on one line.
    have hquotes : '\n' ∉ [q, q, q] := by simp [hq.2.symm]
    obtain ⟨line', rfl, hrest⟩ := Splits.append (s := [q, q, q]) hsplit hquotes
    refine ⟨before ++ [q, q], line', rest, hrest, ?_⟩
    rw [resume_append (scanFrom_triple_close hq.1 line')]
    simp
  | cons p body ih =>
    have hlast' : body.getLast? ≠ some (.plain q) := by
      cases body with
      | nil => simp
      | cons p' body => rwa [getLast?_cons_cons] at hlast
    have hinner' : ¬ [.plain q, .plain q, .plain q] <:+: body := fun h =>
      hinner (h.trans (suffix_cons p body).isInfix)
    have hopen : ∀ c, p = .plain c →
        ¬ [q, q, q] <+: c :: (body.flatMap Piece.text ++ q :: q :: q :: text) := by
      rintro c rfl
      exact not_quotes_prefix hq.1 hlast hinner
    rw [flatMap_cons, append_assoc] at hsplit
    obtain ⟨before₁, line₁, rest₁, hsplit₁, heq₁⟩ :=
      @resume_piece q depth before line _ rest p (hplain p mem_cons_self) hopen (by simp) hsplit
    obtain ⟨before₂, line₂, rest₂, hsplit₂, heq₂⟩ :=
      @ih before₁ line₁ rest₁ (fun p hp => hplain p (mem_cons_of_mem _ hp)) hlast' hinner'
        hsplit₁
    refine ⟨before₂, line₂, rest₂, hsplit₂, ?_⟩
    rw [heq₁, heq₂, flatMap_cons, count_append, ← append_assoc,
      replicate_append_replicate]

/-! ## Token by token -/

/-- A line that ends with this code goes on nowhere. -/
def IsQuiet (code : List Char) : Prop :=
  (trimEnd code).getLast? ≠ some '\\'

theorem dropEnd_concat {p : Char → Bool} (s : List Char) (c : Char) :
    dropEnd p (s ++ [c]) = if p c then dropEnd p s else s ++ [c] := by
  rw [dropEnd, reverse_append, reverse_singleton, singleton_append,
    dropWhile_cons]
  split
  · rfl
  · simp

theorem isQuiet_nil : IsQuiet [] := by
  simp [IsQuiet, trimEnd, dropEnd]

theorem isQuiet_concat (hbefore : IsQuiet before) (hc : c ≠ '\\') : IsQuiet (before ++ [c]) := by
  rw [IsQuiet, trimEnd, dropEnd_concat]
  split
  · exact hbefore
  · simpa using hc

theorem isQuiet_quote (hq : isQuote q) : IsQuiet (before ++ [q]) := by
  rw [IsQuiet, trimEnd, dropEnd_concat, (isQuote_spec hq).2.2.2]
  simpa using ne_backslash_of_isQuote hq

theorem isClosed_code (hbefore : IsQuiet before) (opened : List Bracket) :
    isClosed (before, .ofMode .code opened.length) = opened.isEmpty := by
  have hquiet : ((trimEnd before).getLast? == some '\\') = false := by
    simpa [IsQuiet] using hbefore
  rw [isClosed, continues, hquiet]
  cases opened <;> simp [ScanState.ofMode]

theorem isClosed_joint : isClosed (before ++ ['\\'], .ofMode .code depth) = false := by
  have hslash : trimEnd (before ++ ['\\']) = before ++ ['\\'] := by
    rw [trimEnd, dropEnd_concat]
    rfl
  simp [isClosed, continues, ScanState.ofMode, hslash]

/-- A character of code that is no quote and starts no comment. -/
theorem resume_char (hc : c ≠ '#' ∧ isQuote c = false) :
    resume before .code depth (c :: line) rest =
      resume (before ++ [c]) .code (depthAfter c depth) line rest := by
  rw [← singleton_append, resume_append (scanFrom_plain hc.1 hc.2 line)]

theorem resume_short (hq : isQuote q)
    (hbody : ∀ p ∈ body, p ≠ .plain q ∧ p ≠ .plain '\\')
    (hline : body = [] → line.head? ≠ some q) :
    resume before .code depth (q :: (body.flatMap Piece.text ++ q :: line)) rest =
      resume (before ++ q :: body.flatMap Piece.text ++ [q]) .code depth line rest := by
  have hslash := ne_backslash_of_isQuote hq
  have hstart : ¬ [q, q] <+: body.flatMap Piece.text ++ q :: line := by
    rintro ⟨t, ht⟩
    cases body with
    | nil =>
      cases ht
      exact hline rfl rfl
    | cons p body =>
      rw [flatMap_cons, append_assoc] at ht
      exact (hbody p mem_cons_self).1 (Piece.head_text hslash ht.symm).1
  have hscan : scanFrom .code depth ((q :: body.flatMap Piece.text ++ [q]) ++ line) =
      kept (q :: body.flatMap Piece.text ++ [q]) (scanFrom .code depth line) := by
    rw [append_assoc, cons_append, singleton_append, scanFrom_quote hq hstart,
      scanFrom_short hbody hslash]
    rfl
  rw [show q :: (body.flatMap Piece.text ++ q :: line) =
    (q :: body.flatMap Piece.text ++ [q]) ++ line by simp, resume_append hscan, append_assoc]

theorem not_mem_text_short (hq : q ≠ '\n')
    (hbody : ∀ p ∈ body, p ≠ .plain '\n') (hover : .escaped '\n' ∉ body) :
    '\n' ∉ q :: body.flatMap Piece.text ++ [q] := by
  have hpieces : '\n' ∉ body.flatMap Piece.text :=
    Piece.not_mem_flatMap_text (by decide) fun p hp =>
      ⟨hbody p hp, fun h => hover (h ▸ hp)⟩
  simp [hq.symm, hpieces]

variable {opened opened' : List Bracket} {t : Token} {ts : List Token}

theorem of_not_mem_specials (hc : c ∉ specials) :
    c ≠ '\n' ∧ c ≠ '\\' ∧ c ≠ '#' ∧ isQuote c = false ∧ depthAfter c depth = depth := by
  simp [specials] at hc
  simp [isQuote, depthAfter, isOpening, isClosing, hc]

theorem scanFrom_append (hs : ∀ c ∈ s, c ∉ specials) (t : List Char) :
    scanFrom .code depth (s ++ t) = kept s (scanFrom .code depth t) := by
  induction s with
  | nil => rfl
  | cons c s ih =>
    obtain ⟨hc, hs⟩ := forall_mem_cons.1 hs
    obtain ⟨-, -, hhash, hquote, hdepth⟩ := @of_not_mem_specials c depth hc
    rw [cons_append, scanFrom_plain hhash hquote, hdepth, ih hs]
    rfl

/-- Of the next lines, `n` end no logical line, and in the one behind them `text` is read
    as code. -/
def PassesOver (n : Nat) (text : List Char) (depth : Nat) (ends : List Bool) : Prop :=
  ∃ before line rest, IsQuiet before ∧ Splits text line rest ∧
    ends = List.replicate n false ++ (resume before .code depth line rest).map isClosed

/-- A single character of code, which may be a bracket. -/
theorem passesOver_char
    (hc : c ≠ '\n' ∧ c ≠ '\\' ∧ c ≠ '#' ∧ isQuote c = false ∧ depthAfter c depth = depth')
    (hbefore : IsQuiet before) (hsplit : Splits (c :: text) line rest) :
    PassesOver ([c].count '\n') text depth'
      ((resume before .code depth line rest).map isClosed) := by
  obtain ⟨hline, hslash, hhash, hquote, rfl⟩ := hc
  obtain ⟨line', rfl, hnext⟩ := Splits.cons hsplit hline
  refine ⟨before ++ [c], line', rest, isQuiet_concat hbefore hslash, hnext, ?_⟩
  rw [resume_char ⟨hhash, hquote⟩]
  simp [hline]

theorem passesOver_joint (htext : text ≠ [])
    (hsplit : Splits ('\\' :: '\n' :: text) line rest) :
    PassesOver 1 text depth ((resume before .code depth line rest).map isClosed) := by
  obtain ⟨line', rfl, hbehind⟩ := Splits.cons hsplit (by decide)
  obtain ⟨rfl, line', rest', rfl, hnext⟩ := Splits.next hbehind htext
  refine ⟨[], line', rest', isQuiet_nil, hnext, ?_⟩
  rw [resume_char ⟨by decide, rfl⟩]
  change (resume (before ++ ['\\']) .code depth [] (line' :: rest')).map isClosed = _
  rw [resume_nil rfl, map_cons, isClosed_joint]
  rfl

theorem passesOver_comment (hs : '\n' ∉ s) (htext : text.head? = some '\n')
    (hbefore : IsQuiet before) (hsplit : Splits ('#' :: (s ++ text)) line rest) :
    PassesOver (('#' :: s).count '\n') text depth
      ((resume before .code depth line rest).map isClosed) := by
  have hcomment : '\n' ∉ '#' :: s := by simpa using hs
  obtain ⟨line', rfl, hnext⟩ := Splits.append (s := '#' :: s) hsplit hcomment
  -- The comment goes to the end of its line, so that nothing is lost with it.
  have hnil : line' = [] := by
    cases line' with
    | nil => rfl
    | cons c line' =>
      obtain rfl : c = '\n' := by simpa [hnext.text_eq] using htext
      exact absurd mem_cons_self hnext.whole
  subst hnil
  refine ⟨before, [], rest, hbefore, hnext, ?_⟩
  rw [cons_append, resume, scanFrom_comment, count_eq_zero.2 hcomment]
  rfl

theorem passesOver_short (hq : isQuote q)
    (hbody : ∀ p ∈ body, p ≠ .plain q ∧ p ≠ .plain '\\' ∧ p ≠ .plain '\n')
    (hover : .escaped '\n' ∉ body) (htext : body = [] → text.head? ≠ some q)
    (hsplit : Splits ((q :: body.flatMap Piece.text ++ [q]) ++ text) line rest) :
    PassesOver ((q :: body.flatMap Piece.text ++ [q]).count '\n') text depth
      ((resume before .code depth line rest).map isClosed) := by
  have hnone := not_mem_text_short (isQuote_spec hq).2.1 (fun p hp => (hbody p hp).2.2) hover
  obtain ⟨line', rfl, hnext⟩ := Splits.append hsplit hnone
  have hhead : body = [] → line'.head? ≠ some q := by
    intro hnil hhead
    refine htext hnil ?_
    rw [hnext.text_eq, head?_append, hhead]
    rfl
  refine ⟨before ++ q :: body.flatMap Piece.text ++ [q], line', rest, isQuiet_quote hq, hnext, ?_⟩
  have hpieces : ∀ p ∈ body, p ≠ .plain q ∧ p ≠ .plain '\\' := fun p hp =>
    ⟨(hbody p hp).1, (hbody p hp).2.1⟩
  rw [count_eq_zero.2 hnone, ← resume_short hq hpieces hhead]
  simp

theorem passesOver_long (hq : isQuote q)
    (hplain : ∀ p ∈ body, p ≠ .plain '\\') (hlast : body.getLast? ≠ some (.plain q))
    (hinner : ¬ [.plain q, .plain q, .plain q] <:+: body)
    (hsplit : Splits ([q, q, q] ++ (body.flatMap Piece.text ++ q :: q :: q :: text)) line rest) :
    PassesOver ((body.flatMap Piece.text).count '\n') text depth
      ((resume before .code depth line rest).map isClosed) := by
  obtain ⟨-, hline, hslash, -⟩ := isQuote_spec hq
  obtain ⟨line', rfl, hnext⟩ := Splits.append hsplit (by simp [hline.symm])
  obtain ⟨before', line'', rest', hbehind, heq⟩ :=
    @resume_long q depth (before ++ [q, q, q]) line' text rest body
      ⟨hslash, hline⟩ hplain hlast hinner hnext
  refine ⟨before' ++ [q], line'', rest', isQuiet_quote hq, hbehind, ?_⟩
  rw [resume_append (scanFrom_quotes hq line'), heq]

/-- One token that is no line feed: no line that ends within it ends a logical line, and
    behind it code is read again. -/
theorem passesOver_token (hnew : t ≠ .newline) (hover : t.runsOver = false)
    (hsound : t.isSound) (hends : t.endsBefore text)
    (hjoint : t = .joint → text ≠ []) (hstep : t.step opened = some opened')
    (hbefore : IsQuiet before) (hsplit : Splits (t.text ++ text) line rest) :
    PassesOver (t.text.count '\n') text opened'.length
      ((resume before .code opened.length line rest).map isClosed) := by
  cases t with
  | plain c =>
    cases hstep
    have hc : c ∉ specials := by simpa [Token.isSound] using hsound
    exact passesOver_char (of_not_mem_specials hc) hbefore hsplit
  | newline => exact absurd rfl hnew
  | joint =>
    cases hstep
    exact passesOver_joint (hjoint rfl) hsplit
  | comment s =>
    cases hstep
    have hs : '\n' ∉ s := by simpa [Token.isSound] using hsound
    exact passesOver_comment hs (by simpa [Token.endsBefore] using hends) hbefore hsplit
  | opening b =>
    cases hstep
    exact passesOver_char (by cases b <;> exact ⟨by decide, by decide, by decide, rfl, rfl⟩)
      hbefore hsplit
  | closing b =>
    rw [Token.step] at hstep
    split at hstep
    · cases hstep
      rw [length_tail]
      exact passesOver_char (by cases b <;> exact ⟨by decide, by decide, by decide, rfl, rfl⟩)
        hbefore hsplit
    · cases hstep
  | literal q long body =>
    cases hstep
    cases long with
    | false =>
      have hs : (q = '\x27' ∨ q = '"') ∧
          ∀ p ∈ body, (p ≠ .plain q ∧ p ≠ .plain '\\') ∧ p ≠ .plain '\n' := by
        simpa [Token.isSound] using hsound
      have hq : isQuote q := by simpa [isQuote] using hs.1
      have hempty : body = [] → text.head? ≠ some q := by
        rintro rfl
        simpa [Token.endsBefore] using hends
      exact passesOver_short hq (fun p hp => and_assoc.1 (hs.2 p hp))
        (by simpa [Token.runsOver] using hover) hempty hsplit
    | true =>
      have hs : (((q = '\x27' ∨ q = '"') ∧ ∀ p ∈ body, p ≠ .plain '\\') ∧
          body.getLast? ≠ some (.plain q)) ∧ ¬ [.plain q, .plain q, .plain q] <:+: body := by
        simpa [Token.isSound] using hsound
      obtain ⟨⟨⟨hq, hplain⟩, hlast⟩, hinner⟩ := hs
      have hq : isQuote q := by simpa [isQuote] using hq
      have hline := (isQuote_spec hq).2.1
      have hcount : (Token.literal q true body).text.count '\n' =
          (body.flatMap Piece.text).count '\n' := by
        simp [Token.text, Token.quotes, hline]
      rw [hcount]
      refine passesOver_long hq hplain hlast hinner ?_
      simpa [Token.text, Token.quotes] using hsplit

/-- What is found at the ends of lines is what the lexical rules say, as far as these are
    told. -/
theorem lineEnds_resume (hsound : areSound ts) (hopen : (openAfter opened ts).isSome)
    (hended : ts.getLast? ≠ some .joint) (hbefore : IsQuiet before)
    (hsplit : Splits (textOf ts) line rest) :
    lineEnds opened ts <+: (resume before .code opened.length line rest).map isClosed := by
  -- `before` is the code that the scan has kept of the line so far.
  induction ts generalizing opened before line rest with
  | nil => exact nil_prefix
  | cons t ts ih =>
    obtain ⟨hfirst, hends, hrest⟩ := areSound_cons.1 hsound
    obtain ⟨s, hs⟩ := Option.isSome_iff_exists.1 hopen
    obtain ⟨opened', hstep, hafter⟩ := Option.bind_eq_some_iff.1 hs
    have hopen' := Option.isSome_of_eq_some hafter
    have hended' : ts.getLast? ≠ some .joint := by
      cases ts with
      | nil => simp
      | cons u ts => rwa [getLast?_cons_cons] at hended
    rw [lineEnds]
    by_cases hnew : t = .newline
    · subst hnew
      cases hstep
      obtain ⟨rfl, ⟨hnil, rfl⟩ | ⟨-, line', rest', rfl, hnext⟩⟩ := Splits.newline hsplit
      · -- This is the last line.
        rw [eq_nil_of_textOf hnil, resume, kept, scanFrom, append_nil, map_cons,
          isClosed_code hbefore]
        exact prefix_refl _
      · rw [if_pos rfl, resume_nil rfl, map_cons, isClosed_code hbefore, prefix_cons_inj]
        exact ih hrest hopen' hended' isQuiet_nil hnext
    · rw [if_neg hnew]
      split
      · exact nil_prefix
      · next hover =>
        have hjoint : t = .joint → textOf ts ≠ [] := by
          rintro rfl hnil
          rw [eq_nil_of_textOf hnil] at hended
          exact hended rfl
        obtain ⟨before', line', rest', hbefore', hsplit', heq⟩ := passesOver_token hnew
          (Bool.eq_false_iff.2 hover) hfirst hends hjoint hstep hbefore hsplit
        rw [heq]
        simp only [hstep]
        exact prefix_append_right_inj _ |>.2 (ih hrest hopen' hended' hbefore' hsplit')

end CodeAtlas.Python
