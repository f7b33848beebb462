import CodeAtlas.Proofs.Json.Layout

/-!
# Reading what is written

A value without fractions whose integers have 64 bits (`Plain`) is read back from the text that
it is written as, unless it is nested too deep (`depth`). There is nothing in between: from the
limit on nothing is read (`Reads`).

This holds of all ways to lay a value out (`Layout`), of which one line is one.

Each lemma says what is read from the text of a part with more text behind it. Of that text it
only matters that no number goes on in it (`Closed`).

* `readString?_quoted`: strings, by induction on their characters;
* `readNumber?_digits`, `readNumber?_minus`: integers;
* `read_series`: items or members, by induction on them, given that each one is read
  (`ReadsEntry`);
* `Plain.reads`: values, by induction on how they are made;
* `readChars?_write`: objects that are whole texts;
* `Plain.newline_not_mem`: a value is written on one line.
-/

namespace CodeAtlas.Json

open List

variable {c : Char} {j : Json} {members : List (String × Json)} (n : Nat) {items : List Json}
  {gap : List Char}

/-- The value has no fraction, all its integers have 64 bits, and the members of its objects
    are sorted by key. -/
inductive Plain : Json → Prop
  | null : Plain .null
  | bool (b : Bool) : Plain (.bool b)
  | nat {n : Nat} : n < wordLimit → Plain (.nat n)
  | negative {n : Nat} : 0 < n → n ≤ wordLimit / 2 → Plain (.negative n)
  | str (s : String) : Plain (.str s)
  | arr {items : List Json} : (∀ j ∈ items, Plain j) → Plain (.arr items)
  | obj {members : List (String × Json)} : (members.map Prod.fst).Pairwise (· < ·) →
    (∀ m ∈ members, Plain m.2) → Plain (.obj members)

mutual

/-- How many arrays and objects are nested in a value. -/
def depth : Json → Nat
  | .arr items => depthItems items + 1
  | .obj members => depthMembers members + 1
  | _ => 0

/-- The largest depth of an item. -/
def depthItems : List Json → Nat
  | [] => 0
  | item :: items => max item.depth (depthItems items)

/-- The largest depth of a member. -/
def depthMembers : List (String × Json) → Nat
  | [] => 0
  | (_, value) :: members => max value.depth (depthMembers members)

end

/-! ## Strings -/

theorem hexDigit?_hexDigit : ∀ n < 16, Text.hexDigit? (hexDigit n) = some n := by decide

/-- An escape of one letter. -/
theorem readString?_letter {e d : Char} (h : letterEscape? e = some d) (n : Nat) (s : List Char) :
    readString? (n + 1) ('\\' :: e :: s) = (readString? n s).map fun p => (d :: p.1, p.2) := by
  have hu : (e == 'u') = false := by
    rw [beq_eq_false_iff_ne]
    rintro rfl
    cases h
  rw [readString?]
  simp [hu, h]

/-- An escape with the code of a character that is half of no pair. -/
theorem readString?_unit {a b : Char} {high low : Nat} (hhigh : Text.hexDigit? a = some high)
    (hlow : Text.hexDigit? b = some low) (hsmall : high * 16 + low < 0xD800) (n : Nat)
    (s : List Char) :
    readString? (n + 1) ('\\' :: 'u' :: '0' :: '0' :: a :: b :: s) =
      (readString? n s).map fun p => (Char.ofNat (high * 16 + low) :: p.1, p.2) := by
  have hzero : Text.hexDigit? '0' = some 0 := by decide
  have hunit : unitEscape? (high * 16 + low) s = some (Char.ofNat (high * 16 + low), s) := by
    unfold unitEscape?
    rw [if_neg (by simp; omega), if_neg (by simp; omega)]
  rw [readString?]
  simp [hexFour?, hhigh, hlow, hzero, hunit]

theorem readString?_plain (hquote : c ≠ '"') (hslash : c ≠ '\\') (hprint : 0x20 ≤ c.toNat) (n : Nat)
    (s : List Char) :
    readString? (n + 1) (c :: s) = (readString? n s).map fun p => (c :: p.1, p.2) := by
  rw [readString?.eq_def]
  simp [hquote, hslash, Nat.not_lt.2 hprint]

/-- A character is read back from how it is written. -/
theorem readString?_escapeChar (c : Char) (s : List Char) :
    readString? (n + 1) (escapeChar c ++ s) =
      (readString? n s).map fun p => (c :: p.1, p.2) := by
  have hcode : ∀ {k}, (c.toNat == k) → Char.ofNat k = c := fun h => by
    rw [← eq_of_beq h, Char.ofNat_toNat]
  have hletter : ∀ {d e : Char}, letterEscape? e = some d → (c == d) →
      readString? (n + 1) ('\\' :: e :: s) = (readString? n s).map fun p => (c :: p.1, p.2) :=
    fun he hd => eq_of_beq hd ▸ readString?_letter he n s
  rw [escapeChar]
  repeat' split
  · next h => exact hletter rfl h
  · next h => exact hletter rfl h
  · next h => exact hletter rfl h
  · next h => exact hletter rfl h
  · next h => exact hletter rfl h
  · next h => exact hcode h ▸ readString?_letter rfl n s
  · next h => exact hcode h ▸ readString?_letter rfl n s
  -- Other control characters are written as two digits, which give back their code.
  · next h =>
    have hcode : c.toNat / 16 * 16 + c.toNat % 16 = c.toNat := Nat.div_add_mod' ..
    refine (readString?_unit (hexDigit?_hexDigit _ (by omega)) (hexDigit?_hexDigit _ (by omega))
      (by omega) n s).trans ?_
    rw [hcode, Char.ofNat_toNat]
  · next hquote hslash _ _ _ _ _ hprint =>
    exact readString?_plain (by simpa using hquote) (by simpa using hslash) (by omega) n s

theorem escapeChar_ne_nil (c : Char) : escapeChar c ≠ [] := by
  rw [escapeChar]
  repeat' split
  all_goals exact cons_ne_nil _ _

/-- A string is read up to its closing quote. -/
theorem readString?_quoted (cs : List Char) (rest : List Char) (n : Nat)
    (hn : (cs.flatMap escapeChar).length < n) :
    readString? n (cs.flatMap escapeChar ++ '"' :: rest) = some (cs, rest) := by
  induction cs generalizing n with
  | nil =>
    obtain ⟨n, rfl⟩ := Nat.exists_eq_add_one_of_ne_zero (Nat.ne_zero_of_lt hn)
    rfl
  | cons c cs ih =>
    obtain ⟨n, rfl⟩ := Nat.exists_eq_add_one_of_ne_zero (Nat.ne_zero_of_lt hn)
    have hpos := length_pos_iff.2 (escapeChar_ne_nil c)
    rw [flatMap_cons, length_append] at hn
    rw [flatMap_cons, append_assoc, readString?_escapeChar, ih n (by omega)]
    rfl

theorem readString?_quote (cs s : List Char) :
    quote cs ++ s = '"' :: (cs.flatMap escapeChar ++ '"' :: s) ∧
      readString? ((cs.flatMap escapeChar ++ '"' :: s).length + 1)
        (cs.flatMap escapeChar ++ '"' :: s) = some (cs, s) := by
  refine ⟨by simp [quote], readString?_quoted cs s _ ?_⟩
  rw [length_append]
  omega

/-! ## Numbers -/

theorem decimalValue_digits : Text.decimalValue (digits n) = n := by
  have hvalue : Text.decimalValue (digits n) = Nat.ofDigitChars 10 (digits n) 0 := by
    rw [Nat.ofDigitChars_eq_foldl]
    simp only [Nat.mul_comm 10]
    rfl
  exact hvalue.trans Nat.ofDigitChars_ten_toDigits

theorem isDigit_of_mem_digits {n : Nat} (hc : c ∈ digits n) : c.isDigit :=
  Nat.isDigit_of_mem_toDigits (by decide) (by decide) hc

theorem head_digits : ∃ c t, digits n = c :: t ∧ c.isDigit := by
  obtain ⟨c, t, hdigits⟩ := exists_cons_of_ne_nil (Nat.toDigits_ne_nil (n := n) (b := 10))
  exact ⟨c, t, hdigits, isDigit_of_mem_digits (hdigits ▸ mem_cons_self)⟩

/-- A number of several digits does not start with a zero. -/
theorem head?_digits {n : Nat} (hn : 10 ≤ n) : (digits n).head? ≠ some '0' := by
  induction n using Nat.strongRecOn with
  | _ n ih =>
    have hsplit : digits n = digits (n / 10) ++ [(n % 10).digitChar] :=
      Nat.toDigits_of_base_le (by decide) hn
    rw [hsplit, head?_append, Option.or_of_isSome (by simp [digits, Nat.toDigits_ne_nil])]
    by_cases hlarge : 10 ≤ n / 10
    · exact ih _ (by omega) hlarge
    · rw [digits, Nat.toDigits_of_lt_base (by omega), head?_cons, Ne, Option.some_inj,
        Nat.digitChar_eq_zero]
      omega

/-- A number is written as numbers may be: with some digit, and no zero ahead of others. -/
theorem digits_canonical :
    ((digits n).isEmpty || (decide ((digits n).length > 1) && (digits n).head? == some '0')) =
      false := by
  have hne : (digits n).isEmpty = false := by
    rw [isEmpty_eq_false_iff]
    exact Nat.toDigits_ne_nil
  rw [hne]
  by_cases hn : 10 ≤ n
  · have hhead := head?_digits hn
    simp [hhead]
  · rw [digits, Nat.toDigits_of_lt_base (by omega)]
    rfl

/-- No number goes on in the text: it starts with a mark or white space. -/
def Closed (s : List Char) : Prop :=
  ∀ c ∈ s.head?, c ∈ [',', ']', '\x7d'] ∨ isSpace c = true

theorem closed_cons (hc : c ∈ [',', ']', '\x7d']) (s : List Char) : Closed (c :: s) := by
  intro d hd
  cases hd
  exact .inl hc

theorem closed_append {gap : List Char} (hgap : ∀ c ∈ gap, isSpace c)
    (hc : c ∈ [',', ']', '\x7d']) (s : List Char) : Closed (gap ++ c :: s) := by
  cases gap with
  | nil => exact closed_cons hc s
  | cons e gap =>
    intro d hd
    cases hd
    exact .inr (hgap _ mem_cons_self)

variable {s : List Char}

theorem Closed.nil_or_cons (hs : Closed s) :
    s = [] ∨ ∃ c t, s = c :: t ∧ c.isDigit = false ∧ c ≠ '.' ∧ c ≠ 'e' ∧ c ≠ 'E' := by
  cases s with
  | nil => exact .inl rfl
  | cons c t =>
    refine .inr ⟨c, t, rfl, ?_⟩
    rcases hs c rfl with hmark | hspace
    · simp only [mem_cons, not_mem_nil, or_false] at hmark
      rcases hmark with rfl | rfl | rfl <;> decide
    · simp only [isSpace, Bool.or_eq_true, beq_iff_eq] at hspace
      rcases hspace with ((rfl | rfl) | rfl) | rfl <;> decide

theorem takeWhile_digits {n : Nat} (hs : Closed s) :
    (digits n ++ s).takeWhile Char.isDigit = digits n ∧
      (digits n ++ s).dropWhile Char.isDigit = s := by
  rw [takeWhile_append_of_pos fun _ => isDigit_of_mem_digits,
    dropWhile_append_of_pos fun _ => isDigit_of_mem_digits]
  rcases hs.nil_or_cons with rfl | ⟨c, t, rfl, hc, -⟩
  · simp
  · simp [hc]

/-- A natural number of 64 bits. -/
theorem readNumber?_digits {n : Nat} (hn : n < wordLimit) (hs : Closed s) :
    readNumber? (digits n ++ s) = some (.nat n, s) := by
  obtain ⟨htake, hdrop⟩ := takeWhile_digits (n := n) hs
  unfold readNumber?
  split
  next minus s₁ hsign =>
  -- No sign is taken off: the first character is a digit.
  have hunsigned : (minus, s₁) = (false, digits n ++ s) := by
    rw [← hsign]
    split
    · next rest hminus =>
      obtain ⟨c, t, hdigits, hc⟩ := head_digits n
      rw [hdigits] at hminus
      rw [(List.cons.inj hminus).1] at hc
      cases hc
    · rfl
  obtain ⟨rfl, rfl⟩ := Prod.mk.inj hunsigned
  simp only [htake, hdrop, digits_canonical, decimalValue_digits, hn]
  rcases hs.nil_or_cons with rfl | ⟨c, t, rfl, -, hpoint, hlower, hupper⟩
  · simp
  · simp [hpoint, hlower, hupper]

/-- A negative number of 64 bits. -/
theorem readNumber?_minus {n : Nat} (hpos : 0 < n) (hn : n ≤ wordLimit / 2) (hs : Closed s) :
    readNumber? ('-' :: digits n ++ s) = some (.negative n, s) := by
  obtain ⟨htake, hdrop⟩ := takeWhile_digits (n := n) hs
  unfold readNumber?
  simp only [cons_append, htake, hdrop, digits_canonical, decimalValue_digits, hpos, hn]
  rcases hs.nil_or_cons with rfl | ⟨c, t, rfl, -, hpoint, hlower, hupper⟩
  · simp
  · simp [hpoint, hlower, hupper]

/-! ## Values -/

theorem skipSpace_cons (hc : isSpace c = false) (s : List Char) : skipSpace (c :: s) = c :: s := by
  rw [skipSpace, dropWhile_cons_of_neg (by simp [hc])]

theorem skipSpace_append (hgap : ∀ c ∈ gap, isSpace c) (s : List Char) :
    skipSpace (gap ++ s) = skipSpace s :=
  dropWhile_append_of_pos hgap

variable {l : Layout}

/-- A value starts with no white space, and not as an array ends. -/
theorem Plain.head (h : j.Plain) (l : Layout) (level : Nat) :
    ∃ c t, write l level j = c :: t ∧ isSpace c = false ∧ c ≠ ']' := by
  have hdigits : ∀ n, ∃ c t, digits n = c :: t ∧ isSpace c = false ∧ c ≠ ']' := by
    intro n
    obtain ⟨c, t, hdigits, hc⟩ := head_digits n
    refine ⟨c, t, hdigits, ?_, ?_⟩
    · rw [Bool.eq_false_iff]
      intro hspace
      simp only [isSpace, Bool.or_eq_true, beq_iff_eq] at hspace
      rcases hspace with ((rfl | rfl) | rfl) | rfl <;> cases hc
    · rintro rfl
      cases hc
  cases h with
  | nat => exact hdigits _
  | bool b => cases b <;> exact ⟨_, _, rfl, rfl, by decide⟩
  | @arr items _ => cases items <;> exact ⟨_, _, rfl, rfl, by decide⟩
  | @obj members _ => cases members <;> exact ⟨_, _, rfl, rfl, by decide⟩
  | _ => exact ⟨_, _, rfl, rfl, by decide⟩

/-- White space before a value is skipped, and no more. -/
theorem Plain.skipSpace_write (h : j.Plain) (hgap : ∀ c ∈ gap, isSpace c) (level : Nat)
    (s : List Char) : skipSpace (gap ++ (write l level j ++ s)) = write l level j ++ s := by
  obtain ⟨c, t, hhead, hspace, -⟩ := h.head l level
  rw [skipSpace_append hgap, hhead, cons_append, skipSpace_cons hspace]

/-- The value is read back from its text, if as many levels may be opened as it has. -/
def Reads (l : Layout) (j : Json) : Prop :=
  ∀ (level n limit : Nat) (s : List Char), (write l level j).length ≤ n → 0 < limit → Closed s →
    readValue? n limit (write l level j ++ s) = if j.depth < limit then some (j, s) else none

/-! ### Items and members -/

section series

variable {α : Type} {a : α} {as : List α} {read : Nat → List Char → Option (List α × List Char)}
  {close : Char} {low : α → Prop} [DecidablePred low] {text : α → List Char}
  {line gap : List Char} {n : Nat}

/-- The items of an array or the members of an object, each where a line starts. -/
def series (line : List Char) (text : α → List Char) : List α → List Char
  | [] => []
  | [a] => line ++ text a
  | a :: as => line ++ (text a ++ ',' :: series line text as)

/-- An entry starts with no white space and not as the series ends. It is read from its text,
    whether it is the last one or not, and nothing is read if it is nested too deep. -/
structure ReadsEntry (read : Nat → List Char → Option (List α × List Char)) (close : Char)
    (low : α → Prop) [DecidablePred low] (text : α → List Char) (a : α) : Prop where
  head : ∃ c t, text a = c :: t ∧ isSpace c = false ∧ c ≠ close
  last : ∀ n gap s, (text a).length ≤ n → (∀ c ∈ gap, isSpace c = true) →
    read (n + 1) (text a ++ (gap ++ close :: s)) = if low a then some ([a], s) else none
  next : ∀ n s, (text a).length ≤ n →
    read (n + 1) (text a ++ ',' :: s) =
      if low a then (read n (skipSpace s)).map fun p => (a :: p.1, p.2) else none

theorem skipSpace_series (h : ReadsEntry read close low text a)
    (hline : ∀ c ∈ line, isSpace c) (s : List Char) :
    skipSpace (line ++ (text a ++ s)) = text a ++ s := by
  obtain ⟨c, t, htext, hspace, -⟩ := h.head
  rw [skipSpace_append hline, htext, cons_append, skipSpace_cons hspace]

theorem head_series (h : ReadsEntry read close low text a) (hline : ∀ c ∈ line, isSpace c)
    (as : List α) (s : List Char) :
    ∃ c t, skipSpace (series line text (a :: as) ++ s) = c :: t ∧ c ≠ close := by
  obtain ⟨c, t, htext, -, hc⟩ := h.head
  obtain ⟨u, hu⟩ : ∃ u, series line text (a :: as) = line ++ (text a ++ u) := by
    cases as with
    | nil => exact ⟨[], by rw [append_nil, series]⟩
    | cons b as => exact ⟨_, rfl⟩
  refine ⟨c, t ++ (u ++ s), ?_, hc⟩
  rw [hu, append_assoc, append_assoc, skipSpace_series h hline, htext, cons_append]

/-- The entries of a series are read one after the other. -/
theorem read_series (h : ∀ b ∈ a :: as, ReadsEntry read close low text b)
    (hline : ∀ c ∈ line, isSpace c) (hgap : ∀ c ∈ gap, isSpace c)
    (hn : (series line text (a :: as)).length < n) (s : List Char) :
    read n (skipSpace (series line text (a :: as) ++ (gap ++ close :: s))) =
      if ∀ b ∈ a :: as, low b then some (a :: as, s) else none := by
  induction as generalizing a n with
  | nil =>
    obtain ⟨n, rfl⟩ := Nat.exists_eq_add_one_of_ne_zero (Nat.ne_zero_of_lt hn)
    have ha := h a mem_cons_self
    rw [series, length_append] at hn
    rw [series, append_assoc, skipSpace_series ha hline, ha.last n gap s (by omega) hgap]
    simp only [forall_mem_singleton]
  | cons b as ih =>
    obtain ⟨n, rfl⟩ := Nat.exists_eq_add_one_of_ne_zero (Nat.ne_zero_of_lt hn)
    obtain ⟨ha, has⟩ := forall_mem_cons.1 h
    have hseries : series line text (a :: b :: as) =
        line ++ (text a ++ ',' :: series line text (b :: as)) := rfl
    rw [hseries, length_append, length_append, length_cons] at hn
    rw [hseries, append_assoc, append_assoc, skipSpace_series ha hline, cons_append,
      ha.next n _ (by omega), ih has (by omega)]
    simp only [forall_mem_cons (a := a)]
    by_cases hlow : low a
    · simp only [hlow, if_true, true_and]
      split <;> rfl
    · simp only [hlow, if_false, false_and]

/-- A series between brackets is read, once its reader is what decides behind the first one. -/
theorem readValue?_series {make : List α → Json} {mark : Char} {limit : Nat}
    (hmark : ∀ t c u, skipSpace t = c :: u → c ≠ close →
      readValue? (n + 1) limit (mark :: t) =
        (read n (skipSpace t)).map fun p => (make p.1, p.2))
    (h : ∀ b ∈ a :: as, ReadsEntry read close low text b)
    (hline : ∀ c ∈ line, isSpace c) (hgap : ∀ c ∈ gap, isSpace c)
    (hn : (mark :: series line text (a :: as) ++ gap ++ [close]).length ≤ n + 1) (s : List Char) :
    readValue? (n + 1) limit (mark :: series line text (a :: as) ++ gap ++ [close] ++ s) =
      if ∀ b ∈ a :: as, low b then some (make (a :: as), s) else none := by
  obtain ⟨c, t, hhead, hc⟩ := head_series (h a mem_cons_self) hline as (gap ++ close :: s)
  have hlength : (series line text (a :: as)).length < n := by
    simp only [length_append, length_cons] at hn
    omega
  rw [append_assoc, append_assoc, cons_append, singleton_append, hmark _ c t hhead hc,
    read_series h hline hgap hlength]
  split <;> rfl

end series

section entries

variable {items : List Json} {limit : Nat}

theorem writeItems_eq (l : Layout) (level : Nat) (items : List Json) :
    writeItems l level items = series (l.line level) (write l level) items := by
  induction items with
  | nil => rfl
  | cons item items ih =>
    cases items with
    | nil => rfl
    | cons next items =>
      rw [writeItems, series, ih, append_assoc]
      all_goals simp

/-- A member of an object, from its key on. -/
def writeMember (l : Layout) (level : Nat) (member : String × Json) : List Char :=
  quote member.1.toList ++ ':' :: (l.colon ++ write l level member.2)

theorem writeMembers_eq (l : Layout) (level : Nat) : ∀ members : List (String × Json),
    writeMembers l level members = series (l.line level) (writeMember l level) members
  | [] => rfl
  | [_] => by simp [writeMembers, series, writeMember]
  | member :: next :: members => by
    rw [writeMembers, series, writeMembers_eq l level (next :: members)]
    all_goals simp [writeMember]

theorem depthItems_lt_iff (hlimit : 0 < limit) :
    depthItems items < limit ↔ ∀ j ∈ items, j.depth < limit := by
  induction items with
  | nil => simpa [depthItems] using hlimit
  | cons item items ih => rw [depthItems, Nat.max_lt, ih, forall_mem_cons]

theorem depthMembers_lt_iff (hlimit : 0 < limit) :
    depthMembers members < limit ↔ ∀ m ∈ members, m.2.depth < limit := by
  induction members with
  | nil => simpa [depthMembers] using hlimit
  | cons member members ih => rw [depthMembers, Nat.max_lt, ih, forall_mem_cons]

/-- A value that is read is read as an item. -/
theorem readsEntry_item (hplain : j.Plain) (hreads : Reads l j) (hlimit : 0 < limit)
    (level : Nat) :
    ReadsEntry (readItems? · limit) ']' (fun j => j.depth < limit) (write l level) j where
  head := hplain.head l level
  last n gap s hn hgap := by
    have hread := hreads level n limit (gap ++ ']' :: s) hn hlimit
      (closed_append hgap (by decide) s)
    rw [readItems?, hread]
    by_cases hlow : j.depth < limit <;>
      simp [hlow, skipSpace_append hgap, skipSpace_cons (c := ']') rfl]
  next n s hn := by
    rw [readItems?, hreads level n limit (',' :: s) hn hlimit (closed_cons (by decide) _)]
    by_cases hlow : j.depth < limit <;> simp [hlow, skipSpace_cons (c := ',') rfl]

/-- A value that is read is read as a member, once its key is read. -/
theorem readsEntry_member {member : String × Json} (hplain : member.2.Plain)
    (hreads : Reads l member.2) (hlimit : 0 < limit) (level : Nat) :
    ReadsEntry (readMembers? · limit) '\x7d' (fun m => m.2.depth < limit) (writeMember l level)
      member := by
  obtain ⟨key, value⟩ := member
  have hlength : ∀ n, (writeMember l level (key, value)).length ≤ n →
      (write l level value).length ≤ n := by
    intro n hn
    simp only [writeMember, length_append, length_cons] at hn
    omega
  have htext : ∀ s, writeMember l level (key, value) ++ s =
      quote key.toList ++ ':' :: (l.colon ++ (write l level value ++ s)) := by simp [writeMember]
  have hkey := fun s =>
    readString?_quote key.toList (':' :: (l.colon ++ (write l level value ++ s)))
  refine ⟨⟨'"', _, rfl, rfl, by decide⟩, fun n gap s hn hgap => ?_, fun n s hn => ?_⟩
  · have hread := hreads level n limit (gap ++ '\x7d' :: s) (hlength n hn) hlimit
      (closed_append hgap (by decide) s)
    rw [htext, (hkey _).1, readMembers?, (hkey _).2]
    simp only [skipSpace_cons (c := ':') rfl, hplain.skipSpace_write l.colon_isSpace, hread]
    by_cases hlow : value.depth < limit <;>
      simp [hlow, skipSpace_append hgap, skipSpace_cons (c := '\x7d') rfl]
  · have hread := hreads level n limit (',' :: s) (hlength n hn) hlimit
      (closed_cons (by decide) _)
    rw [htext, (hkey _).1, readMembers?, (hkey _).2]
    simp only [skipSpace_cons (c := ':') rfl, hplain.skipSpace_write l.colon_isSpace, hread]
    by_cases hlow : value.depth < limit <;> simp [hlow, skipSpace_cons (c := ',') rfl]

end entries

/-- Numbers are what starts in no other way. -/
theorem readValue?_number (hc : c ∉ ['"', '[', '\x7b', 'n', 't', 'f']) (n limit : Nat)
    (s : List Char) : readValue? (n + 1) limit (c :: s) = readNumber? (c :: s) := by
  simp only [mem_cons, not_or] at hc
  rw [readValue?.eq_def]
  simp [hc]

theorem readValue?_digits (limit k : Nat) (s : List Char) :
    readValue? (n + 1) limit (digits k ++ s) = readNumber? (digits k ++ s) := by
  obtain ⟨c, t, hdigits, hc⟩ := head_digits k
  rw [hdigits]
  refine readValue?_number (fun hmem => ?_) n limit _
  simp only [mem_cons, not_mem_nil, or_false] at hmem
  rcases hmem with rfl | rfl | rfl | rfl | rfl | rfl <;> cases hc

/-- Reading an array comes to its items once it is open. -/
theorem readValue?_open_array (n limit : Nat) {t u : List Char} (ht : skipSpace t = c :: u)
    (hc : c ≠ ']') :
    readValue? (n + 1) (limit + 2) ('[' :: t) =
      (readItems? n (limit + 1) (skipSpace t)).map fun p => (.arr p.1, p.2) := by
  rw [readValue?.eq_def]
  simp [ht, hc]

theorem readValue?_open_object (limit : Nat) {t u : List Char} (ht : skipSpace t = c :: u)
    (hc : c ≠ '\x7d') :
    readValue? (n + 1) (limit + 2) ('\x7b' :: t) =
      (readMembers? n (limit + 1) (skipSpace t)).map fun p => (.obj p.1, p.2) := by
  rw [readValue?.eq_def]
  simp [ht, hc]

/-- An array with items that are read. -/
theorem readValue?_array (h : ∀ j ∈ items, j.Plain ∧ Reads l j) (level n limit : Nat)
    (s : List Char) (hn : (write l level (.arr items)).length ≤ n + 1) (hlimit : 0 < limit) :
    readValue? (n + 1) limit (write l level (.arr items) ++ s) =
      if depth (.arr items) < limit then some (.arr items, s) else none := by
  obtain _ | _ | limit := limit
  · cases hlimit
  · cases items <;> simp [write, readValue?, depth]
  · cases items with
    | nil => simp [write, readValue?, skipSpace_cons (c := ']') rfl, depth, depthItems]
    | cons item items =>
      rw [write, writeItems_eq] at hn
      rw [write, writeItems_eq, readValue?_series (fun t c u => readValue?_open_array n limit)
        (fun j hj => readsEntry_item (h j hj).1 (h j hj).2 (Nat.succ_pos limit) (level + 1))
        (l.line_isSpace _) (l.line_isSpace _) hn, depth]
      simp only [Nat.add_lt_add_iff_right, depthItems_lt_iff (Nat.succ_pos limit)]

/-- An object with members that are read. -/
theorem readValue?_object (h : ∀ m ∈ members, m.2.Plain ∧ Reads l m.2)
    (level n limit : Nat) (s : List Char) (hn : (write l level (.obj members)).length ≤ n + 1)
    (hlimit : 0 < limit) :
    readValue? (n + 1) limit (write l level (.obj members) ++ s) =
      if depth (.obj members) < limit then some (.obj members, s) else none := by
  obtain _ | _ | limit := limit
  · cases hlimit
  · cases members <;> simp [write, readValue?, depth]
  · cases members with
    | nil => simp [write, readValue?, skipSpace_cons (c := '\x7d') rfl, depth, depthMembers]
    | cons member members =>
      rw [write, writeMembers_eq] at hn
      rw [write, writeMembers_eq, readValue?_series (fun t c u => readValue?_open_object n limit)
        (fun m hm => readsEntry_member (h m hm).1 (h m hm).2 (Nat.succ_pos limit) (level + 1))
        (l.line_isSpace _) (l.line_isSpace _) hn, depth]
      simp only [Nat.add_lt_add_iff_right, depthMembers_lt_iff (Nat.succ_pos limit)]

theorem reads_of_succ (hj : j.Plain)
    (h : ∀ (level n limit : Nat) (s : List Char), (write l level j).length ≤ n + 1 → 0 < limit →
      Closed s → readValue? (n + 1) limit (write l level j ++ s) =
        if j.depth < limit then some (j, s) else none) : Reads l j := by
  intro level n limit s hn hlimit hs
  obtain ⟨c, t, hhead, -⟩ := hj.head l level
  have hpos : n ≠ 0 := by
    rw [hhead, length_cons] at hn
    omega
  obtain ⟨n, rfl⟩ := Nat.exists_eq_add_one_of_ne_zero hpos
  exact h level n limit s hn hlimit hs

/-- Every value is read back, and not if it is nested too deep. -/
theorem Plain.reads (h : j.Plain) (l : Layout) : Reads l j := by
  induction h with
  | null =>
    refine reads_of_succ .null fun level n limit s _ hlimit _ => ?_
    simp [write, readValue?, readWord?, depth, hlimit]
  | bool b =>
    refine reads_of_succ (.bool b) fun level n limit s _ hlimit _ => ?_
    cases b <;> simp [write, readValue?, readWord?, depth, hlimit]
  | nat hword =>
    refine reads_of_succ (.nat hword) fun level n limit s _ hlimit hs => ?_
    rw [write, readValue?_digits, readNumber?_digits hword hs]
    simp [depth, hlimit]
  | negative hpos hword =>
    refine reads_of_succ (.negative hpos hword) fun level n limit s _ hlimit hs => ?_
    rw [write, cons_append, readValue?_number (by decide), ← cons_append,
      readNumber?_minus hpos hword hs]
    simp [depth, hlimit]
  | str cs =>
    refine reads_of_succ (.str cs) fun level n limit s _ hlimit _ => ?_
    obtain ⟨hquote, hread⟩ := readString?_quote cs.toList s
    rw [write, hquote, readValue?.eq_def]
    simp only [hread]
    simp [depth, hlimit]
  | @arr items hitems ih =>
    refine reads_of_succ (.arr hitems) fun level n limit s hn hlimit _ => ?_
    exact readValue?_array (fun j hj => ⟨hitems j hj, ih j hj⟩) level n limit s hn hlimit
  | @obj members hsorted hmembers ih =>
    refine reads_of_succ (.obj hsorted hmembers) fun level n limit s hn hlimit _ => ?_
    exact readValue?_object (fun m hm => ⟨hmembers m hm, ih m hm⟩) level n limit s hn hlimit

/-- An object of plain values is read from its text, as long as it is not nested too deep. -/
theorem readChars?_write (h : ∀ m ∈ members, m.2.Plain) (l : Layout) :
    readChars? (write l 0 (.obj members)) =
      if depth (.obj members) < depthLimit then some (.obj members) else none := by
  have hread := readValue?_object (fun m hm => ⟨h m hm, (h m hm).reads l⟩) 0
    (2 * (write l 0 (.obj members)).length + 1) depthLimit [] (by omega) (by decide)
  rw [append_nil] at hread
  have hskip : skipSpace (write l 0 (.obj members)) = write l 0 (.obj members) := by
    cases members <;> exact skipSpace_cons rfl _
  rw [readChars?, hskip, hread]
  by_cases hdepth : depth (.obj members) < depthLimit
  · rw [if_pos hdepth, if_pos hdepth]
    rfl
  · rw [if_neg hdepth, if_neg hdepth]

/-! ## Lines -/

theorem newline_not_mem_escapeChar (c : Char) : '\n' ∉ escapeChar c := by
  have hhex : ∀ n < 16, '\n' ≠ hexDigit n := by decide
  rw [escapeChar]
  repeat' split
  all_goals try decide
  · next h =>
    have hhigh := hhex (c.toNat / 16) (by omega)
    have hlow := hhex (c.toNat % 16) (by omega)
    simp [hhigh, hlow]
  · next hline _ _ _ _ _ =>
    rw [mem_singleton]
    rintro rfl
    exact hline rfl

theorem newline_not_mem_quote (s : List Char) : '\n' ∉ quote s := by
  simp [quote, newline_not_mem_escapeChar]

theorem newline_not_mem_compressItems (h : ∀ j ∈ items, '\n' ∉ compressChars j) :
    '\n' ∉ compressItems items := by
  induction items with
  | nil => exact not_mem_nil
  | cons item items ih =>
    obtain ⟨hitem, hitems⟩ := forall_mem_cons.1 h
    cases items with
    | nil => exact hitem
    | cons next items =>
      rw [compressItems]
      · simp [hitem, ih hitems]
      · simp

theorem newline_not_mem_compressMembers (h : ∀ m ∈ members, '\n' ∉ compressChars m.2) :
    '\n' ∉ compressMembers members := by
  induction members with
  | nil => exact not_mem_nil
  | cons member members ih =>
    obtain ⟨key, value⟩ := member
    obtain ⟨hvalue, hmembers⟩ := forall_mem_cons.1 h
    cases members with
    | nil => simp [compressMembers, newline_not_mem_quote, hvalue]
    | cons next members =>
      rw [compressMembers]
      · simp [newline_not_mem_quote, hvalue, ih hmembers]
      · simp

/-- A written value is on one line. -/
theorem Plain.newline_not_mem (h : j.Plain) : '\n' ∉ compressChars j := by
  have hdigits : ∀ n, '\n' ∉ digits n := fun n hmem => by cases isDigit_of_mem_digits hmem
  induction h with
  | null => decide
  | bool b => cases b <;> decide
  | nat => exact hdigits _
  | negative => simp [compressChars, hdigits]
  | str s => exact newline_not_mem_quote _
  | arr _ ih => simp [compressChars, newline_not_mem_compressItems ih]
  | obj _ _ ih => simp [compressChars, newline_not_mem_compressMembers ih]

theorem newline_not_mem_object (h : ∀ m ∈ members, m.2.Plain) :
    '\n' ∉ compressChars (.obj members) := by
  simp [compressChars, newline_not_mem_compressMembers fun m hm => (h m hm).newline_not_mem]

end CodeAtlas.Json
