import CodeAtlas.Proofs.Python.Scan
import CodeAtlas.Python.Nesting

/-!
# Reading brackets and strings without escapes

A header and its parameters are cut by readers that count brackets and pass over strings as
they are quoted, without regard to escapes (`Reader`). What such a reader takes to be open
(`Place`) changes from character to character, and it goes on until it comes to a character that
it stops at (`Reader.pass?`).

The texts that it reads to the end, with nothing left open, are those of a grammar (`Nested`):
strings up to the next quote, brackets with such a text in them, and other characters, apart
from some that may stand in brackets and strings only.

* `Reader.Fits.pass?_eq_some_iff`: the texts of the grammar are those that are passed;
* `exists_bracketed?_iff`: where a bracket is closed;
* `splitCommasFrom_cases`: where a text is split at commas;
* `cutOutside?_cases`, `cutOutside?_eq_none_iff`: where a text is cut at a mark;
* `nested_textOf`: the tokens that are read in the same way without escapes.
-/

namespace CodeAtlas.Python

open Text List

variable {c : Char}

/-! ## Readers -/

/-- What is open where a reader is: a number of brackets, and a string up to a quote. -/
structure Place where
  depth : Nat
  quote : Option Char

/-- A reader of code: whether it knows strings, and at which characters outside of strings it
    stops, given the number of open brackets. -/
structure Reader where
  quoting : Bool
  stops : Nat → Char → Bool

namespace Reader

/-- Looks for the bracket that closes the first one. -/
def closer : Reader where
  quoting := true
  stops depth c := isClosing c && depth ≤ 1

/-- Looks for commas outside brackets. -/
def splitter : Reader where
  quoting := true
  stops depth c := c == ',' && depth == 0

/-- Looks for a mark outside brackets, in strings as well. -/
def finder (mark : Char) : Reader where
  quoting := false
  stops depth c := !isOpening c && !isClosing c && c == mark && depth == 0

variable (r : Reader)

/-- What is open behind one more character. -/
def next (p : Place) (c : Char) : Place :=
  match p.quote with
  | some q => ⟨p.depth, if c == q then none else some q⟩
  | none => ⟨depthAfter c p.depth, if r.quoting && isQuote c then some c else none⟩

/-- What is open behind a text, unless the reader stops in it. -/
def pass? (p : Place) : List Char → Option Place
  | [] => some p
  | c :: s => if p.quote.isNone && r.stops p.depth c then none else pass? (r.next p c) s

variable {r} {p : Place} {c q : Char} {d : Nat} {s t : List Char}

theorem pass?_append : r.pass? p (s ++ t) = (r.pass? p s).bind (r.pass? · t) := by
  induction s generalizing p with
  | nil => rfl
  | cons c s ih =>
    rw [cons_append, pass?, pass?]
    split
    · rfl
    · exact ih

theorem pass?_char (hstop : r.stops d c = false) (hquote : (r.quoting && isQuote c) = false)
    (s : List Char) : r.pass? ⟨d, none⟩ (c :: s) = r.pass? ⟨depthAfter c d, none⟩ s := by
  simp [pass?, next, hstop, hquote]

theorem pass?_quote (hstop : r.stops d q = false) (hquoting : r.quoting)
    (hq : isQuote q) (s : List Char) :
    r.pass? ⟨d, none⟩ (q :: s) = r.pass? ⟨depthAfter q d, some q⟩ s := by
  simp [pass?, next, hstop, hquoting, hq]

/-- A string goes up to the next quote. -/
theorem pass?_string {body : List Char} (hbody : q ∉ body) (s : List Char) :
    r.pass? ⟨d, some q⟩ (body ++ q :: s) = r.pass? ⟨d, none⟩ s := by
  induction body with
  | nil => simp [pass?, next]
  | cons c body ih =>
    rw [mem_cons, not_or] at hbody
    simp [pass?, next, Ne.symm hbody.1, ih hbody.2]

/-- A reader that does not pass a text stops at a character of it. -/
theorem exists_of_pass?_eq_none (h : r.pass? p s = none) :
    ∃ s₁ c s₂ d, s = s₁ ++ c :: s₂ ∧ r.pass? p s₁ = some ⟨d, none⟩ ∧ r.stops d c := by
  induction s generalizing p with
  | nil => cases h
  | cons c s ih =>
    rw [pass?] at h
    split at h
    · next hstop =>
      obtain ⟨depth, quote⟩ := p
      rw [Bool.and_eq_true, Option.isNone_iff_eq_none] at hstop
      obtain ⟨rfl, hstop⟩ := hstop
      exact ⟨[], c, s, depth, rfl, rfl, hstop⟩
    · next hgo =>
      obtain ⟨s₁, c', s₂, d, rfl, hpass, hstop⟩ := ih h
      exact ⟨c :: s₁, c', s₂, d, rfl, by rw [pass?, if_neg hgo, hpass], hstop⟩

end Reader

/-! ## The grammar -/

/-- The strings of the text are closed, if strings count, and so are its brackets; outside of
    these there is no character of `bad`. -/
inductive Nested (quoting : Bool) : (Char → Bool) → List Char → Prop
  | nil {bad : Char → Bool} : Nested quoting bad []
  | char {bad : Char → Bool} {c : Char} {s : List Char} : bad c = false → isOpening c = false →
    (quoting && isQuote c) = false → Nested quoting bad s → Nested quoting bad (c :: s)
  | string {bad : Char → Bool} {q : Char} {body s : List Char} : quoting = true →
    isQuote q = true → bad q = false → q ∉ body → Nested quoting bad s →
    Nested quoting bad (q :: (body ++ q :: s))
  | group {bad : Char → Bool} {a b : Char} {inner s : List Char} : isOpening a = true →
    bad a = false → isClosing b = true → Nested quoting isClosing inner → Nested quoting bad s →
    Nested quoting bad (a :: (inner ++ b :: s))

/-- A text behind some open brackets that closes them all. -/
inductive Unwinds (quoting : Bool) (bad : Char → Bool) : Nat → List Char → Prop
  | base {s : List Char} : Nested quoting bad s → Unwinds quoting bad 0 s
  | close {k : Nat} {s t : List Char} {b : Char} : Nested quoting isClosing s →
    isClosing b = true → Unwinds quoting bad k t → Unwinds quoting bad (k + 1) (s ++ b :: t)

/-- The reader stops nowhere but with `base` open brackets, and there at the characters of
    `bad`. -/
structure Reader.Fits (r : Reader) (base : Nat) (bad : Char → Bool) : Prop where
  here : ∀ c, r.stops base c = bad c
  deep : ∀ d c, base < d → r.stops d c = false
  stays : ∀ c, bad c = false → isClosing c = true → depthAfter c base = base

theorem of_isOpening (h : isOpening c) : isClosing c = false ∧ isQuote c = false := by
  simp only [isOpening, Bool.or_eq_true, beq_iff_eq] at h
  rcases h with (rfl | rfl) | rfl <;> exact ⟨rfl, rfl⟩

theorem of_isClosing (h : isClosing c) : isOpening c = false ∧ isQuote c = false := by
  simp only [isClosing, Bool.or_eq_true, beq_iff_eq] at h
  rcases h with (rfl | rfl) | rfl <;> exact ⟨rfl, rfl⟩

theorem of_isQuote (h : isQuote c) : isOpening c = false ∧ isClosing c = false := by
  simp only [isQuote, Bool.or_eq_true, beq_iff_eq] at h
  rcases h with rfl | rfl <;> exact ⟨rfl, rfl⟩

theorem depthAfter_opening (h : isOpening c) (d : Nat) : depthAfter c d = d + 1 := by
  rw [depthAfter, if_pos h]

theorem depthAfter_closing (h : isClosing c) (d : Nat) : depthAfter c d = d - 1 := by
  rw [depthAfter, (of_isClosing h).1, if_neg (by decide), if_pos h]

theorem depthAfter_other (hopen : isOpening c = false) (hclose : isClosing c = false) (d : Nat) :
    depthAfter c d = d := by
  rw [depthAfter, hopen, hclose]
  rfl

theorem depthAfter_quote (h : isQuote c) (d : Nat) : depthAfter c d = d :=
  depthAfter_other (of_isQuote h).1 (of_isQuote h).2 d

variable {quoting long : Bool} {bad : Char → Bool} {r : Reader} {base k : Nat} {s tail : List Char}
  {p p' : Place} {q : Char} {ts : List Token}

/-! ## Texts that are passed -/

namespace Reader

variable {d : Nat}

/-- A text of the grammar is passed, with nothing left open. -/
theorem pass?_of_nested (h : Nested r.quoting bad s)
    (hhere : ∀ c, bad c = false → r.stops d c = false)
    (hdeep : ∀ d' c, d < d' → r.stops d' c = false)
    (hstays : ∀ c, bad c = false → isClosing c → depthAfter c d = d) :
    r.pass? ⟨d, none⟩ s = some ⟨d, none⟩ := by
  induction h generalizing d with
  | nil => rfl
  | @char bad c s hbad hopen hquote _ ih =>
    have hdepth : depthAfter c d = d := by
      cases hclose : isClosing c with
      | true => exact hstays c hbad hclose
      | false => exact depthAfter_other hopen hclose d
    rw [pass?_char (hhere c hbad) hquote, hdepth]
    exact ih hhere hdeep hstays
  | @string bad q body s hquoting hq hbad hbody _ ih =>
    rw [pass?_quote (hhere q hbad) hquoting hq, depthAfter_quote hq, pass?_string hbody]
    exact ih hhere hdeep hstays
  | @group bad a b inner s ha hbad hb _ _ ihinner ih =>
    have hlt : d < d + 1 := Nat.lt_succ_self d
    have hinner : r.pass? ⟨d + 1, none⟩ inner = some ⟨d + 1, none⟩ :=
      ihinner (fun c _ => hdeep _ c hlt) (fun d' c hd' => hdeep d' c (Nat.lt_trans hlt hd'))
        (fun c hnot hclose => by cases hnot.symm.trans hclose)
    rw [pass?_char (hhere a hbad) (by simp [(of_isOpening ha).2]), depthAfter_opening ha,
      pass?_append, hinner, Option.bind_some,
      pass?_char (hdeep _ b hlt) (by simp [(of_isClosing hb).2]), depthAfter_closing hb]
    exact ih hhere hdeep hstays

end Reader

namespace Unwinds

theorem char (hbad : k = 0 → bad c = false) (hopen : isOpening c = false)
    (hclose : k ≠ 0 → isClosing c = false) (hquote : (quoting && isQuote c) = false)
    (h : Unwinds quoting bad k s) : Unwinds quoting bad k (c :: s) := by
  cases h with
  | base hs => exact .base (.char (hbad rfl) hopen hquote hs)
  | close hs hb ht =>
    exact .close (.char (hclose (Nat.succ_ne_zero _)) hopen hquote hs) hb ht

theorem string {body : List Char} (hquoting : quoting) (hq : isQuote q)
    (hbad : k = 0 → bad q = false) (hbody : q ∉ body) (h : Unwinds quoting bad k s) :
    Unwinds quoting bad k (q :: (body ++ q :: s)) := by
  cases h with
  | base hs => exact .base (.string hquoting hq (hbad rfl) hbody hs)
  | @close k s t b hs hb ht =>
    have hsplit : q :: (body ++ q :: (s ++ b :: t)) = (q :: (body ++ q :: s)) ++ b :: t := by simp
    rw [hsplit]
    exact .close (.string hquoting hq (of_isQuote hq).2 hbody hs) hb ht

theorem group {a : Char} (ha : isOpening a) (hbad : k = 0 → bad a = false)
    (h : Unwinds quoting bad (k + 1) s) : Unwinds quoting bad k (a :: s) := by
  cases h with
  | @close k inner t b hinner hb ht =>
    cases ht with
    | base ht => exact .base (.group ha (hbad rfl) hb hinner ht)
    | @close k s t b' hs hb' ht =>
      have hsplit : a :: (inner ++ b :: (s ++ b' :: t)) = (a :: (inner ++ b :: s)) ++ b' :: t := by
        simp
      rw [hsplit]
      exact .close (.group ha (of_isOpening ha).1 hb hinner hs) hb' ht

end Unwinds

namespace Reader.Fits

/-- What is passed with brackets or a string open closes the string, and then the brackets. By
    induction on the text. -/
theorem unwinds_of_pass? (h : r.Fits base bad) :
    (r.pass? ⟨base + k, none⟩ s = some ⟨base, none⟩ → Unwinds r.quoting bad k s) ∧
      ∀ q, r.pass? ⟨base + k, some q⟩ s = some ⟨base, none⟩ →
        ∃ body t, s = body ++ q :: t ∧ q ∉ body ∧ Unwinds r.quoting bad k t := by
  induction s generalizing k with
  | nil =>
    refine ⟨fun hpass => ?_, fun q hpass => ?_⟩
    · have hdepth : base + k = base := congrArg Place.depth (Option.some.inj hpass)
      obtain rfl : k = 0 := by omega
      exact .base .nil
    · have hquote : some q = none := congrArg Place.quote (Option.some.inj hpass)
      cases hquote
  | cons c s ih =>
    refine ⟨fun hpass => ?_, fun q hpass => ?_⟩
    · have hstop : r.stops (base + k) c = false := by
        rw [← Bool.not_eq_true]
        intro hstop
        simp [pass?, hstop] at hpass
      have hbad : k = 0 → bad c = false := by
        rintro rfl
        rw [← h.here c]
        exact hstop
      by_cases hquote : (r.quoting && isQuote c)
      · obtain ⟨hquoting, hq⟩ := Bool.and_eq_true_iff.1 hquote
        rw [pass?_quote hstop hquoting hq, depthAfter_quote hq] at hpass
        obtain ⟨body, t, rfl, hbody, ht⟩ := ih.2 c hpass
        exact .string hquoting hq hbad hbody ht
      rw [Bool.not_eq_true] at hquote
      rw [pass?_char hstop hquote] at hpass
      cases hopen : isOpening c with
      | true =>
        rw [depthAfter_opening hopen] at hpass
        exact .group hopen hbad (ih.1 hpass)
      | false =>
        cases hclose : isClosing c with
        | false =>
          rw [depthAfter_other hopen hclose] at hpass
          exact .char hbad hopen (fun _ => hclose) hquote (ih.1 hpass)
        | true =>
          cases k with
          | zero =>
            rw [Nat.add_zero, h.stays c (hbad rfl) hclose] at hpass
            exact .char hbad hopen (fun hk => absurd rfl hk) hquote (ih.1 hpass)
          | succ k =>
            rw [depthAfter_closing hclose] at hpass
            exact .close .nil hclose (ih.1 hpass)
    · by_cases hc : c = q
      · subst hc
        exact ⟨[], s, rfl, by simp, ih.1 (by simpa [pass?, next] using hpass)⟩
      · obtain ⟨body, t, rfl, hbody, ht⟩ := ih.2 q (by simpa [pass?, next, hc] using hpass)
        exact ⟨c :: body, t, rfl, by simp [Ne.symm hc, hbody], ht⟩

/-- The texts that are passed with nothing left open. -/
theorem pass?_eq_some_iff (h : r.Fits base bad) :
    r.pass? ⟨base, none⟩ s = some ⟨base, none⟩ ↔ Nested r.quoting bad s := by
  constructor
  · intro hpass
    have hunwinds : Unwinds r.quoting bad 0 s := h.unwinds_of_pass?.1 hpass
    cases hunwinds with
    | base hs => exact hs
  · intro hs
    exact pass?_of_nested hs (fun c hc => (h.here c).trans hc) h.deep h.stays

theorem nested_append (h : r.Fits base bad) {t : List Char} (hs : Nested r.quoting bad s)
    (ht : Nested r.quoting bad t) : Nested r.quoting bad (s ++ t) := by
  rw [← h.pass?_eq_some_iff] at hs ht ⊢
  rw [pass?_append, hs]
  exact ht

end Reader.Fits

namespace Reader

/-- Characters that mean nothing to a reader. -/
theorem pass?_plain {pre : List Char} {d : Nat}
    (hpre : ∀ c ∈ pre, isOpening c = false ∧ isClosing c = false ∧
      (r.quoting && isQuote c) = false ∧ r.stops d c = false) (s : List Char) :
    r.pass? ⟨d, none⟩ (pre ++ s) = r.pass? ⟨d, none⟩ s := by
  induction pre with
  | nil => rfl
  | cons c pre ih =>
    obtain ⟨⟨hopen, hclose, hquote, hstop⟩, hpre⟩ := forall_mem_cons.1 hpre
    rw [cons_append, pass?_char hstop hquote, depthAfter_other hopen hclose, ih hpre]

/-- A reader that does not pass a text stops behind one of the grammar. -/
theorem Fits.exists_of_pass?_eq_none (h : r.Fits 0 bad) (hnone : r.pass? ⟨0, none⟩ s = none) :
    ∃ s₁ c s₂, s = s₁ ++ c :: s₂ ∧ Nested r.quoting bad s₁ ∧ bad c := by
  obtain ⟨s₁, c, s₂, d, rfl, hpass, hstop⟩ := Reader.exists_of_pass?_eq_none hnone
  obtain rfl : d = 0 := by
    by_contra hd
    cases hstop.symm.trans (h.deep d c (Nat.pos_of_ne_zero hd))
  exact ⟨s₁, c, s₂, rfl, h.pass?_eq_some_iff.1 hpass, (h.here c).symm.trans hstop⟩

/-- Closing brackets close all that are open. -/
theorem Fits.pass?_replicate (h : r.Fits 0 bad) (d : Nat) :
    r.pass? ⟨d, none⟩ (List.replicate d ')') = some ⟨0, none⟩ := by
  induction d with
  | zero => rfl
  | succ d ih =>
    rw [replicate_succ, pass?_char (h.deep _ _ (Nat.succ_pos d)) (by simp [isQuote])]
    exact ih

/-- A text is passed, whatever is left open, exactly if it goes on to one of the grammar. -/
theorem Fits.exists_nested_iff (h : r.Fits 0 bad) :
    (∃ t, Nested r.quoting bad (s ++ t)) ↔ ∃ p, r.pass? ⟨0, none⟩ s = some p := by
  constructor
  · rintro ⟨t, ht⟩
    have hpass := h.pass?_eq_some_iff.2 ht
    rw [pass?_append] at hpass
    obtain ⟨p, hp, _⟩ := Option.bind_eq_some_iff.1 hpass
    exact ⟨p, hp⟩
  · rintro ⟨⟨d, quote⟩, hpass⟩
    refine ⟨quote.toList ++ List.replicate d ')', h.pass?_eq_some_iff.1 ?_⟩
    rw [pass?_append, hpass]
    cases quote with
    | none => exact h.pass?_replicate d
    | some q => simpa [pass?, next] using h.pass?_replicate d

end Reader

/-! ## Closing brackets -/

theorem fits_closer : Reader.closer.Fits 1 isClosing where
  here c := by simp [Reader.closer]
  deep d c hd := by simp [Reader.closer, Nat.not_le.2 hd]
  stays c hnot hclose := by cases hnot.symm.trans hclose

theorem le_depth_of_pass?_closer (hp : 1 ≤ p.depth) (h : Reader.closer.pass? p s = some p') :
    1 ≤ p'.depth := by
  induction s generalizing p with
  | nil =>
    cases h
    exact hp
  | cons c s ih =>
    rw [Reader.pass?] at h
    split at h
    · cases h
    next hgo =>
      refine ih ?_ h
      obtain ⟨depth, _ | q⟩ := p
      · simp only [Reader.closer, Option.isNone_none, Bool.true_and, Bool.and_eq_true,
          decide_eq_true_eq, not_and] at hgo
        simp only [Reader.next, depthAfter]
        split
        · omega
        · split
          · next hclose => exact Nat.le_sub_one_of_lt (Nat.lt_of_not_le (hgo hclose))
          · exact hp
      · exact hp

theorem closeFrom?_cons (p : Place) (c : Char) (s : List Char) :
    closeFrom? p.depth p.quote (c :: s) =
      if p.quote.isNone && Reader.closer.stops p.depth c then some ([], s)
      else (closeFrom? (Reader.closer.next p c).depth (Reader.closer.next p c).quote s).map
        (fun x => (c :: x.1, x.2)) := by
  obtain ⟨depth, _ | q⟩ := p
  · simp [closeFrom?, Reader.closer, Reader.next]
  · simp [closeFrom?, Reader.next]

/-- A bracket closes the text before it if the reader passes that text and is then in no string
    and at the last bracket. -/
theorem closeFrom?_eq_some_iff (hc : isClosing c) :
    closeFrom? p.depth p.quote (s ++ c :: tail) = some (s, tail) ↔
      ∃ d ≤ 1, Reader.closer.pass? p s = some ⟨d, none⟩ := by
  induction s generalizing p with
  | nil =>
    obtain ⟨depth, _ | q⟩ := p
    · simp [closeFrom?, Reader.pass?, hc]
    · simp [closeFrom?, Reader.pass?]
  | cons a s ih =>
    rw [cons_append, closeFrom?_cons, Reader.pass?]
    split
    · simp
    · rw [← ih]
      simp

theorem exists_of_closeFrom? {inside after : List Char}
    (h : closeFrom? p.depth p.quote s = some (inside, after)) :
    ∃ c, isClosing c ∧ s = inside ++ c :: after := by
  induction s generalizing p inside with
  | nil => cases h
  | cons c s ih =>
    rw [closeFrom?_cons] at h
    split at h
    · next hstop =>
      cases h
      simp only [Reader.closer, Bool.and_eq_true] at hstop
      exact ⟨c, hstop.2.1, rfl⟩
    · obtain ⟨x, hx, heq⟩ := Option.map_eq_some_iff.1 h
      cases heq
      obtain ⟨b, hb, rfl⟩ := ih hx
      exact ⟨b, hb, rfl⟩

/-- Of a text that starts with a bracket: which closing bracket is taken for its own. -/
theorem exists_bracketed?_iff {a : Char} (hc : isClosing c) :
    (∃ after, bracketed? (a :: (s ++ c :: tail)) = some (s, after)) ↔ Nested true isClosing s := by
  have hnested : Reader.closer.pass? ⟨1, none⟩ s = some ⟨1, none⟩ ↔ Nested true isClosing s :=
    fits_closer.pass?_eq_some_iff
  rw [← hnested]
  constructor
  · rintro ⟨after, hclose⟩
    have hclose' : closeFrom? (Place.mk 1 none).depth (Place.mk 1 none).quote (s ++ c :: tail) =
        some (s, after) := hclose
    obtain ⟨b, _, hsplit⟩ := exists_of_closeFrom? hclose'
    obtain ⟨rfl, rfl⟩ := List.cons.inj (append_cancel_left hsplit)
    obtain ⟨d, hd, hpass⟩ := (closeFrom?_eq_some_iff hc).1 hclose'
    have hpos : 1 ≤ d := le_depth_of_pass?_closer (Nat.le_refl 1) hpass
    rwa [Nat.le_antisymm hd hpos] at hpass
  · intro hpass
    exact ⟨tail, (closeFrom?_eq_some_iff (p := ⟨1, none⟩) hc).2 ⟨1, Nat.le_refl 1, hpass⟩⟩

/-! ## Commas and marks -/

theorem fits_splitter : Reader.splitter.Fits 0 (· == ',') where
  here c := by simp [Reader.splitter]
  deep d c hd := by simp [Reader.splitter, Nat.ne_of_gt hd]
  stays c _ hclose := depthAfter_closing hclose 0

theorem splitCommasFrom_cons (p : Place) (piece : List Char) (c : Char) (s : List Char) :
    splitCommasFrom p.depth p.quote piece (c :: s) =
      if p.quote.isNone && Reader.splitter.stops p.depth c then
        piece.reverse :: splitCommasFrom 0 none [] s
      else splitCommasFrom (Reader.splitter.next p c).depth (Reader.splitter.next p c).quote
        (c :: piece) s := by
  obtain ⟨depth, _ | q⟩ := p
  · simp [splitCommasFrom, Reader.splitter, Reader.next]
  · simp [splitCommasFrom, Reader.next]

/-- What is passed belongs to the piece being read. -/
theorem splitCommasFrom_append (h : Reader.splitter.pass? p s = some p') (piece rest : List Char) :
    splitCommasFrom p.depth p.quote piece (s ++ rest) =
      splitCommasFrom p'.depth p'.quote (s.reverse ++ piece) rest := by
  induction s generalizing p piece with
  | nil =>
    cases h
    rfl
  | cons c s ih =>
    rw [Reader.pass?] at h
    split at h
    · cases h
    next hgo =>
      rw [cons_append, splitCommasFrom_cons, if_neg hgo, ih h]
      simp

theorem fits_finder {mark : Char} (hopen : isOpening mark = false)
    (hclose : isClosing mark = false) : (Reader.finder mark).Fits 0 (· == mark) where
  here c := by
    by_cases hc : c = mark
    · simp [Reader.finder, hc, hopen, hclose]
    · simp [Reader.finder, hc]
  deep d c hd := by simp [Reader.finder, Nat.ne_of_gt hd]
  stays c _ hc := depthAfter_closing hc 0

theorem cutOutsideFrom?_cons (mark : Char) (d : Nat) (c : Char) (s : List Char) :
    cutOutsideFrom? mark d (c :: s) =
      if (Reader.finder mark).stops d c then some ([], s)
      else (cutOutsideFrom? mark (depthAfter c d) s).map (fun x => (c :: x.1, x.2)) := by
  simp [cutOutsideFrom?, Reader.finder]

theorem cutOutsideFrom?_append {mark : Char} {d : Nat}
    (h : (Reader.finder mark).pass? ⟨d, none⟩ s = some p) (rest : List Char) :
    cutOutsideFrom? mark d (s ++ rest) =
      (cutOutsideFrom? mark p.depth rest).map (fun x => (s ++ x.1, x.2)) := by
  induction s generalizing d with
  | nil =>
    cases h
    simp
  | cons c s ih =>
    rw [Reader.pass?] at h
    split at h
    · cases h
    next hgo =>
      rw [cons_append, cutOutsideFrom?_cons, if_neg (by simpa using hgo), ih h]
      simp [Function.comp_def]

theorem splitCommasFrom_comma (h : Nested true (· == ',') s) (t : List Char) :
    splitCommasFrom 0 none [] (s ++ ',' :: t) = s :: splitCommasFrom 0 none [] t := by
  have hpass := fits_splitter.pass?_eq_some_iff.2 h
  have happend := splitCommasFrom_append hpass [] (',' :: t)
  rw [happend]
  simp [splitCommasFrom]

theorem splitCommasFrom_of_nested {t : List Char} (h : Nested true (· == ',') (s ++ t)) :
    splitCommasFrom 0 none [] s = [s] := by
  obtain ⟨p, hpass⟩ := fits_splitter.exists_nested_iff.1 ⟨t, h⟩
  have happend := splitCommasFrom_append hpass [] []
  rw [append_nil, append_nil] at happend
  rw [happend, splitCommasFrom, reverse_reverse]

/-- A text is one piece, or it is split at the first comma outside brackets and strings. -/
theorem splitCommasFrom_cases (s : List Char) :
    ((∃ t, Nested true (· == ',') (s ++ t)) ∧ splitCommasFrom 0 none [] s = [s]) ∨
      ∃ s₁ s₂, s = s₁ ++ ',' :: s₂ ∧ Nested true (· == ',') s₁ ∧
        splitCommasFrom 0 none [] s = s₁ :: splitCommasFrom 0 none [] s₂ := by
  cases hpass : Reader.splitter.pass? ⟨0, none⟩ s with
  | some p =>
    obtain ⟨t, ht⟩ := fits_splitter.exists_nested_iff.2 ⟨p, hpass⟩
    exact .inl ⟨⟨t, ht⟩, splitCommasFrom_of_nested ht⟩
  | none =>
    obtain ⟨s₁, c, s₂, rfl, hnested, hc⟩ := fits_splitter.exists_of_pass?_eq_none hpass
    obtain rfl : c = ',' := beq_iff_eq.1 hc
    exact .inr ⟨s₁, s₂, rfl, hnested, splitCommasFrom_comma hnested s₂⟩

section

variable {mark : Char} (hopen : isOpening mark = false) (hclose : isClosing mark = false)
include hopen hclose

/-- Where a text is cut. -/
theorem cutOutside?_append (h : Nested false (· == mark) s) (t : List Char) :
    cutOutside? mark (s ++ mark :: t) = some (s, t) := by
  have hpass := (fits_finder hopen hclose).pass?_eq_some_iff.2 h
  rw [cutOutside?, cutOutsideFrom?_append hpass]
  simp [cutOutsideFrom?, hopen, hclose]

/-- A text is not cut, or at the first mark outside brackets. -/
theorem cutOutside?_cases (s : List Char) :
    ((∃ t, Nested false (· == mark) (s ++ t)) ∧ cutOutside? mark s = none) ∨
      ∃ s₁ s₂, s = s₁ ++ mark :: s₂ ∧ Nested false (· == mark) s₁ ∧
        cutOutside? mark s = some (s₁, s₂) := by
  have hfits := fits_finder hopen hclose
  cases hpass : (Reader.finder mark).pass? ⟨0, none⟩ s with
  | some p =>
    have hcut := cutOutsideFrom?_append hpass []
    rw [append_nil] at hcut
    exact .inl ⟨hfits.exists_nested_iff.2 ⟨p, hpass⟩, hcut⟩
  | none =>
    obtain ⟨s₁, c, s₂, rfl, hnested, hc⟩ := hfits.exists_of_pass?_eq_none hpass
    obtain rfl : c = mark := beq_iff_eq.1 hc
    exact .inr ⟨s₁, s₂, rfl, hnested, cutOutside?_append hopen hclose hnested s₂⟩

theorem cutOutside?_eq_none_iff :
    cutOutside? mark s = none ↔ ∃ t, Nested false (· == mark) (s ++ t) := by
  rcases cutOutside?_cases hopen hclose s with ⟨hex, hnone⟩ | ⟨s₁, s₂, rfl, hnested, hsome⟩
  · exact ⟨fun _ => hex, fun _ => hnone⟩
  · constructor
    · intro hnone
      cases hnone.symm.trans hsome
    · rintro ⟨t, ht⟩
      -- The mark would be passed.
      have hpass := (fits_finder hopen hclose).pass?_eq_some_iff.2 ht
      rw [append_assoc, Reader.pass?_append,
        (fits_finder hopen hclose).pass?_eq_some_iff.2 hnested] at hpass
      simp [Reader.pass?, Reader.finder, hopen, hclose] at hpass

end

/-! ## Tokens -/

/-- The token is read in the same way without escapes: it is no literal that holds its own
    quote, and no comment. -/
def Token.isLegible : Token → Bool
  | .literal q _ body => body.all fun p => p != .plain q && p != .escaped q
  | .comment _ => false
  | _ => true

/-- The token is read in the same way as code: a literal has no brackets and no `mark` in it. -/
def Token.isBare (mark : Char) : Token → Bool
  | .literal q long body => (Token.literal q long body).text.all fun c =>
    !isOpening c && !isClosing c && c != mark
  | .comment _ => false
  | _ => true

/-- The character stands in brackets or in literals only. -/
def hides (c : Char) (opened : List Bracket) : List Token → Bool
  | [] => true
  | t :: ts => (t != .plain c || !opened.isEmpty) && (t.step opened).all (hides c · ts)

variable {body : List Piece}

theorem isQuote_of_isSound (h : (Token.literal q long body).isSound) : isQuote q := by
  have hq : q = '\x27' ∨ q = '"' := by
    cases long
    · simp only [Token.isSound, Bool.and_eq_true] at h
      simpa using h.1
    · simp only [Token.isSound, Bool.and_eq_true] at h
      simpa using h.1.1.1
  rcases hq with rfl | rfl <;> rfl

namespace Reader

variable {d : Nat} {t : Token}

/-- A legible literal is passed. In triple quotes it is a string between two empty ones. -/
theorem pass?_literal (hquoting : r.quoting) (hq : isQuote q) (hstop : r.stops d q = false)
    (hbody : q ∉ body.flatMap Piece.text) :
    r.pass? ⟨d, none⟩ (Token.literal q long body).text = some ⟨d, none⟩ := by
  have hstring : ∀ inner rest, q ∉ inner →
      r.pass? ⟨d, none⟩ (q :: (inner ++ q :: rest)) = r.pass? ⟨d, none⟩ rest := by
    intro inner rest hinner
    rw [pass?_quote hstop hquoting hq, depthAfter_quote hq, pass?_string hinner]
  cases long with
  | false => simpa [Token.text, Token.quotes, pass?] using hstring _ [] hbody
  | true =>
    have hempty : ∀ rest, r.pass? ⟨d, none⟩ (q :: q :: rest) = r.pass? ⟨d, none⟩ rest :=
      fun rest => hstring [] rest (by simp)
    simp only [Token.text, Token.quotes, if_true, cons_append, nil_append]
    rw [hempty, hstring _ _ hbody, hempty]
    rfl

/-- The reader goes over the token if it is a literal, wherever it does not stop at the quote. A
    comment is not gone over. -/
def Passes (r : Reader) : Token → Prop
  | .literal q long body => ∀ d, r.stops d q = false →
    r.pass? ⟨d, none⟩ (Token.literal q long body).text = some ⟨d, none⟩
  | .comment _ => False
  | _ => True

theorem passes_of_isLegible (hquoting : r.quoting) (hsound : t.isSound) (hlegible : t.isLegible) :
    r.Passes t := by
  cases t with
  | literal q long body =>
    intro d hstop
    have hq := isQuote_of_isSound hsound
    exact pass?_literal hquoting hq hstop
      (Piece.not_mem_flatMap_text (ne_backslash_of_isQuote hq)
        (by simpa [Token.isLegible] using hlegible))
  | comment s => cases hlegible
  | _ => trivial

theorem passes_of_isBare {mark : Char} (h : t.isBare mark) : (finder mark).Passes t := by
  cases t with
  | literal q long body =>
    intro d _
    have hplain : ∀ c ∈ (Token.literal q long body).text, isOpening c = false ∧
        isClosing c = false ∧ ((finder mark).quoting && isQuote c) = false ∧
          (finder mark).stops d c = false := by
      intro c hc
      have hbare := all_eq_true.1 h c hc
      simp only [Bool.and_eq_true, Bool.not_eq_true', bne_iff_ne] at hbare
      exact ⟨hbare.1.1, hbare.1.2, rfl, by simp [finder, hbare.2]⟩
    have hpass := pass?_plain hplain []
    rwa [append_nil] at hpass
  | comment s => cases h
  | _ => trivial

variable {opened opened' : List Bracket}

/-- A reader that stops at no quote and at no opening bracket passes a token, if it goes over
    literals. -/
theorem Fits.pass?_token (h : r.Fits base bad)
    (hbad : ∀ c, isQuote c ∨ isOpening c ∨ c = '\n' ∨ c = '\\' → bad c = false) (hsound : t.isSound)
    (hpasses : r.Passes t) (hplain : opened = [] → ∀ c, t = .plain c → bad c = false)
    (hstep : t.step opened = some opened') :
    r.pass? ⟨base + opened.length, none⟩ t.text = some ⟨base + opened'.length, none⟩ := by
  -- Where no bracket is open, a character must not be bad.
  have hstop : ∀ c, (opened = [] → bad c = false) →
      r.stops (base + opened.length) c = false := by
    intro c hc
    cases opened with
    | nil => exact (h.here c).trans (hc rfl)
    | cons b opened => exact h.deep _ c (by simp)
  have hother : ∀ c, (isQuote c = false ∧ depthAfter c (base + opened.length) =
      base + opened.length) → (opened = [] → bad c = false) → ∀ s,
      r.pass? ⟨base + opened.length, none⟩ (c :: s) = r.pass? ⟨base + opened.length, none⟩ s := by
    rintro c ⟨hquote, hdepth⟩ hc s
    rw [pass?_char (hstop c hc) (by simp [hquote]), hdepth]
  cases t with
  | plain c =>
    cases hstep
    have hspecial : c ∉ specials := by simpa [Token.isSound] using hsound
    obtain ⟨_, _, _, hquote, hdepth⟩ :
        _ ∧ _ ∧ _ ∧ _ ∧ depthAfter c (base + opened.length) = base + opened.length :=
      of_not_mem_specials hspecial
    rw [Token.text, hother c ⟨hquote, hdepth⟩ (fun ho => hplain ho c rfl)]
    rfl
  | newline =>
    cases hstep
    rw [Token.text, hother '\n' ⟨rfl, rfl⟩ (fun _ => hbad _ (by simp))]
    rfl
  | joint =>
    cases hstep
    rw [Token.text, hother '\\' ⟨rfl, rfl⟩ (fun _ => hbad _ (by simp)),
      hother '\n' ⟨rfl, rfl⟩ (fun _ => hbad _ (by simp))]
    rfl
  | comment s => exact hpasses.elim
  | opening b =>
    cases hstep
    have hopen : isOpening b.openingChar := by cases b <;> rfl
    rw [Token.text, pass?_char (hstop _ fun _ => hbad _ (.inr (.inl hopen)))
      (by simp [(of_isOpening hopen).2]), depthAfter_opening hopen]
    rfl
  | closing b =>
    rw [Token.step] at hstep
    split at hstep
    · next hhead =>
      cases hstep
      obtain ⟨rest, rfl⟩ := head?_eq_some_iff.1 hhead
      have hclose : isClosing b.closingChar := by cases b <;> rfl
      rw [Token.text, pass?_char (h.deep _ _ (by simp)) (by simp [(of_isClosing hclose).2]),
        depthAfter_closing hclose]
      rfl
    · cases hstep
  | literal q long body =>
    cases hstep
    exact hpasses _ (hstop q fun _ => hbad q (.inl (isQuote_of_isSound hsound)))

/-- So it passes tokens, one by one. -/
theorem Fits.pass?_textOf (h : r.Fits base bad)
    (hbad : ∀ c, isQuote c ∨ isOpening c ∨ c = '\n' ∨ c = '\\' → bad c = false)
    (hsound : ∀ t ∈ ts, t.isSound) (hpasses : ∀ t ∈ ts, r.Passes t)
    (hhides : ∀ c, bad c → c ∉ specials → hides c opened ts)
    (hopen : openAfter opened ts = some opened') :
    r.pass? ⟨base + opened.length, none⟩ (textOf ts) = some ⟨base + opened'.length, none⟩ := by
  induction ts generalizing opened with
  | nil =>
    cases hopen
    rfl
  | cons t ts ih =>
    obtain ⟨next, hstep, hrest⟩ := Option.bind_eq_some_iff.1 hopen
    obtain ⟨htsound, hsound⟩ := forall_mem_cons.1 hsound
    obtain ⟨htpasses, hpasses⟩ := forall_mem_cons.1 hpasses
    have hplain : opened = [] → ∀ c, t = .plain c → bad c = false := by
      rintro rfl c rfl
      rw [← Bool.not_eq_true]
      intro hc
      have hhere := hhides c hc (by simpa [Token.isSound] using htsound)
      simp [hides] at hhere
    have hlater : ∀ c, bad c → c ∉ specials → hides c next ts := by
      intro c hc hspecial
      have hhere := hhides c hc hspecial
      rw [hides, hstep, Bool.and_eq_true] at hhere
      exact hhere.2
    rw [textOf_cons, pass?_append, h.pass?_token hbad htsound htpasses hplain hstep]
    exact ih hsound hpasses hlater hrest

end Reader

/-- Brackets that are closed as the lexical rules want are closed for a reader without escapes
    as well, if all tokens are legible. -/
theorem nested_textOf (hsound : ∀ t ∈ ts, t.isSound) (hlegible : ∀ t ∈ ts, t.isLegible)
    (hopen : openAfter [] ts = some []) : Nested true isClosing (textOf ts) := by
  have hpasses : ∀ t ∈ ts, Reader.closer.Passes t := fun t ht =>
    Reader.passes_of_isLegible rfl (hsound t ht) (hlegible t ht)
  refine fits_closer.pass?_eq_some_iff.1 (fits_closer.pass?_textOf ?_ hsound hpasses ?_ hopen)
  · rintro c (hc | hc | rfl | rfl)
    · exact (of_isQuote hc).2
    · exact (of_isOpening hc).1
    · rfl
    · rfl
  · intro c hclose hspecial
    refine absurd ?_ hspecial
    simp only [isClosing, Bool.or_eq_true, beq_iff_eq] at hclose
    rcases hclose with (rfl | rfl) | rfl <;> decide

end CodeAtlas.Python
