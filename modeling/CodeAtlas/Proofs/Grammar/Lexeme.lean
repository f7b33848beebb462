import CodeAtlas.Grammar.Lexer

/-!
# Where lexemes stand

A lexer cuts the source from its start to its end, and the places of lexemes count
the bytes before them. So the source can be cut at a place again, and what stands at
the place of a lexeme is what was cut off there (`Stands`).

What a lexer says of a cut may rest on what it knows of its state. Such a fact is
given as an invariant of the states and the source that remains.

* `stands_of_mem_lexemes`: every lexeme stands where it was cut off;
* `Stands.excerpt`: the text at the place of a lexeme;
* `text_of_mem_lexemes`: the text of a lexeme is what stands at its place;
* `lexemesBehind_append`: the lexemes of a source, one cut after the other.
-/

namespace CodeAtlas

open List

variable {s : Source} {p : Char → Bool} (g : Glyph)

theorem Glyph.size_pos : 0 < g.size := by
  cases g with
  | char c => exact c.utf8Size_pos
  | stray b => exact Nat.one_pos

namespace Source

/-- The number of bytes of a source. -/
def byteCount : Source → Nat
  | [] => 0
  | g :: s => g.size + byteCount s

theorem byteCount_cons (s : Source) : byteCount (g :: s) = g.size + byteCount s := rfl

theorem byteCount_append (s t : Source) : byteCount (s ++ t) = byteCount s + byteCount t := by
  induction s with
  | nil => exact (Nat.zero_add _).symm
  | cons g s ih => rw [cons_append, byteCount_cons, byteCount_cons, ih, Nat.add_assoc]

/-- The bytes of a source that is not empty are those of its first glyph, at least one,
    and the rest. -/
theorem exists_byteCount_cons (s : Source) :
    ∃ n, byteCount (g :: s) = n + 1 ∧ g.size ≤ n + 1 ∧ n + 1 - g.size = byteCount s := by
  have hpos := g.size_pos
  refine ⟨g.size - 1 + byteCount s, ?_, ?_, ?_⟩
  · rw [byteCount_cons]
    omega
  · omega
  · omega

theorem bytes?_byteCount (s t : Source) : dropBytes? (byteCount s) (s ++ t) = some t ∧
    takeBytes? (byteCount s) (s ++ t) = some s := by
  induction s with
  | nil => cases t <;> exact ⟨rfl, rfl⟩
  | cons g s ih =>
    obtain ⟨n, hn, hle, hrest⟩ := exists_byteCount_cons g s
    rw [hn, cons_append, dropBytes?, takeBytes?, if_pos hle, if_pos hle, hrest, ih.1, ih.2]
    exact ⟨rfl, rfl⟩

/-- What stands between two parts of a source, by the bytes before it. -/
theorem excerpt_between (pre part post : Source) :
    excerpt (pre ++ (part ++ post)) (byteCount pre) (byteCount pre + byteCount part) =
      text part := by
  rw [excerpt, if_pos (Nat.le_add_right _ _), (bytes?_byteCount ..).1, Nat.add_sub_cancel_left,
    Option.bind_some, (bytes?_byteCount ..).2]

theorem satisfies_of_mem_countWhile {g : Glyph} (hg : g ∈ s.take (countWhile p s)) :
    g.satisfies p := by
  induction s with
  | nil => cases hg
  | cons h s ih =>
    rw [countWhile] at hg
    split at hg
    · rcases mem_cons.1 hg with rfl | hg
      · assumption
      · exact ih hg
    · cases hg

theorem countWhile_pos {p' : Char → Bool} (hp : ∀ c, p c → p' c)
    (h : headIs p s) : 1 ≤ countWhile p' s := by
  cases s with
  | nil => cases h
  | cons g s =>
    have hg : g.satisfies p' := by
      cases g with
      | char c => exact hp c h
      | stray b => cases h
    rw [countWhile, if_pos hg]
    exact Nat.le_add_left 1 _

theorem exists_chars (h : ∀ g ∈ s, g.satisfies p) :
    ∃ chars : List Char, s = chars.map .char ∧ ∀ c ∈ chars, p c := by
  induction s with
  | nil => exact ⟨[], rfl, by simp⟩
  | cons g s ih =>
    obtain ⟨hg, hs⟩ := forall_mem_cons.1 h
    obtain ⟨chars, rfl, hchars⟩ := ih hs
    cases g with
    | char c => exact ⟨c :: chars, rfl, forall_mem_cons.2 ⟨hg, hchars⟩⟩
    | stray b => cases hg

theorem countWhile_append {t : Source} (hs : ∀ g ∈ s, g.satisfies p)
    (ht : headIs p t = false) : countWhile p (s ++ t) = s.length := by
  induction s with
  | nil =>
    cases t with
    | nil => rfl
    | cons g t => exact if_neg (by rw [headIs] at ht; simp [ht])
  | cons g s ih =>
    rw [cons_append, countWhile, if_pos (hs g mem_cons_self), length_cons,
      ih fun h hh => hs h (mem_cons_of_mem g hh)]

theorem text_map_char (chars : List Char) : text (chars.map .char) = String.ofList chars := by
  have hchars : chars? (chars.map .char) = some chars := by
    induction chars with
    | nil => rfl
    | cons c chars ih => rw [map_cons, chars?, ih]; rfl
  rw [text, hchars]

/-- What is cut off as far as a condition holds has characters, and all of them satisfy it. -/
theorem exists_text_of_countWhile {q : Char → Bool} (hp : ∀ c, p c → q c)
    (h : headIs p s) : ∃ chars, text (s.take (max (countWhile q s) 1)) =
      String.ofList chars ∧ chars ≠ [] ∧ ∀ c ∈ chars, q c := by
  have hpos := countWhile_pos hp h
  obtain ⟨chars, htake, hchars⟩ := exists_chars fun g hg => @satisfies_of_mem_countWhile s q g hg
  rw [Nat.max_eq_left hpos, htake, text_map_char]
  refine ⟨chars, rfl, ?_, hchars⟩
  rintro rfl
  rcases take_eq_nil_iff.1 htake with hzero | rfl
  · omega
  · cases h

end Source

namespace Grammar

open Source

theorem Position.byte_advance (p : Position) (g : Glyph) :
    (p.advance g).byte = p.byte + g.size := by
  rw [advance]
  split
  · next h =>
    cases g with
    | char c => rw [Glyph.is, beq_iff_eq] at h; subst h; rfl
    | stray b => cases h
  · rfl

theorem Position.byte_foldl_advance (s : Source) (p : Position) :
    (s.foldl advance p).byte = p.byte + byteCount s := by
  induction s generalizing p with
  | nil => rfl
  | cons g s ih => rw [foldl_cons, ih, byte_advance, byteCount_cons, Nat.add_assoc]

variable {κ φ σ : Type} {next : σ → Source → Cut κ φ σ} {holds : σ → Source → Prop} {l : Lexeme κ φ}

/-- How much is cut off next. -/
def cutLength (next : σ → Source → Cut κ φ σ) (state : σ) (s : Source) : Nat :=
  max (next state s).count 1

/-- The lexeme stands where the lexer cut it off the source, and has the text that was cut off if
    the lexer keeps the letter case. -/
def Stands (next : σ → Source → Cut κ φ σ) (holds : σ → Source → Prop) (source : Source)
    (l : Lexeme κ φ) : Prop :=
  ∃ state pre rest, source = pre ++ rest ∧ rest ≠ [] ∧ holds state rest ∧
    (next state rest).form = some l.form ∧ l.extent.start = pre.foldl Position.advance .origin ∧
    l.extent.stop = (rest.take (cutLength next state rest)).foldl Position.advance l.extent.start ∧
    ((next state rest).fold = false → l.text = text (rest.take (cutLength next state rest)))

variable {state : σ}

/-- Each cut is made where those before it ended, and the invariant holds there. -/
theorem stands_of_mem_lexemesFrom
    (hstep : ∀ state s, s ≠ [] → holds state s →
      holds (next state s).state (s.drop (cutLength next state s))) {n : Nat} (pre : Source)
    (hinit : holds state s)
    (hl : l ∈ lexemesFrom next n state (pre.foldl Position.advance .origin) s) :
    Stands next holds (pre ++ s) l := by
  induction n generalizing state pre s with
  | zero => cases hl
  | succ n ih =>
    cases s with
    | nil => cases hl
    | cons g s =>
      -- What comes behind the next cut: the source is the same, cut one step further.
      have hrest : l ∈ lexemesFrom next n (next state (g :: s)).state
          (((g :: s).take (cutLength next state (g :: s))).foldl Position.advance
            (pre.foldl Position.advance .origin)) ((g :: s).drop (cutLength next state (g :: s))) →
          Stands next holds (pre ++ g :: s) l := by
        intro hl
        rw [← foldl_append] at hl
        have := ih _ (hstep state (g :: s) (cons_ne_nil _ _) hinit) hl
        rwa [append_assoc, take_append_drop] at this
      rw [lexemesFrom] at hl
      split at hl
      · exact hrest hl
      · next form hform =>
        rcases mem_cons.1 hl with rfl | hl
        · refine ⟨state, pre, g :: s, rfl, cons_ne_nil _ _, hinit, hform, rfl, rfl, fun hfold => ?_⟩
          rw [hfold]
          rfl
        · exact hrest hl

/-- Every lexeme of a source stands where it was cut off. -/
theorem stands_of_mem_lexemes (hinit : ∀ s, holds state s)
    (hstep : ∀ state s, s ≠ [] → holds state s →
      holds (next state s).state (s.drop (cutLength next state s))) {source : Source}
    (hl : l ∈ lexemes next state source) : Stands next holds source l := by
  cases source with
  | nil => cases hl
  | cons g s =>
    rw [lexemes] at hl
    split at hl
    · exact stands_of_mem_lexemesFrom hstep [g] (hinit _) hl
    · exact stands_of_mem_lexemesFrom hstep [] (hinit _) hl

namespace Stands

variable {source : Source}

/-- What stands at the place of a lexeme is what was cut off there. -/
theorem excerpt (h : Stands next holds source l) :
    ∃ state rest, rest ≠ [] ∧ holds state rest ∧ (next state rest).form = some l.form ∧
      source.excerpt l.extent.start.byte l.extent.stop.byte =
        text (rest.take (cutLength next state rest)) ∧
      ((next state rest).fold = false → l.text = text (rest.take (cutLength next state rest))) := by
  obtain ⟨state, pre, rest, rfl, hne, hinv, hform, hstart, hstop, htext⟩ := h
  refine ⟨state, rest, hne, hinv, hform, ?_, htext⟩
  have hbyte : l.extent.start.byte = byteCount pre := by
    rw [hstart, Position.byte_foldl_advance]
    exact Nat.zero_add _
  have hcut := excerpt_between pre (rest.take (cutLength next state rest))
    (rest.drop (cutLength next state rest))
  rw [take_append_drop] at hcut
  rw [hstop, Position.byte_foldl_advance, hbyte]
  exact hcut

end Stands

/-- A lexer that keeps the letter case gives its lexemes the text that stands at their
    places. -/
theorem text_of_mem_lexemes (hfold : ∀ state s, (next state s).fold = false) {source : Source}
    (hl : l ∈ lexemes next state source) :
    source.excerpt l.extent.start.byte l.extent.stop.byte = l.text := by
  have hstands : Stands next (fun _ _ => True) source l :=
    stands_of_mem_lexemes (fun _ => trivial) (fun _ _ _ _ => trivial) hl
  obtain ⟨state, rest, -, -, -, hexcerpt, htext⟩ := hstands.excerpt
  rw [hexcerpt, htext (hfold state rest)]

/-! ## Cut by cut -/

theorem lexemesFrom_congr {m n : Nat} (hm : s.length ≤ m) (hn : s.length ≤ n) (state : σ)
    (p : Position) : lexemesFrom next m state p s = lexemesFrom next n state p s := by
  induction m generalizing n s state p with
  | zero =>
    cases length_eq_zero_iff.1 (Nat.le_zero.1 hm)
    cases n <;> rfl
  | succ m ih =>
    cases s with
    | nil => cases n <;> rfl
    | cons g s =>
      cases n with
      | zero => cases hn
      | succ n =>
        rw [length_cons] at hm hn
        have hdrop : ∀ k, ((g :: s).drop (max k 1)).length ≤ m ∧
            ((g :: s).drop (max k 1)).length ≤ n := by
          intro k
          rw [length_drop, length_cons]
          omega
        rw [lexemesFrom, lexemesFrom]
        simp only [ih (hdrop _).1 (hdrop _).2]

/-- The lexemes of a source from the place behind `pre` on. -/
def lexemesBehind (next : σ → Source → Cut κ φ σ) (state : σ) (pre s : Source) :
    List (Lexeme κ φ) :=
  lexemesFrom next s.length state (pre.foldl Position.advance .origin) s

/-- Where a piece of source stands that follows `pre`. -/
def extentBehind (pre s : Source) : Extent :=
  ⟨pre.foldl Position.advance .origin, (pre ++ s).foldl Position.advance .origin⟩

theorem excerpt_extentBehind (pre s post : Source) :
    excerpt (pre ++ (s ++ post)) (extentBehind pre s).start.byte (extentBehind pre s).stop.byte =
      text s := by
  simp only [extentBehind, Position.byte_foldl_advance, byteCount_append, Position.origin,
    Nat.zero_add]
  exact excerpt_between pre s post

theorem lexemesBehind_append {state state' : σ} {s post : Source} {form : Option (Form κ φ)}
    {fold : Bool} (hs : s ≠ []) (hcut : next state (s ++ post) = ⟨form, s.length, state', fold⟩)
    (pre : Source) :
    lexemesBehind next state pre (s ++ post) =
      (form.map fun f =>
          ⟨f, if fold then foldCase (text s) else text s, extentBehind pre s⟩).toList ++
        lexemesBehind next state' (pre ++ s) post := by
  obtain ⟨g, s, rfl⟩ := exists_cons_of_ne_nil hs
  have hmax : max (g :: s).length 1 = (g :: s).length := Nat.max_eq_left (Nat.le_add_left 1 _)
  rw [cons_append] at hcut
  rw [lexemesBehind, cons_append, length_cons, lexemesFrom]
  simp only [hcut, hmax]
  rw [← cons_append, take_left, drop_left, ← foldl_append,
    lexemesFrom_congr (n := post.length) (by simp) (Nat.le_refl _)]
  cases form <;> rfl

theorem lexemes_eq_lexemesBehind {g : Glyph} (h : g.is (Char.ofNat 0xFEFF) = false) (s : Source) :
    lexemes next state (g :: s) = lexemesBehind next state [] (g :: s) := by
  rw [lexemes, if_neg (by rw [h]; exact Bool.false_ne_true)]
  rfl

end Grammar

end CodeAtlas
