import Mathlib.Order.Defs.PartialOrder
import CodeAtlas.Proofs.Grammar.Lexeme
import CodeAtlas.Proofs.Grammar.Yield

/-!
# Where trees stand

Lexemes follow each other in their source (`InOrder`), and so do the trees that are made of
them. Each tree stands on some text, and its parts stand within it, one behind the other
(`Nested`). So a part starts on no earlier line than the tree around it, and ends on no
later one.

This asks that every node has parts, since a node without them would stand at the start of
the source. It can be told from a grammar: `takesSolid` says that the grammar reads a solid
lexeme if it matches, and `nodesFilled` that this is so within all of its nodes, given the
rules of which it is known.

* `inOrder_lexemes`: lexemes follow each other, by induction on the cuts;
* `Derives.laid`: so do the trees that a run reads, by induction on the derivation;
* `Inside.of_mem`: the lines of a part are among those of the tree around it;
* `laid_of_parse?`: the parts of the tree of a whole text, and so the lines of the tree
  (`onLines_of_parse?`, `endLine_of_parse?`).
-/

namespace CodeAtlas.Grammar

open List Bool
open ParseTree (endLine extent kind? startLine)

/-! ## Places -/

namespace Position

variable {p q : Position}

/-- Places go by line and column. -/
instance : Preorder Position where
  le p q := p.line < q.line ∨ p.line = q.line ∧ p.column ≤ q.column
  lt p q := p.line < q.line ∨ p.line = q.line ∧ p.column < q.column
  le_refl p := .inr ⟨rfl, le_refl _⟩
  le_trans p q r hpq hqr := by omega
  lt_iff_le_not_ge p q := by omega

theorem le_def : p ≤ q ↔ p.line < q.line ∨ p.line = q.line ∧ p.column ≤ q.column := Iff.rfl

theorem lt_def : p < q ↔ p.line < q.line ∨ p.line = q.line ∧ p.column < q.column := Iff.rfl

theorem line_le_of_le (h : p ≤ q) : p.line ≤ q.line := by
  rw [le_def] at h
  omega

theorem lt_advance (p : Position) (g : Glyph) : p < p.advance g := by
  have hsize := g.size_pos
  rw [advance]
  split
  · exact .inl (Nat.lt_succ_self _)
  · exact .inr ⟨rfl, Nat.lt_add_of_pos_right hsize⟩

theorem le_foldl_advance (s : Source) (p : Position) : p ≤ s.foldl advance p := by
  induction s generalizing p with
  | nil => exact le_refl p
  | cons g s ih => exact le_trans (le_of_lt (lt_advance p g)) (ih _)

/-- A glyph ends one line at most. -/
theorem line_foldl_advance_le (s : Source) (p : Position) :
    (s.foldl advance p).line ≤ p.line + s.length := by
  induction s generalizing p with
  | nil => exact le_refl _
  | cons g s ih =>
    have hline : (p.advance g).line ≤ p.line + 1 := by
      rw [advance]
      split
      · exact le_refl _
      · exact Nat.le_succ _
    have hrest := ih (p.advance g)
    rw [foldl_cons, length_cons]
    omega

theorem lt_foldl_advance {s : Source} (hs : s ≠ []) (p : Position) : p < s.foldl advance p := by
  cases s with
  | nil => exact absurd rfl hs
  | cons g s => exact lt_of_lt_of_le (lt_advance p g) (le_foldl_advance s _)

end Position

/-! ## Stretches that follow each other -/

/-- The stretches follow each other between two places, and none is empty. -/
def InOrder : Position → List Extent → Position → Prop
  | p, [], q => p ≤ q
  | p, e :: es, q => p ≤ e.start ∧ e.start < e.stop ∧ InOrder e.stop es q

namespace InOrder

variable {p q r : Position} {e : Extent} {es fs : List Extent}

theorem le (h : InOrder p es q) : p ≤ q := by
  induction es generalizing p with
  | nil => exact h
  | cons e es ih => exact le_trans h.1 (le_trans (le_of_lt h.2.1) (ih h.2.2))

theorem of_le (hrp : r ≤ p) (h : InOrder p es q) : InOrder r es q := by
  cases es with
  | nil => exact le_trans hrp h
  | cons e es => exact ⟨le_trans hrp h.1, h.2⟩

theorem append (h : InOrder p es q) (h' : InOrder q fs r) : InOrder p (es ++ fs) r := by
  induction es generalizing p with
  | nil => exact h'.of_le h
  | cons e es ih => exact ⟨h.1, h.2.1, ih h.2.2⟩

theorem exists_of_append (h : InOrder p (es ++ fs) r) :
    ∃ q, InOrder p es q ∧ InOrder q fs r := by
  induction es generalizing p with
  | nil => exact ⟨p, le_refl p, h⟩
  | cons e es ih =>
    obtain ⟨q, hes, hfs⟩ := ih h.2.2
    exact ⟨q, ⟨h.1, h.2.1, hes⟩, hfs⟩

theorem of_mem (h : InOrder p es q) (he : e ∈ es) :
    p ≤ e.start ∧ e.start < e.stop ∧ e.stop ≤ q := by
  induction es generalizing p with
  | nil => cases he
  | cons e' es ih =>
    rcases mem_cons.1 he with rfl | he
    · exact ⟨h.1, h.2.1, le h.2.2⟩
    · obtain ⟨hstart, hrest⟩ := ih h.2.2 he
      exact ⟨le_trans h.1 (le_trans (le_of_lt h.2.1) hstart), hrest⟩

/-- The stretches lie between the start of the first and the end of the last. -/
theorem tighten {first last : Extent} (h : InOrder p es q) (hfirst : es.head? = some first)
    (hlast : es.getLast? = some last) : InOrder first.start es last.stop := by
  obtain ⟨init, rfl⟩ := getLast?_eq_some_iff.1 hlast
  obtain ⟨m, hinit, hend⟩ := h.exists_of_append
  have htight : InOrder p (init ++ [last]) last.stop :=
    hinit.append ⟨hend.1, hend.2.1, le_refl _⟩
  cases init with
  | nil =>
    cases hfirst
    exact ⟨le_refl _, htight.2⟩
  | cons e init =>
    cases hfirst
    exact ⟨le_refl _, htight.2⟩

end InOrder

section lexemes

variable {κ φ σ : Type} {next : σ → Source → Cut κ φ σ}

/-- Each lexeme starts where the cut before it ended, or later. -/
theorem inOrder_lexemesFrom (n : Nat) (state : σ) (p : Position) (s : Source) :
    InOrder p ((lexemesFrom next n state p s).map Lexeme.extent) (s.foldl Position.advance p) := by
  induction n generalizing state p s with
  | zero => exact Position.le_foldl_advance s p
  | succ n ih =>
    cases s with
    | nil => exact le_refl p
    | cons g s =>
      rw [lexemesFrom]
      generalize hcount : max (next state (g :: s)).count 1 = count
      -- Something is taken by each cut, so no lexeme is empty.
      have htaken : (g :: s).take count ≠ [] := by
        rw [← hcount]
        simp
      have hrest := ih (next state (g :: s)).state
        (((g :: s).take count).foldl Position.advance p) ((g :: s).drop count)
      rw [← foldl_append, take_append_drop] at hrest
      split
      · exact hrest.of_le (Position.le_foldl_advance _ p)
      · exact ⟨le_refl p, Position.lt_foldl_advance htaken p, hrest⟩

/-- The lexemes of a source follow each other, and the last ends on a line of the source. -/
theorem inOrder_lexemes (state : σ) (source : Source) :
    ∃ z, InOrder .origin ((lexemes next state source).map Lexeme.extent) z ∧
      z.line ≤ source.length + 1 := by
  have hline : (source.foldl Position.advance .origin).line ≤ source.length + 1 :=
    Nat.le_trans (Position.line_foldl_advance_le ..) (Nat.le_of_eq (Nat.add_comm ..))
  refine ⟨source.foldl Position.advance .origin, ?_, hline⟩
  cases source with
  | nil => exact le_refl _
  | cons g s =>
    rw [lexemes]
    split
    · exact (inOrder_lexemesFrom ..).of_le (le_of_lt (Position.lt_advance _ g))
    · exact inOrder_lexemesFrom ..

end lexemes

/-! ## Trees within trees -/

variable {κ φ ρ : Type} {r : ρ} {g : Grammar κ φ ρ} {t : ParseTree κ}

/-- The tree stands on some text, and its parts follow each other within it. -/
inductive Nested : ParseTree κ → Prop
  | sign {text : String} {role : Option Role} {e : Extent} : e.start < e.stop →
    Nested (.sign text role e)
  | node {kind : κ} {role : Option Role} {e : Extent} {parts : List (ParseTree κ)} :
    e.start < e.stop → InOrder e.start (parts.map extent) e.stop →
    (∀ t ∈ parts, Nested t) → Nested (.node kind role e parts)

namespace Nested

variable {t p : ParseTree κ}

theorem start_lt (h : Nested t) : t.extent.start < t.extent.stop := by
  cases h with
  | sign hlt => exact hlt
  | node hlt _ _ => exact hlt

theorem of_mem (h : Nested t) (hp : p ∈ t.parts) :
    Nested p ∧ t.extent.start ≤ p.extent.start ∧ p.extent.stop ≤ t.extent.stop := by
  cases h with
  | sign _ => cases hp
  | node _ horder hparts =>
    obtain ⟨hstart, _, hstop⟩ := horder.of_mem (mem_map_of_mem hp)
    exact ⟨hparts p hp, hstart, hstop⟩

theorem withRole (h : Nested t) (r : Role) : Nested (t.withRole r) := by
  cases h with
  | @sign _ role _ hlt => cases role <;> exact .sign hlt
  | @node _ role _ _ hlt horder hparts => cases role <;> exact .node hlt horder hparts

end Nested

/-- The tree ends on no later line if it ends at no later place. -/
theorem endLine_le {p : ParseTree κ} (hp : p.extent.start < p.extent.stop)
    (hstart : t.extent.start ≤ p.extent.start) (hstop : p.extent.stop ≤ t.extent.stop) :
    p.endLine ≤ t.endLine := by
  rw [Position.lt_def] at hp
  rw [Position.le_def] at hstart hstop
  rw [endLine, endLine, startLine]
  simp only [and_eq_true, beq_iff_eq, decide_eq_true_eq]
  -- What ends at the start of a line is said to end on the line before it.
  split <;> split <;> omega

/-- A tree ends on the line on which it stops, or before. -/
theorem Nested.endLine_le (h : Nested t) : t.endLine ≤ t.extent.stop.line := by
  have hline : t.startLine ≤ t.extent.stop.line := Position.line_le_of_le (le_of_lt h.start_lt)
  rw [endLine]
  split <;> omega

/-- The tree `p` is nested, and its lines are among those of `t`. -/
structure Inside (t p : ParseTree κ) : Prop where
  nested : Nested p
  start_le : t.startLine ≤ p.startLine
  stop_le : p.endLine ≤ t.endLine

theorem Nested.inside (h : Nested t) : Inside t t :=
  ⟨h, le_refl _, le_refl _⟩

theorem Inside.of_mem {p q : ParseTree κ} (h : Inside t p) (hq : q ∈ p.parts) : Inside t q := by
  obtain ⟨hnested, hstart, hstop⟩ := h.nested.of_mem hq
  exact ⟨hnested, le_trans h.start_le (Position.line_le_of_le hstart),
    le_trans (endLine_le hnested.start_lt hstart hstop) h.stop_le⟩

theorem Nested.inside_of_holds {p : ParseTree κ} (h : Nested t) (hp : Holds t p) : Inside t p := by
  induction hp with
  | refl => exact h.inside
  | tail _ hb ih => exact ih.of_mem hb

theorem Inside.of_mem_nodes {p q : ParseTree κ} (h : Inside t p) (hq : q ∈ p.nodes) : Inside t q :=
  h.of_mem (mem_filter.1 hq).1

/-- The tree is nested and stands on the first `n` lines, which are counted from one. -/
structure OnLines (n : Nat) (t : ParseTree κ) : Prop where
  nested : Nested t
  first : 1 ≤ t.startLine
  last : t.endLine ≤ n

namespace OnLines

variable {n m : Nat} {p : ParseTree κ}

theorem of_inside (h : OnLines n t) (hp : Inside t p) : OnLines n p :=
  ⟨hp.nested, le_trans h.first hp.start_le, le_trans hp.stop_le h.last⟩

theorem of_mem (h : OnLines n t) (hp : p ∈ t.parts) : OnLines n p :=
  h.of_inside (h.nested.inside.of_mem hp)

theorem of_holds (h : OnLines n t) (hp : Holds t p) : OnLines n p :=
  h.of_inside (h.nested.inside_of_holds hp)

theorem of_le (h : OnLines n t) (hle : n ≤ m) : OnLines m t :=
  ⟨h.nested, h.first, le_trans h.last hle⟩

end OnLines

/-! ## Nodes with parts -/

/-- The grammar reads a solid lexeme if it matches, given the rules of which that is known
    and the kinds of asides. -/
def takesSolid (isAsideKind : κ → Bool) (known : ρ → Bool) : Grammar κ φ ρ → Bool
  | .empty | .lineEnd | .finish | .aside _ | .many _ | .behindGroup _ => false
  | .reject | .sign _ => true
  | .leaf _ k => !isAsideKind k
  | .rule r => known r
  | .seq a b => takesSolid isAsideKind known a || takesSolid isAsideKind known b
  | .alt a b => takesSolid isAsideKind known a && takesSolid isAsideKind known b
  | .node k a => !isAsideKind k && takesSolid isAsideKind known a
  | .grow _ a _ | .role _ a | .ahead _ a | .notAhead _ a => takesSolid isAsideKind known a

/-- Each node of the grammar has a part that is no aside, and is none itself. -/
def nodesFilled (isAsideKind : κ → Bool) (known : ρ → Bool) : Grammar κ φ ρ → Bool
  | .empty | .reject | .sign _ | .leaf .. | .lineEnd | .finish | .aside _ | .rule _
  | .behindGroup _ => true
  | .seq a b | .alt a b | .grow _ a b =>
    nodesFilled isAsideKind known a && nodesFilled isAsideKind known b
  | .node k a =>
    !isAsideKind k && takesSolid isAsideKind known a && nodesFilled isAsideKind known a
  | .many a | .role _ a | .ahead _ a | .notAhead _ a => nodesFilled isAsideKind known a

/-- All nodes of a language have parts. -/
structure Filled (d : Dialect κ φ ρ) (isAside : ParseTree κ → Bool) (isAsideKind : κ → Bool)
    (known : ρ → Bool) : Prop where
  isAside_eq : ∀ t, isAside t = t.kind?.any isAsideKind
  nodes : ∀ r, nodesFilled isAsideKind known (d.rules r) = true
  solid : ∀ r, known r = true → takesSolid isAsideKind known (d.rules r) = true

/-! ## What is read -/

/-- The trees follow each other between two places, and their parts within them. -/
def Laid (p : Position) (ts : List (ParseTree κ)) (q : Position) : Prop :=
  InOrder p (ts.map extent) q ∧ ∀ t ∈ ts, Nested t

variable {isAside : ParseTree κ → Bool} {p q z : Position} {ts us : List (ParseTree κ)}
  {input rest : List (Lexeme κ φ)}

theorem laid_nil : Laid p ([] : List (ParseTree κ)) p :=
  ⟨le_refl p, fun _ ht => absurd ht not_mem_nil⟩

theorem Laid.append {r : Position} (hts : Laid p ts q) (hus : Laid q us r) :
    Laid p (ts ++ us) r := by
  refine ⟨?_, forall_mem_append.2 ⟨hts.2, hus.2⟩⟩
  rw [map_append]
  exact hts.1.append hus.1

theorem Laid.exists_of_append (h : Laid p (ts ++ us) q) : ∃ m, Laid p ts m ∧ Laid m us q := by
  obtain ⟨hts, hus⟩ := forall_mem_append.1 h.2
  have horder := h.1
  rw [map_append] at horder
  obtain ⟨m, hts', hus'⟩ := horder.exists_of_append
  exact ⟨m, ⟨hts', hts⟩, hus', hus⟩

/-- A single lexeme as a tree. -/
theorem laid_lexeme {l : Lexeme κ φ} (ht : Nested t) (hextent : t.extent = l.extent)
    (h : InOrder p (l.extent :: rest.map Lexeme.extent) z) :
    Laid p [t] l.extent.stop ∧ InOrder l.extent.stop (rest.map Lexeme.extent) z := by
  refine ⟨⟨?_, forall_mem_singleton.2 ht⟩, h.2.2⟩
  rw [map_singleton, hextent]
  exact ⟨h.1, h.2.1, le_refl _⟩

theorem laid_passAsides (across : Bool) (h : InOrder p (input.map Lexeme.extent) z) :
    ∃ m, Laid p (passAsides (κ := κ) across input).1 m ∧
      InOrder m ((passAsides (κ := κ) across input).2.map Lexeme.extent) z := by
  induction input generalizing p with
  | nil => exact ⟨p, laid_nil, h⟩
  | cons l input ih =>
    rw [passAsides]
    split
    · next k hk =>
      obtain ⟨m, hlaid, hrest⟩ := ih h.2.2
      have hleaf : Nested (.node k none l.extent []) :=
        .node h.2.1 (le_of_lt h.2.1) fun _ ht => absurd ht not_mem_nil
      exact ⟨m, (laid_lexeme hleaf rfl h).1.append hlaid, hrest⟩
    · split
      · exact ih (h.2.2.of_le (le_trans h.1 (le_of_lt h.2.1)))
      · exact ⟨p, laid_nil, h⟩
    · exact ⟨p, laid_nil, h⟩

/-- What is read of a single lexeme, behind the asides before it. -/
theorem laid_readSolid [DecidableEq φ] {t : Terminal φ} {make : Lexeme κ φ → ParseTree κ}
    (hmake : ∀ l : Lexeme κ φ, l.extent.start < l.extent.stop →
      Nested (make l) ∧ (make l).extent = l.extent)
    (h : InOrder p (input.map Lexeme.extent) z)
    (hread : readSolid t make input = some (ts, rest)) :
    ∃ m, Laid p ts m ∧ InOrder m (rest.map Lexeme.extent) z := by
  obtain ⟨m, hasides, horder⟩ := laid_passAsides (κ := κ) true h
  rw [readSolid] at hread
  split at hread
  · next asides l rest' hpass =>
    rw [hpass] at hasides horder
    split at hread
    · split at hread
      · cases hread
        obtain ⟨hnested, hextent⟩ := hmake l horder.2.1
        obtain ⟨hlaid, hrest⟩ := laid_lexeme hnested hextent horder
        exact ⟨_, hasides.append hlaid, hrest⟩
      · cases hread
    · cases hread
  · cases hread

variable {k : κ} {tree : ParseTree κ}

/-- A node stands from the start of its first part to the end of its last. -/
theorem laid_enclose (h : Laid p ts q) (hsolid : ∃ t ∈ ts, isAside t = false) :
    Laid p (enclose isAside k ts) q := by
  obtain ⟨asides, parts, rfl, hasides, henclose⟩ := enclose_eq isAside k ts
  have hparts : parts ≠ [] := by
    rintro rfl
    obtain ⟨t, ht, hsolid⟩ := hsolid
    rw [append_nil] at ht
    rw [hasides t ht] at hsolid
    cases hsolid
  -- Asides before the first part stay outside of the node.
  obtain ⟨m, hbefore, hlaid⟩ := h.exists_of_append
  have hfirst := head?_eq_some_head hparts
  have hlast := getLast?_eq_some_getLast hparts
  have hextent : extentOf .origin parts =
      ⟨(parts.head hparts).extent.start, (parts.getLast hparts).extent.stop⟩ := by
    rw [extentOf, hfirst, hlast]
  have horder : InOrder (parts.head hparts).extent.start (parts.map extent)
      (parts.getLast hparts).extent.stop :=
    hlaid.1.tighten (by rw [head?_map, hfirst]; rfl) (by rw [getLast?_map, hlast]; rfl)
  obtain ⟨hstart, -, -⟩ := hlaid.1.of_mem (mem_map_of_mem (head_mem hparts))
  obtain ⟨-, -, hstop⟩ := hlaid.1.of_mem (mem_map_of_mem (getLast_mem hparts))
  obtain ⟨-, hfirstLt, hfirstStop⟩ := horder.of_mem (mem_map_of_mem (head_mem hparts))
  have hlt := lt_of_lt_of_le hfirstLt hfirstStop
  rw [henclose, hextent]
  refine hbefore.append ⟨⟨hstart, hlt, hstop⟩, forall_mem_singleton.2 ?_⟩
  exact .node hlt horder hlaid.2

/-- A node takes on the tree before it: it starts where that does. -/
theorem laid_graft (hts : Laid p ts q) (hus : Laid q us z) :
    Laid p (graft isAside ts us) z := by
  rcases graft_eq isAside ts us with h | ⟨vs, t, asides, k, r, e, ps, ws, rfl, rfl, -, h⟩
  · rw [h]
    exact hts.append hus
  · obtain ⟨m₁, hvs, ht⟩ := hts.exists_of_append
    obtain ⟨m₂, hasides, hnode⟩ := hus.exists_of_append
    obtain ⟨⟨hstart, htlt, htq⟩, htnested⟩ := ht
    obtain ⟨⟨hm₂, helt, hws⟩, hnested⟩ := hnode
    rw [forall_mem_singleton] at htnested
    rw [forall_mem_cons] at hnested
    obtain ⟨hnodeNested, hwsNested⟩ := hnested
    cases hnodeNested with
    | node _ hps hpsNested =>
      -- Asides between the tree and the node become parts of the node, too.
      have hbehind : InOrder t.extent.stop ((asides ++ ps).map extent) e.stop := by
        rw [map_append]
        exact (hasides.1.of_le htq).append (hps.of_le hm₂)
      have hlt : t.extent.start < e.stop := lt_of_lt_of_le htlt hbehind.le
      have hparts : ∀ u ∈ t :: asides ++ ps, Nested u := by
        rw [cons_append, forall_mem_cons, forall_mem_append]
        exact ⟨htnested, hasides.2, hpsNested⟩
      have hgrown : Nested (.node k r ⟨t.extent.start, e.stop⟩ (t :: asides ++ ps)) :=
        .node hlt ⟨le_refl _, htlt, hbehind⟩ hparts
      rw [h]
      exact hvs.append ⟨⟨hstart, hlt, hws⟩, forall_mem_cons.2 ⟨hgrown, hwsNested⟩⟩

theorem laid_assignRole {r : Role} (h : Laid p ts q) :
    Laid p (ts.map (assignRole isAside r)) q := by
  have hextent : ∀ t : ParseTree κ, (assignRole isAside r t).extent = t.extent := by
    intro t
    rw [assignRole]
    split
    · rfl
    · exact t.extent_withRole r
  refine ⟨?_, forall_mem_map.2 fun t ht => ?_⟩
  · rw [map_map]
    simpa only [Function.comp_def, hextent] using h.1
  · rw [assignRole]
    split
    · exact h.2 t ht
    · exact (h.2 t ht).withRole r

variable {isAsideKind : κ → Bool} {known : ρ → Bool} {d : Dialect κ φ ρ}

/-- What a step takes on is no aside. -/
theorem solid_graft (hq : ∀ t, isAside t = t.kind?.any isAsideKind)
    (hts : ∃ t ∈ ts, isAside t = false) : ∃ t ∈ graft isAside ts us, isAside t = false := by
  rcases graft_eq isAside ts us with h | ⟨vs, t, asides, k, r, e, ps, ws, rfl, rfl, hnode, h⟩
  · obtain ⟨t, ht, haside⟩ := hts
    exact ⟨t, h ▸ mem_append_left _ ht, haside⟩
  · rw [h]
    refine ⟨_, mem_append_right _ mem_cons_self, ?_⟩
    rw [hq] at hnode ⊢
    exact hnode

theorem isAside_assignRole (hq : ∀ t, isAside t = t.kind?.any isAsideKind) (r : Role)
    (t : ParseTree κ) : isAside (assignRole isAside r t) = isAside t := by
  rw [assignRole]
  split
  · rfl
  · rw [hq, ParseTree.kind?_withRole, ← hq]

/-- A node starts where its first part does, or at the start of the source. -/
theorem line_extentOf (h : ∀ t ∈ ts, 1 ≤ t.startLine) : 1 ≤ (extentOf .origin ts).start.line := by
  rw [extentOf]
  split
  · next first _ hfirst _ => exact h first (mem_of_head? hfirst)
  · exact le_refl _

variable [DecidableEq φ]

/-- There is a tree that is no aside if the grammar reads a solid lexeme. -/
theorem Derives.solid (hd : Filled d isAside isAsideKind known)
    (h : Derives d isAside g input ts rest) (hg : takesSolid isAsideKind known g) :
    ∃ t ∈ ts, isAside t = false := by
  induction h with
  | empty | finish | aside | done | behindGroup => cases hg
  | sign hread =>
    obtain ⟨_, asides, l, _, _, _, _, _, rfl⟩ := readSolid_eq_some hread
    exact ⟨_, mem_append_right _ mem_cons_self, hd.isAside_eq _⟩
  | leaf hread =>
    obtain ⟨_, asides, l, _, _, _, _, _, rfl⟩ := readSolid_eq_some hread
    refine ⟨_, mem_append_right _ mem_cons_self, (hd.isAside_eq _).trans ?_⟩
    simpa [takesSolid, kind?] using hg
  | lineEnd _ => cases hg
  | rule _ ih => exact ih (hd.solid _ hg)
  | seq _ _ iha ihb =>
    simpa [or_and_right, exists_or] using (or_eq_true_iff.1 hg).imp iha ihb
  | left _ ih => exact ih (and_eq_true_iff.1 hg).1
  | right _ ih => exact ih (and_eq_true_iff.1 hg).2
  | again _ _ _ _ => cases hg
  | @node k _ _ us _ _ _ =>
    obtain ⟨asides, parts, -, -, henclose⟩ := enclose_eq isAside k us
    rw [henclose]
    refine ⟨_, mem_append_right _ mem_cons_self, (hd.isAside_eq _).trans ?_⟩
    simpa [kind?] using (and_eq_true_iff.1 hg).1
  | first _ ih => exact ih hg
  | step _ _ ih _ => exact solid_graft hd.isAside_eq (ih hg)
  | @role r _ _ _ _ _ ih =>
    obtain ⟨t, ht, haside⟩ := ih hg
    exact ⟨_, mem_map_of_mem ht, (isAside_assignRole hd.isAside_eq r t).trans haside⟩
  | ahead _ ih | notAhead _ ih => exact ih hg

/-- The trees that are read follow each other. -/
theorem Derives.laid (hd : Filled d isAside isAsideKind known)
    (h : Derives d isAside g input ts rest) (hg : nodesFilled isAsideKind known g)
    (hin : InOrder p (input.map Lexeme.extent) z) :
    ∃ m, Laid p ts m ∧ InOrder m (rest.map Lexeme.extent) z := by
  induction h generalizing p with
  | empty | finish | aside | done | behindGroup => exact ⟨p, laid_nil, hin⟩
  | sign hread => exact laid_readSolid (fun _ hlt => ⟨.sign hlt, rfl⟩) hin hread
  | leaf hread =>
    refine laid_readSolid (fun l hlt => ⟨?_, rfl⟩) hin hread
    exact @Nested.node _ _ _ _ [] hlt (le_of_lt hlt) fun _ ht => absurd ht not_mem_nil
  | lineEnd hpass =>
    obtain ⟨m, hasides, horder⟩ := laid_passAsides (κ := κ) false hin
    rw [hpass] at hasides horder
    exact ⟨m, hasides, horder.2.2.of_le (le_trans horder.1 (le_of_lt horder.2.1))⟩
  | rule _ ih => exact ih (hd.nodes _) hin
  | seq _ _ iha ihb =>
    obtain ⟨hga, hgb⟩ := and_eq_true_iff.1 hg
    obtain ⟨m, hus, hmid⟩ := iha hga hin
    obtain ⟨m', hvs, hrest⟩ := ihb hgb hmid
    exact ⟨m', hus.append hvs, hrest⟩
  | left _ ih => exact ih (and_eq_true_iff.1 hg).1 hin
  | right _ ih => exact ih (and_eq_true_iff.1 hg).2 hin
  | again _ _ iha ihb =>
    obtain ⟨m, hus, hmid⟩ := iha hg hin
    obtain ⟨m', hvs, hrest⟩ := ihb hg hmid
    exact ⟨m', hus.append hvs, hrest⟩
  | node ha ih =>
    -- A node without a solid part would stand nowhere.
    obtain ⟨hk, hfilled⟩ := and_eq_true_iff.1 hg
    obtain ⟨m, hus, hrest⟩ := ih hfilled hin
    exact ⟨m, laid_enclose hus (ha.solid hd (and_eq_true_iff.1 hk).2), hrest⟩
  | first _ ih => exact ih (and_eq_true_iff.1 hg).1 hin
  | step _ _ iha ihb =>
    obtain ⟨m, hus, hmid⟩ := iha hg hin
    obtain ⟨m', hvs, hrest⟩ := ihb (and_eq_true_iff.1 hg).2 hmid
    exact ⟨m', laid_graft hus hvs, hrest⟩
  | role _ ih =>
    obtain ⟨m, hus, hrest⟩ := ih hg hin
    exact ⟨m, laid_assignRole hus, hrest⟩
  | ahead _ ih | notAhead _ ih => exact ih hg hin

variable [DecidableEq κ]

/-- The tree of a whole text stands where its parts do, or at the start of the source. -/
theorem extent_of_parse? (h : d.parse? isAside r k input = some tree) :
    tree.extent = extentOf .origin tree.parts := by
  obtain ⟨ts, rest, -, -, rfl⟩ := derives_of_parse? h
  rfl

/-- The parts of the tree of a whole text stand among its lexemes. -/
theorem laid_of_parse? (hd : Filled d isAside isAsideKind known)
    (hin : InOrder p (input.map Lexeme.extent) z) (h : d.parse? isAside r k input = some tree) :
    ∃ m, Laid p tree.parts m ∧ m ≤ z := by
  obtain ⟨ts, rest, hts, -, rfl⟩ := derives_of_parse? h
  obtain ⟨m, hlaid, hrest⟩ := hts.laid hd rfl hin
  obtain ⟨m', hasides, hend⟩ := laid_passAsides (κ := κ) true hrest
  exact ⟨m', hlaid.append hasides, hend.le⟩

theorem onLines_of_parse? (hd : Filled d isAside isAsideKind known)
    (hin : InOrder .origin (input.map Lexeme.extent) z)
    (h : d.parse? isAside r k input = some tree) :
    ∀ t ∈ tree.parts, OnLines z.line t := by
  obtain ⟨m, hlaid, hm⟩ := laid_of_parse? hd hin h
  intro t ht
  have hnested : Nested t := hlaid.2 t ht
  obtain ⟨hstart, -, hstop⟩ := hlaid.1.of_mem (mem_map_of_mem ht)
  exact ⟨hnested, Position.line_le_of_le hstart,
    le_trans hnested.endLine_le (Position.line_le_of_le (le_trans hstop hm))⟩

/-- The tree itself ends where its last part does. -/
theorem endLine_of_parse? (hd : Filled d isAside isAsideKind known)
    (hin : InOrder .origin (input.map Lexeme.extent) z)
    (h : d.parse? isAside r k input = some tree) :
    tree.endLine ≤ z.line := by
  obtain ⟨m, hlaid, hm⟩ := laid_of_parse? hd hin h
  have hpart : ∀ t ∈ tree.parts, t.extent.start.line ≤ z.line ∧ t.extent.stop.line ≤ z.line := by
    intro t ht
    obtain ⟨-, hlt, hstop⟩ := hlaid.1.of_mem (mem_map_of_mem ht)
    have hstop : t.extent.stop ≤ z := le_trans hstop hm
    exact ⟨Position.line_le_of_le (le_trans (le_of_lt hlt) hstop), Position.line_le_of_le hstop⟩
  have hextent : tree.extent.start.line ≤ z.line ∧ tree.extent.stop.line ≤ z.line := by
    rw [extent_of_parse? h, extentOf]
    split
    · next first last hfirst hlast =>
      exact ⟨(hpart first (mem_of_head? hfirst)).1,
        (hpart last (mem_of_getLast? hlast)).2⟩
    · have hz := Position.line_le_of_le hin.le
      exact ⟨hz, hz⟩
  rw [endLine, startLine]
  split <;> omega

end CodeAtlas.Grammar
