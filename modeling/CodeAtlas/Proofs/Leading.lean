import Mathlib.Data.List.Chain
import Mathlib.Data.List.Induction
import Mathlib.Data.List.Pairwise
import CodeAtlas.Proofs.Go.Placement
import CodeAtlas.Proofs.Grammar.Formed
import CodeAtlas.Proofs.Php.Placement

/-!
# The comments above a node

The comments that document a node stand directly above it, one line below the other
(`Stacked`). A comment behind other text of its line belongs to that text, and should document
nothing. But only the nodes around a comment are looked at: a comment that stands behind a sign, or
behind another comment that stands behind a node, is taken for documentation (`Overlooked`), and
these are all that are.

* `Holds.inside_or_apart`: a leaf of a tree is inside of a node, or before it, or behind it;
* `mem_commentsAbove`: what stands before a comment that documents;
* `behindText_iff_overlooked`: which comments document that stand behind other text;
* `leading_comments_stand`: the documentation in files of both languages.
-/

namespace CodeAtlas.Grammar

open List Bool Nat

variable {κ : Type} {isComment isAside : ParseTree κ → Bool} {t p c parent l file a : ParseTree κ}

/-! ## Trees in trees -/

theorem Holds.nested (h : Holds t p) (ht : Nested t) :
    Nested p ∧ t.extent.start ≤ p.extent.start ∧ p.extent.stop ≤ t.extent.stop := by
  induction h with
  | refl => exact ⟨ht, le_refl _, le_refl _⟩
  | tail _ hb ih =>
    obtain ⟨hnested, hstart, hstop⟩ := ih.1.of_mem hb
    exact ⟨hnested, le_trans ih.2.1 hstart, le_trans hstop ih.2.2⟩

theorem InOrder.pairwise {p q : Position} {es : List Extent} (h : InOrder p es q) :
    es.Pairwise fun e f => e.stop ≤ f.start := by
  induction es generalizing p with
  | nil => exact .nil
  | cons e es ih => exact .cons (fun f hf => (h.2.2.of_mem hf).1) (ih h.2.2)

/-- The parts of the tree follow each other. -/
def Ordered (t : ParseTree κ) : Prop :=
  ∃ p q, Laid p t.parts q

theorem Nested.ordered (h : Nested t) : Ordered t := by
  cases h with
  | sign _ => exact ⟨_, _, laid_nil (p := .origin)⟩
  | node _ horder hparts => exact ⟨_, _, horder, hparts⟩

theorem Ordered.nested_of_mem (h : Ordered t) (hp : p ∈ t.parts) : Nested p := by
  obtain ⟨_, _, hlaid⟩ := h
  exact hlaid.2 p hp

theorem Ordered.of_holds (h : Ordered t) (hp : Holds t p) : Ordered p := by
  induction hp with
  | refl => exact h
  | tail _ hb ih => exact (ih.nested_of_mem hb).ordered

/-- Of two parts, one is before the other. -/
theorem Ordered.apart (h : Ordered t) {b : ParseTree κ} (ha : a ∈ t.parts) (hb : b ∈ t.parts) :
    a = b ∨ a.extent.stop ≤ b.extent.start ∨ b.extent.stop ≤ a.extent.start := by
  obtain ⟨_, _, hlaid⟩ := h
  have hpairs := (pairwise_map.1 hlaid.1.pairwise).imp (S := fun a b : ParseTree κ =>
    a = b ∨ a.extent.stop ≤ b.extent.start ∨ b.extent.stop ≤ a.extent.start)
    fun h => .inr (.inl h)
  have hsymm : Std.Symm fun a b : ParseTree κ =>
      a = b ∨ a.extent.stop ≤ b.extent.start ∨ b.extent.stop ≤ a.extent.start :=
    ⟨fun a b h => h.imp Eq.symm Or.symm⟩
  exact hpairs.forall_of_forall (fun _ _ => .inl rfl) ha hb

variable {pre post : List (ParseTree κ)} {s : Sited κ}

theorem Ordered.around (h : Ordered t) (hsplit : t.parts = pre ++ c :: post) :
    (∀ a ∈ pre, a.extent.stop ≤ c.extent.start) ∧ ∀ a ∈ post, c.extent.stop ≤ a.extent.start := by
  obtain ⟨_, _, hlaid⟩ := h
  have hpairs := pairwise_map.1 hlaid.1.pairwise
  rw [hsplit, pairwise_append, pairwise_cons] at hpairs
  exact ⟨fun a ha => hpairs.2.2 a ha c mem_cons_self, hpairs.2.1.1⟩

/-- A leaf of a tree is inside of a node, before it, or behind it. -/
theorem Holds.inside_or_apart (hp : Holds t p) (ht : Ordered t) (hl : Holds t l)
    (hleaf : l.parts = []) :
    Holds p l ∨ l.extent.stop ≤ p.extent.start ∨ p.extent.stop ≤ l.extent.start := by
  induction hp using Relation.ReflTransGen.head_induction_on with
  | refl => exact .inl hl
  | head hb hp ih =>
    rcases hl.cases_head with rfl | ⟨a, ha, hl⟩
    · rw [hleaf] at hb
      cases hb
    · obtain ⟨-, hstart, hstop⟩ := Holds.nested hp (ht.nested_of_mem hb)
      obtain ⟨-, hstart', hstop'⟩ := Holds.nested hl (ht.nested_of_mem ha)
      rcases ht.apart ha hb with rfl | hbefore | hbehind
      · exact ih (ht.nested_of_mem ha).ordered hl
      · exact .inr (.inl (le_trans hstop' (le_trans hbefore hstart)))
      · exact .inr (.inr (le_trans hstop (le_trans hbehind hstart')))

theorem Formed.of_holds (h : Formed isAside t) (hp : Holds t p) : Formed isAside p := by
  induction hp with
  | refl => exact h
  | tail _ hb ih => exact (ih.of_mem hb).1

theorem formed_of_holds (hfile : ∀ t ∈ file.parts, Formed isAside t) (hparent : Holds file parent) :
    ∀ t ∈ parent.parts, Formed isAside t := by
  rcases hparent.cases_head with rfl | ⟨b, hb, hparent⟩
  · exact hfile
  · exact fun t ht => (((hfile b hb).of_holds hparent).of_mem ht).1

/-! ## Comments that document -/

/-- The comments that document a node are siblings right before it, and each of them ends on the
    line before the next one or the node starts. -/
structure Stacked (isComment : ParseTree κ → Bool) (parent : ParseTree κ) (s : Sited κ) : Prop where
  comments : ∀ c ∈ leadingComments isComment s, isComment c = true
  adjacent : leadingComments isComment s ++ [s.tree] <:+: parent.nodes
  lines : (leadingComments isComment s ++ [s.tree]).IsChain fun a b => a.endLine + 1 = b.startLine

/-- What stands before a comment that documents: no node that ends on its first line, but for
    comments. -/
theorem mem_commentsAbove {line : Nat} {before : List (ParseTree κ)}
    (hc : c ∈ commentsAbove isComment line before) :
    isComment c ∧ ∃ newer older, before = newer ++ c :: older ∧
      ∀ b, older.head? = some b → isComment b = false → b.endLine ≠ c.startLine := by
  fun_induction commentsAbove isComment line before with
  | case1 => cases hc
  | case2 _ t before trailing hcounts ih =>
    rcases mem_cons.1 hc with rfl | hc
    · simp only [and_eq_true] at hcounts
      refine ⟨hcounts.1.1, [], before, rfl, fun b hb hnode hline => ?_⟩
      obtain ⟨older, rfl⟩ := head?_eq_some_iff.1 hb
      simp [trailing, hnode, hline] at hcounts
    · obtain ⟨hcomment, newer, older, rfl, holder⟩ := ih hc
      exact ⟨hcomment, t :: newer, older, rfl, holder⟩
  | case3 => cases hc

theorem isChain_commentsAbove (line : Nat) (before : List (ParseTree κ)) :
    ∀ t : ParseTree κ, t.startLine = line → (t :: commentsAbove isComment line before).IsChain
      fun a b => b.endLine + 1 = a.startLine := by
  fun_induction commentsAbove isComment line before with
  | case1 => exact fun t _ => .singleton t
  | case2 _ u _ _ hcounts ih =>
    intro t ht
    simp only [and_eq_true, beq_iff_eq] at hcounts
    exact .cons_cons (hcounts.2.trans ht.symm) (ih u rfl)
  | case3 => exact fun t _ => .singleton t

theorem stacked_of_mem_partsOf (hs : s ∈ Sited.partsOf p) :
    Stacked isComment p s where
  comments c hc := (mem_commentsAbove (mem_reverse.1 hc)).1
  adjacent := by
    obtain ⟨rest, hnodes⟩ := Sited.nodes_eq_of_mem_partsOf hs
    obtain ⟨far, hbefore⟩ := commentsAbove_isPrefix isComment s.tree.startLine s.before
    refine ⟨far.reverse, rest, ?_⟩
    rw [hnodes, ← hbefore, leadingComments]
    simp
  lines := by
    rw [leadingComments, ← reverse_cons, isChain_reverse]
    exact isChain_commentsAbove _ _ _ rfl

/-- A comment that documents among all parts: the last node before it does not end on its first
    line, unless it is a comment. -/
theorem exists_parts_of_mem_leadingComments (hs : s ∈ Sited.partsOf parent)
    (hc : c ∈ leadingComments isComment s) :
    isComment c ∧ ∃ pre post, parent.parts = pre ++ c :: post ∧
      ∀ b, (pre.filter ParseTree.isNode).getLast? = some b → isComment b = false →
        b.endLine ≠ c.startLine := by
  obtain ⟨hcomment, newer, older, hbefore, holder⟩ := mem_commentsAbove (mem_reverse.1 hc)
  obtain ⟨rest, hnodes⟩ := Sited.nodes_eq_of_mem_partsOf hs
  have hnodes : parent.parts.filter ParseTree.isNode =
      older.reverse ++ c :: (newer.reverse ++ s.tree :: rest) := by
    rw [← ParseTree.nodes, hnodes, hbefore]
    simp
  obtain ⟨front, back, hparts, hfront, hback⟩ := filter_eq_append_iff.1 hnodes
  obtain ⟨signs, post, rfl, hsigns, -⟩ := filter_eq_cons_iff.1 hback
  have hpre : (front ++ signs).filter ParseTree.isNode = older.reverse := by
    rw [filter_append, hfront, filter_eq_nil_iff.2 hsigns, append_nil]
  refine ⟨hcomment, front ++ signs, post, by rw [hparts, append_assoc], fun b hb => ?_⟩
  rw [hpre, getLast?_reverse] at hb
  exact holder b hb

/-! ## Comments behind other text -/

/-- A leaf that is no comment. -/
def IsText (isComment : ParseTree κ → Bool) (l : ParseTree κ) : Prop :=
  l.parts = [] ∧ isComment l = false

/-- Other text of the file ends before the comment, on the line on which the comment starts. -/
def BehindText (isComment : ParseTree κ → Bool) (file c : ParseTree κ) : Prop :=
  ∃ l, Holds file l ∧ IsText isComment l ∧ l.extent.stop ≤ c.extent.start ∧
    l.endLine = c.startLine

/-- On the line on which the comment starts, there is text before it in the last part of the parent
    that is no comment, and this part is a sign, or other comments stand between. -/
def Overlooked (isComment : ParseTree κ → Bool) (parent c : ParseTree κ) : Prop :=
  ∃ before u between behind, parent.parts = before ++ u :: between ++ c :: behind ∧
    isComment u = false ∧ (∀ b ∈ between, isComment b = true) ∧ (u.isNode = true → between ≠ []) ∧
    ∃ l, Holds u l ∧ IsText isComment l ∧ l.endLine = c.startLine

/-- Of several trees of which one is no comment, there is a last one that is none. -/
theorem exists_last {ts : List (ParseTree κ)} (ha : a ∈ ts) (hnot : isComment a = false) :
    ∃ before u between, ts = before ++ u :: between ∧ (a ∈ before ∨ a = u) ∧
      isComment u = false ∧ ∀ b ∈ between, isComment b := by
  induction ts using List.reverseRecOn with
  | nil => cases ha
  | append_singleton ts t ih =>
    rcases mem_append.1 ha with ha | ha
    · cases ht : isComment t with
      | false => exact ⟨ts, t, [], rfl, .inl ha, ht, fun _ h => absurd h not_mem_nil⟩
      | true =>
        obtain ⟨before, u, between, rfl, hau, hu, hbetween⟩ := ih ha
        refine ⟨before, u, between ++ [t], by simp, hau, hu, ?_⟩
        exact forall_mem_append.2 ⟨hbetween, forall_mem_singleton.2 ht⟩
    · cases mem_singleton.1 ha
      exact ⟨ts, a, [], rfl, .inr rfl, hnot, fun _ h => absurd h not_mem_nil⟩

/-- A tree that starts on a line and stops before a place of the line ends on it. -/
theorem Nested.endLine_eq (h : Nested l) (hstart : c.startLine ≤ l.startLine)
    (hstop : l.extent.stop ≤ c.extent.start) : l.endLine = c.startLine := by
  have hle := Position.line_le_of_le hstop
  have hend := h.endLine_le
  have hlines : l.startLine ≤ l.endLine := l.startLine_le_endLine
  have hline : c.startLine = c.extent.start.line := rfl
  omega

section behind

variable (hcomment : ∀ t, isComment t = true → isAside t = true)

include hcomment

theorem isComment_eq_false (h : isAside t = false) : isComment t = false := by
  refine eq_false_iff.2 fun hc => ?_
  rw [hcomment t hc] at h
  cases h

/-- What is no comment starts with text. -/
theorem Formed.exists_text (h : Formed isAside t) (ht : isComment t = false) :
    ∃ l, Holds t l ∧ IsText isComment l := by
  induction h with
  | sign => exact ⟨_, .refl, rfl, ht⟩
  | leaf => exact ⟨_, .refl, rfl, ht⟩
  | @node _ _ _ t _ _ hfirst _ ih =>
    obtain ⟨l, hl, htext⟩ := ih t mem_cons_self (isComment_eq_false hcomment hfirst)
    exact ⟨l, .head mem_cons_self hl, htext⟩

/-- There is no text in comments. -/
theorem Formed.isComment_of_text (h : Formed isAside t) (hl : Holds t l)
    (htext : IsText isComment l) : isComment t = false := by
  rcases hl.cases_head with rfl | ⟨a, ha, _⟩
  · exact htext.2
  · exact isComment_eq_false hcomment (h.of_mem ha).2

omit hcomment in
/-- Text of a node that ends before a part of it is in a part before that. -/
theorem exists_mem_of_holds (hparent : Ordered parent) (hsplit : parent.parts = pre ++ c :: post)
    (hl : Holds parent l) (hleaf : l.parts = []) (hstop : l.extent.stop ≤ c.extent.start) :
    ∃ a ∈ pre, Holds a l := by
  rcases hl.cases_head with rfl | ⟨a, ha, hl⟩
  · simp [hleaf] at hsplit
  · obtain ⟨hnested, hstart, -⟩ := Holds.nested hl (hparent.nested_of_mem ha)
    -- The text starts before the part, so that it is not in it, nor behind it.
    have hlt : a.extent.start < c.extent.start :=
      lt_of_le_of_lt hstart (lt_of_lt_of_le hnested.start_lt hstop)
    rw [hsplit, mem_append, mem_cons] at ha
    rcases ha with ha | rfl | ha
    · exact ⟨a, ha, hl⟩
    · exact absurd hlt (lt_irrefl _)
    · have hc := hparent.nested_of_mem (hsplit ▸ mem_append_right _ mem_cons_self)
      have hbehind := lt_of_lt_of_le hc.start_lt ((hparent.around hsplit).2 a ha)
      exact absurd (lt_trans hlt hbehind) (lt_irrefl _)

/-- If text ends before a comment on its first line, then there is a part before the comment that is
    none itself, and has the text in it or starts on that line. -/
theorem exists_before_of_text (hfile : Ordered file) (hformed : ∀ t ∈ file.parts, Formed isAside t)
    (hparent : Holds file parent) (hsplit : parent.parts = pre ++ c :: post) (hc : isComment c)
    (hl : Holds file l) (htext : IsText isComment l) (hstop : l.extent.stop ≤ c.extent.start)
    (hline : l.endLine = c.startLine) :
    ∃ a ∈ pre, isComment a = false ∧ (Holds a l ∨ c.startLine ≤ a.startLine) := by
  have hordered := hfile.of_holds hparent
  have hinside : Holds parent l →
      ∃ a ∈ pre, isComment a = false ∧ (Holds a l ∨ c.startLine ≤ a.startLine) := by
    intro hl
    obtain ⟨a, ha, hl⟩ := exists_mem_of_holds hordered hsplit hl htext.1 hstop
    have hform := formed_of_holds hformed hparent a (hsplit ▸ mem_append_left _ ha)
    exact ⟨a, ha, hform.isComment_of_text hcomment hl htext, .inl hl⟩
  rcases hparent.cases_head with rfl | ⟨b, hb, hparent'⟩
  · exact hinside hl
  have hnested := (Holds.nested hparent' (hfile.nested_of_mem hb)).1
  have hform := (hformed b hb).of_holds hparent'
  have hlnested : Nested l := by
    rcases hl.cases_head with rfl | ⟨a, ha, hl⟩
    · rw [htext.1] at hb
      cases hb
    · exact (Holds.nested hl (hfile.nested_of_mem ha)).1
  rcases hparent.inside_or_apart hfile hl htext.1 with hl | hbefore | hbehind
  · exact hinside hl
  · -- A node starts with no comment, so that its first part is before this one.
    have hsolid : ∀ a, parent.parts.head? = some a → isComment a = false := fun a ha =>
      isComment_eq_false hcomment (hform.head ha)
    cases pre with
    | nil =>
      rw [hsolid c (by rw [hsplit]; rfl)] at hc
      cases hc
    | cons a pre =>
      have hstart := (hnested.of_mem (p := a) (by simp [hsplit])).2.1
      have hlines := Position.line_le_of_le (le_trans hbefore hstart)
      refine ⟨a, mem_cons_self, hsolid a (by rw [hsplit]; rfl), .inr ?_⟩
      exact hline ▸ le_trans hlnested.endLine_le hlines
  · -- The comment would end before it starts.
    have hcnested := hnested.of_mem (p := c) (by simp [hsplit])
    have hlt := lt_of_lt_of_le hcnested.1.start_lt (le_trans hcnested.2.2 hbehind)
    exact absurd (lt_of_lt_of_le (lt_trans hlt hlnested.start_lt) hstop) (lt_irrefl _)

/-- What starts on the line of a comment before it has text that ends there. -/
theorem Formed.exists_text_on_line {u : ParseTree κ} (h : Formed isAside u) (hnested : Nested u)
    (hu : isComment u = false) (hstop : u.extent.stop ≤ c.extent.start)
    (hline : c.startLine ≤ u.startLine) :
    ∃ l, Holds u l ∧ IsText isComment l ∧ l.endLine = c.startLine := by
  obtain ⟨l, hl, htext⟩ := h.exists_text hcomment hu
  obtain ⟨hnested, hstart, hstop'⟩ := Holds.nested hl hnested
  exact ⟨l, hl, htext, hnested.endLine_eq (le_trans hline (Position.line_le_of_le hstart))
    (le_trans hstop' hstop)⟩

/-- The comments that document although they stand behind other text: those before which only
    comments stand up to a sign, or one comment at least up to a node. -/
theorem behindText_iff_overlooked (hfile : Ordered file)
    (hformed : ∀ t ∈ file.parts, Formed isAside t) (hparent : Holds file parent)
    (hs : s ∈ Sited.partsOf parent) (hc : c ∈ leadingComments isComment s) :
    BehindText isComment file c ↔ Overlooked isComment parent c := by
  have hordered := hfile.of_holds hparent
  constructor
  · rintro ⟨l, hl, htext, hstop, hline⟩
    obtain ⟨hc, pre, post, hsplit, hlast⟩ := exists_parts_of_mem_leadingComments hs hc
    obtain ⟨a, ha, hnot, hacase⟩ :=
      exists_before_of_text hcomment hfile hformed hparent hsplit hc hl htext hstop hline
    obtain ⟨before, u, between, rfl, hau, hu, hbetween⟩ := exists_last ha hnot
    have humem : u ∈ parent.parts := by simp [hsplit]
    have hunested := hordered.nested_of_mem humem
    have hustop := (hordered.around hsplit).1 u (by simp)
    have htext : ∃ l, Holds u l ∧ IsText isComment l ∧ l.endLine = c.startLine := by
      have hstarts : c.startLine ≤ u.startLine → _ :=
        (formed_of_holds hformed hparent u humem).exists_text_on_line hcomment hunested hu hustop
      rcases hau with ha | rfl
      · have hanested := hordered.nested_of_mem (p := a) (by simp [hsplit, ha])
        have hapart : a.extent.stop ≤ u.extent.start :=
          (hordered.around (hsplit.trans (append_assoc ..))).1 a ha
        have hle : c.startLine ≤ a.extent.stop.line := by
          rcases hacase with hl | hstart
          · obtain ⟨hlnested, -, hlstop⟩ := Holds.nested hl hanested
            exact hline ▸ le_trans hlnested.endLine_le (Position.line_le_of_le hlstop)
          · exact le_trans hstart (Position.line_le_of_le (le_of_lt hanested.start_lt))
        exact hstarts (le_trans hle (Position.line_le_of_le hapart))
      · exact hacase.elim (fun hl => ⟨l, hl, htext, hline⟩) hstarts
    refine ⟨before, u, between, post, hsplit, hu, hbetween, fun hnode hnil => ?_, htext⟩
    -- A node right before the comment that ends on its first line would have been seen.
    obtain ⟨l', hl', -, hline'⟩ := htext
    subst hnil
    have hend : u.endLine = c.startLine := by
      obtain ⟨hnested', hstart', hstop'⟩ := Holds.nested hl' hunested
      have hle := endLine_le hnested'.start_lt hstart' hstop'
      have hle' := le_trans hunested.endLine_le (Position.line_le_of_le hustop)
      exact le_antisymm hle' (hline' ▸ hle)
    exact hlast u (by simp [hnode]) hu hend
  · rintro ⟨before, u, between, behind, hsplit, -, -, -, l, hl, htext, hline⟩
    have hu : u ∈ parent.parts := by simp [hsplit]
    have hstop := (Holds.nested hl (hordered.nested_of_mem hu)).2.2
    have hbefore := (hordered.around hsplit).1 u (by simp)
    exact ⟨l, hparent.trans (.head hu hl), htext, le_trans hstop hbefore, hline⟩

end behind

end CodeAtlas.Grammar

namespace CodeAtlas

open Grammar

/-! ## Both languages -/

/-- No node of Go starts with a comment. -/
theorem Go.closed_dialect : Closed Go.dialect Go.isComment (· == .comment) Go.readsSome where
  toFilled := Go.filled
  ends r h := by
    have htest := @Go.of_allRules
      (fun r => !Go.readsSome r || endsSolid (· == .comment) Go.readsSome (Go.rules r)) rfl r
    rw [h] at htest
    exact htest
  grows := Go.of_allRules rfl

/-- No node of PHP starts with a comment, or with a break in the code. -/
theorem Php.closed_dialect :
    Closed Php.dialect Php.isAside Php.isAsideKind Php.readsSome where
  toFilled := Php.filled
  ends r h := by cases r <;> first | rfl | cases h
  grows r := by cases r <;> rfl

/-- In a file, the comments that document a node are stacked above it. One of them stands behind
    other text of its line exactly if that is a sign, or a node with other comments between. -/
def LedByComments {κ : Type} (isComment : ParseTree κ → Bool) (file : ParseTree κ) : Prop :=
  ∀ parent, Holds file parent → ∀ s ∈ Sited.partsOf parent, Stacked isComment parent s ∧
    ∀ c ∈ leadingComments isComment s,
      BehindText isComment file c ↔ Overlooked isComment parent c

theorem ledByComments_of_parse? {κ φ ρ : Type} [DecidableEq κ] [DecidableEq φ]
    {isComment isAside : ParseTree κ → Bool} {isAsideKind : κ → Bool} {known : ρ → Bool}
    {d : Dialect κ φ ρ} (hd : Closed d isAside isAsideKind known)
    (hcomment : ∀ t, isComment t → isAside t) {input : List (Lexeme κ φ)}
    {z : Position} (hin : InOrder .origin (input.map Lexeme.extent) z) {r : ρ} {k : κ}
    {file : ParseTree κ} (h : d.parse? isAside r k input = some file) :
    LedByComments isComment file := by
  obtain ⟨m, hlaid, -⟩ := laid_of_parse? hd.toFilled hin h
  intro parent hparent s hs
  exact ⟨stacked_of_mem_partsOf hs, fun c hc => behindText_iff_overlooked hcomment ⟨_, _, hlaid⟩
    (formed_of_parse? hd h) hparent hs hc⟩

/-- What documents the nodes in the files of both languages. -/
theorem leading_comments_stand (source : Source) :
    (∀ file, Go.parse? source = some file → LedByComments Go.isComment file) ∧
    ∀ file, Php.parse? source = some file → LedByComments Php.isComment file := by
  constructor
  · intro file h
    have hin : ∃ z, InOrder .origin ((Go.lexemes Go.Kind.comment source).map Lexeme.extent) z ∧
        z.line ≤ source.length + 1 := inOrder_lexemes ..
    obtain ⟨z, hz, -⟩ := hin
    exact ledByComments_of_parse? Go.closed_dialect (fun _ => id) hz h
  · intro file h
    obtain ⟨z, hz, -⟩ := Php.inOrder_lexemes source
    refine ledByComments_of_parse? Php.closed_dialect (fun t ht => ?_) hz h
    rw [Php.isAside, ht, Bool.true_or]

/-- Files of both languages, with comments above and behind their constants. -/
def chimes : Source × Source :=
  (Source.ofBytes (bytesOf "package p\n\n// One.\nconst A = 1 // a\n// Two.\nconst B = 2\n"),
    Source.ofBytes (bytesOf "<?php\n// One.\nconst A = 1; // a\n// Two.\nconst B = 2;\n"))

theorem leading_comments_stand_chimes :
    (∃ file, Go.parse? chimes.1 = some file ∧ LedByComments Go.isComment file) ∧
    ∃ file, Php.parse? chimes.2 = some file ∧ LedByComments Php.isComment file := by
  have hgo : (Go.parse? chimes.1).isSome = true := by decide +kernel
  have hphp : (Php.parse? chimes.2).isSome = true := by decide +kernel
  obtain ⟨goFile, hgo⟩ := Option.isSome_iff_exists.1 hgo
  obtain ⟨phpFile, hphp⟩ := Option.isSome_iff_exists.1 hphp
  exact ⟨⟨goFile, hgo, (leading_comments_stand chimes.1).1 goFile hgo⟩,
    phpFile, hphp, (leading_comments_stand chimes.2).2 phpFile hphp⟩

/-- A comment behind a constant, with another comment between, documents the next constant. -/
theorem trailing_comment_documents :
    (Go.outline? "p"
      [("p/a.go", bytesOf "package p\n\nconst (\n\tA = 1 /* a */ // b\n\tB = 2\n)\n")] false).map
        (fun o => o.constants.map fun b => (b.name, b.doc)) = some [("A", ""), ("B", "b")] := by
  decide +kernel

end CodeAtlas
