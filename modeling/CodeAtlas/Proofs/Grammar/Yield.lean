import Mathlib.Logic.Relation
import CodeAtlas.Proofs.Grammar.Run

/-!
# What trees grammars yield

Much of what is known of trees can be told from the grammar, without following a derivation. What
trees a grammar yields, that is, of which kind, with which role and of which lexemes, is told by a
test on the grammar (`onlyBy`), where rules are followed one into another up to some depth
(`knows`). That one of them has a role is told by another test (`bears`).

A node is made by a grammar that groups what it reads, or it is a single lexeme, or a step that
takes on what was read before. So what holds of the parts of nodes of some kinds, as the grammars
that group them read them (`nodesIn`), holds of all such nodes in the tree of a text, as long as
these kinds are not made otherwise (`apart`).

* `kept_roleless`: asides have no role;
* `Derives.looks`: what trees look like, by induction on the derivation;
* `Derives.everywhere`: nodes anywhere in what is read;
* `parts_of_parse?`: nodes in the tree of a whole text.
-/

namespace CodeAtlas.Grammar

open List Bool

variable {κ φ ρ : Type} {t : ParseTree κ} {r : Role} {s : Sited κ}

namespace ParseTree

@[simp] theorem kind?_withRole (r : Role) (t : ParseTree κ) : (t.withRole r).kind? = t.kind? := by
  rcases t with ⟨_, _ | _, _⟩ | ⟨_, _ | _, _, _⟩ <;> rfl

@[simp] theorem extent_withRole (r : Role) (t : ParseTree κ) :
    (t.withRole r).extent = t.extent := by
  rcases t with ⟨_, _ | _, _⟩ | ⟨_, _ | _, _, _⟩ <;> rfl

@[simp] theorem parts_withRole (r : Role) (t : ParseTree κ) : (t.withRole r).parts = t.parts := by
  rcases t with ⟨_, _ | _, _⟩ | ⟨_, _ | _, _, _⟩ <;> rfl

theorem isKind_iff [DecidableEq κ] {k : κ} : t.isKind k ↔ t.kind? = some k := by
  cases t <;> simp [isKind, kind?, eq_comm]

@[simp] theorem isKind_withRole [DecidableEq κ] (k : κ) (r : Role) (t : ParseTree κ) :
    (t.withRole r).isKind k = t.isKind k := by
  rw [Bool.eq_iff_iff, isKind_iff, isKind_iff, kind?_withRole]

theorem role_withRole (h : t.role = none) : (t.withRole r).role = some r := by
  rcases t with ⟨_, _ | _, _⟩ | ⟨_, _ | _, _, _⟩ <;> first | rfl | cases h

theorem mem_of_part? {p : ParseTree κ} (h : t.part? r = some p) :
    p ∈ t.parts ∧ p.role = some r := by
  have hrole := find?_some h
  exact ⟨mem_of_find?_eq_some h, by simpa using hrole⟩

end ParseTree

namespace Sited

theorem map_tree_listFrom (before ts : List (ParseTree κ)) :
    (listFrom before ts).map Sited.tree = ts := by
  induction ts generalizing before with
  | nil => rfl
  | cons t ts ih => rw [listFrom, map_cons, ih]

/-- The nodes among the parts of a tree, as they are. -/
theorem map_tree_partsOf (t : ParseTree κ) : (partsOf t).map Sited.tree = t.nodes :=
  map_tree_listFrom [] t.nodes

theorem tree_mem_parts (hs : s ∈ partsOf t) : s.tree ∈ t.parts := by
  have hnode : s.tree ∈ t.nodes := map_tree_partsOf t ▸ mem_map_of_mem hs
  exact (mem_filter.1 hnode).1

theorem eq_of_mem_listFrom {before ts : List (ParseTree κ)} (hs : s ∈ listFrom before ts) :
    ∃ pre rest, ts = pre ++ s.tree :: rest ∧ s.before = pre.reverse ++ before := by
  induction ts generalizing before with
  | nil => cases hs
  | cons t ts ih =>
    rcases mem_cons.1 hs with rfl | hs
    · exact ⟨[], ts, rfl, rfl⟩
    · obtain ⟨pre, rest, rfl, hbefore⟩ := ih hs
      exact ⟨t :: pre, rest, rfl, by simp [hbefore]⟩

/-- A node stands behind its siblings. -/
theorem nodes_eq_of_mem_partsOf (hs : s ∈ partsOf t) :
    ∃ rest, t.nodes = s.before.reverse ++ s.tree :: rest := by
  obtain ⟨pre, rest, hnodes, hbefore⟩ := eq_of_mem_listFrom hs
  exact ⟨rest, by rw [hnodes, hbefore, append_nil, reverse_reverse]⟩

/-- The siblings of a part are parts, too. -/
theorem before_subset_parts (hs : s ∈ partsOf t) : s.before ⊆ t.parts := by
  obtain ⟨rest, hnodes⟩ := nodes_eq_of_mem_partsOf hs
  intro c hc
  have hnode : c ∈ t.nodes := hnodes ▸ mem_append_left _ (mem_reverse.2 hc)
  exact (mem_filter.1 hnode).1

end Sited

theorem commentsAbove_isPrefix (isComment : ParseTree κ → Bool) (line : Nat)
    (before : List (ParseTree κ)) : commentsAbove isComment line before <+: before := by
  fun_induction commentsAbove isComment line before with
  | case1 => exact nil_prefix
  | case2 _ t before _ _ ih => exact (prefix_cons_inj t).2 ih
  | case3 => exact nil_prefix

variable {d : Dialect κ φ ρ} {isAside : ParseTree κ → Bool} {K : Lexeme κ φ → Prop} {q : κ → Bool}
  {input rest : List (Lexeme κ φ)} {ts us : List (ParseTree κ)}

/-! ## Asides -/

/-- What is known of lexemes with the property `K`: the kinds of asides among them, by which
    trees are told to be asides. -/
structure Lexed (isAside : ParseTree κ → Bool) (K : Lexeme κ φ → Prop) (q : κ → Bool) : Prop where
  isAside_eq : ∀ t, isAside t = t.kind?.any q
  aside : ∀ l k, K l → l.form = .aside k → q k = true

theorem Lexed.of_fromAside (hA : Lexed isAside K q) (hK : ∀ l ∈ input, K l)
    (ht : FromAside input t) : isAside t := by
  obtain ⟨l, hl, k, hk, rfl⟩ := ht
  rw [hA.isAside_eq]
  exact hA.aside l k (hK l hl) hk

/-- No aside has a role. -/
def AsidesRoleless (isAside : ParseTree κ → Bool) (ts : List (ParseTree κ)) : Prop :=
  ∀ t ∈ ts, isAside t = true → t.role = none

theorem isAside_withRole (hA : Lexed isAside K q) (r : Role) (t : ParseTree κ) :
    isAside (t.withRole r) = isAside t := by
  rw [hA.isAside_eq, ParseTree.kind?_withRole, ← hA.isAside_eq]

/-- Whatever is put together of lexemes, no aside gets a role. -/
theorem kept_roleless (hA : Lexed isAside K q) :
    Kept isAside K fun t => isAside t → t.role = none where
  sign _ _ _ := rfl
  leaf _ _ _ _ := rfl
  node _ _ _ _ := rfl
  role r t haside _ h := by
    rw [isAside_withRole hA, haside] at h
    cases h
  graft t k r e us ps _ _ hnode h := by
    rw [hA.isAside_eq] at hnode h
    exact hnode h

/-- What is made into a node, and what stays outside of it. -/
theorem enclose_eq' (isAside : ParseTree κ → Bool) (k : κ) (ts : List (ParseTree κ)) :
    enclose isAside k ts = ts.takeWhile isAside ++
      [.node k none (extentOf .origin (ts.dropWhile isAside)) (ts.dropWhile isAside)] := by
  rw [enclose, splitAsides, span_eq_takeWhile_dropWhile]

/-! ## Nodes in trees -/

/-- The tree `p` is `t`, or a part of it, or a part of a part. -/
def Holds (t p : ParseTree κ) : Prop :=
  Relation.ReflTransGen (fun a b => b ∈ a.parts) t p

/-- A property of the tree and of all trees in it. -/
def Everywhere (R : ParseTree κ → Prop) (t : ParseTree κ) : Prop :=
  ∀ u, Holds t u → R u

theorem everywhere_iff {R : ParseTree κ → Prop} :
    Everywhere R t ↔ R t ∧ ∀ p ∈ t.parts, Everywhere R p := by
  constructor
  · exact fun h => ⟨h t .refl, fun p hp u hu => h u (.head hp hu)⟩
  · rintro ⟨ht, hparts⟩ u hu
    rcases hu.cases_head with rfl | ⟨p, hp, hu⟩
    · exact ht
    · exact hparts p hp u hu

/-- If the tree is of one of some kinds, something holds of its parts. -/
def PartsAre (S : κ → Bool) (R : κ → List (ParseTree κ) → Prop) (t : ParseTree κ) : Prop :=
  ∀ k, t.kind? = some k → S k = true → R k t.parts

variable {S : κ → Bool} {R : κ → List (ParseTree κ) → Prop}

theorem partsAre_other (h : t.kind?.any S = false) : PartsAre S R t := by
  intro k hk hS
  rw [hk, Option.any_some, hS] at h
  cases h

theorem everywhere_leaf (ht : t.parts = []) (h : t.kind?.any S = false) :
    Everywhere (PartsAre S R) t :=
  everywhere_iff.2 ⟨partsAre_other h, by simp [ht]⟩

theorem everywhere_withRole (h : Everywhere (PartsAre S R) t) (r : Role) :
    Everywhere (PartsAre S R) (t.withRole r) := by
  rw [everywhere_iff, ParseTree.parts_withRole]
  refine ⟨fun k hk hS => ?_, (everywhere_iff.1 h).2⟩
  rw [ParseTree.parts_withRole]
  exact h t .refl k ((t.kind?_withRole r).symm.trans hk) hS

/-! ## What trees look like -/

/-- The sort of lexemes that a condition asks for. -/
def Terminal.sort : Terminal φ → φ
  | .exactly s _ => s
  | .any s _ => s

theorem Terminal.sort_of_accepts [DecidableEq φ] {t : Terminal φ} {sort : φ} {text : String}
    (h : t.accepts sort text) : sort = t.sort := by
  cases t <;> simp only [accepts, and_eq_true, decide_eq_true_eq] at h <;> exact h.1.symm

/-- How a tree looks: its kind, its role, and the sort of the lexeme that it is made of, if it is
    known to be made of a single one. -/
structure Look (κ φ : Type) where
  kind? : Option κ
  role : Option Role
  sort? : Option φ

/-- The tree looks so. -/
structure Looks (K : Lexeme κ φ → Prop) (s : Look κ φ) (t : ParseTree κ) : Prop where
  kind? : t.kind? = s.kind?
  role : t.role = s.role
  lexeme : ∀ sort ∈ s.sort?, ∃ l, K l ∧ l.form = .solid sort ∧ t.extent = l.extent

/-- The trees that the grammar yields look as `p` wants, asides apart, given what is known of the
    rules. -/
def onlyBy (rule : (Look κ φ → Bool) → ρ → Bool) (p : Look κ φ → Bool) : Grammar κ φ ρ → Bool
  | .sign t => p ⟨none, none, some t.sort⟩
  | .leaf t k => p ⟨some k, none, some t.sort⟩
  | .node k _ => p ⟨some k, none, none⟩
  | .rule r => rule p r
  | .seq a b | .alt a b => onlyBy rule p a && onlyBy rule p b
  | .grow _ a b => onlyBy rule p a && onlyBy rule (fun s => p s && p { s with sort? := none }) b
  | .role r a => onlyBy rule (fun s => p { s with role := s.role.or (some r) }) a
  | .many a | .ahead _ a | .notAhead _ a => onlyBy rule p a
  | .empty | .reject | .lineEnd | .finish | .aside _ | .behindGroup _ => true

/-- What is known of rules if they are followed, one into another, `n` times. -/
def knows (d : Dialect κ φ ρ) : Nat → (Look κ φ → Bool) → ρ → Bool
  | 0, _, _ => false
  | n + 1, p, r => onlyBy (knows d n) p (d.rules r)

theorem ParseTree.role_withRole_eq (r : Role) (t : ParseTree κ) :
    (t.withRole r).role = t.role.or (some r) := by
  rcases t with ⟨_, _ | _, _⟩ | ⟨_, _ | _, _, _⟩ <;> rfl

variable [DecidableEq φ] {a b g : Grammar κ φ ρ} {p : Look κ φ → Bool}

theorem looks_of_readSolid (hA : Lexed isAside K q) {t : Terminal φ}
    {make : Lexeme κ φ → ParseTree κ} (kind? : Option κ)
    (hmake : ∀ l, (make l).kind? = kind? ∧ (make l).role = none ∧ (make l).extent = l.extent)
    (hp : p ⟨kind?, none, some t.sort⟩) (hK : ∀ l ∈ input, K l)
    (hread : readSolid t make input = some (ts, rest)) :
    ∀ u ∈ ts, isAside u ∨ ∃ s, p s ∧ Looks K s u := by
  obtain ⟨_, asides, l, hl, sort, hform, haccepts, hasides, rfl⟩ := readSolid_eq_some hread
  obtain rfl := Terminal.sort_of_accepts haccepts
  obtain ⟨hkind, hrole, hextent⟩ := hmake l
  rw [forall_mem_append, forall_mem_singleton]
  refine ⟨fun u hu => .inl (hA.of_fromAside hK (hasides u hu)), .inr ⟨_, hp, hkind, hrole, ?_⟩⟩
  rintro _ ⟨⟩
  exact ⟨l, hK l hl, hform, hextent⟩

/-- What the test says of a grammar holds of the trees that it reads. -/
theorem Derives.looks (hA : Lexed isAside K q) (h : Derives d isAside g input ts rest)
    (hK : ∀ l ∈ input, K l) {n : Nat} (hg : onlyBy (knows d n) p g) :
    ∀ t ∈ ts, isAside t ∨ ∃ s, p s ∧ Looks K s t := by
  induction h generalizing n p with
  | empty | finish | aside | done | behindGroup => exact fun t ht => absurd ht not_mem_nil
  | sign hread => exact looks_of_readSolid hA none (fun _ => ⟨rfl, rfl, rfl⟩) hg hK hread
  | @leaf _ k _ _ _ hread =>
    exact looks_of_readSolid hA (some k) (fun _ => ⟨rfl, rfl, rfl⟩) hg hK hread
  | lineEnd hpass => exact fun t ht => .inl (hA.of_fromAside hK ((passAsides_eq_cons hpass).2 t ht))
  | rule _ ih =>
    cases n with
    | zero => cases hg
    | succ n => exact ih hK hg
  | seq ha _ iha ihb =>
    obtain ⟨hga, hgb⟩ := and_eq_true_iff.1 hg
    exact forall_mem_append.2 ⟨iha hK hga, ihb (ha.forall_rest hK) hgb⟩
  | left _ ih => exact ih hK (and_eq_true_iff.1 hg).1
  | right _ ih => exact ih hK (and_eq_true_iff.1 hg).2
  | again ha _ iha ihb =>
    exact forall_mem_append.2 ⟨iha hK hg, ihb (ha.forall_rest hK) hg⟩
  | @node k _ _ us _ _ _ =>
    rw [enclose_eq', forall_mem_append, forall_mem_singleton]
    refine ⟨fun t ht => .inl (mem_takeWhile_imp ht), .inr ⟨_, hg, rfl, rfl, ?_⟩⟩
    rintro _ ⟨⟩
  | first _ ih => exact ih hK (and_eq_true_iff.1 hg).1
  | @step _ _ _ _ us _ vs _ ha _ iha ihb =>
    have hus := iha hK hg
    have hvs := ihb (ha.forall_rest hK) (and_eq_true_iff.1 hg).2
    have hstep : ∀ t ∈ vs, isAside t ∨ ∃ s, p s ∧ Looks K s t := fun t ht =>
      (hvs t ht).imp_right fun ⟨s, hs, hlooks⟩ => ⟨s, (and_eq_true_iff.1 hs).1, hlooks⟩
    rcases graft_eq isAside us vs with heq | ⟨vs', t, asides, k, r, e, ps, ws, rfl, rfl, hnode, heq⟩
    · rw [heq]
      exact forall_mem_append.2 ⟨hus, hstep⟩
    · obtain ⟨hbefore, -⟩ := forall_mem_append.1 hus
      obtain ⟨-, hbehind⟩ := forall_mem_append.1 hstep
      rw [heq, forall_mem_append, forall_mem_cons]
      refine ⟨hbefore, .inr ?_, (forall_mem_cons.1 hbehind).2⟩
      -- What a step takes on changes neither its kind nor its role.
      obtain ⟨s, hs, hlooks⟩ := (hvs _ (mem_append_right _ mem_cons_self)).resolve_left
        (by rw [hnode]; exact false_ne_true)
      exact ⟨_, (and_eq_true_iff.1 hs).2, hlooks.kind?, hlooks.role, by rintro _ ⟨⟩⟩
  | role _ ih =>
    refine forall_mem_map.2 fun t ht => ?_
    rw [assignRole]
    split
    · next haside => exact .inl haside
    · next haside =>
      obtain ⟨s, hs, hlooks⟩ := (ih hK hg t ht).resolve_left haside
      refine .inr ⟨_, hs, (t.kind?_withRole _).trans hlooks.kind?, ?_, fun sort hsort => ?_⟩
      · rw [ParseTree.role_withRole_eq, hlooks.role]
      · rw [ParseTree.extent_withRole]
        exact hlooks.lexeme sort hsort
  | ahead _ ih | notAhead _ ih => exact ih hK hg

/-- What has a role is no aside. -/
theorem Derives.looks_of_role (hA : Lexed isAside K q) (h : Derives d isAside g input ts rest)
    (hK : ∀ l ∈ input, K l) {n : Nat} (hg : onlyBy (knows d n) p g) (ht : t ∈ ts)
    (hr : t.role = some r) : ∃ s, p s ∧ Looks K s t := by
  refine (h.looks hA hK hg t ht).resolve_left fun haside => ?_
  have hnone := h.kept (kept_roleless hA) hK t ht haside
  cases hr.symm.trans hnone

/-- What has a role is not left outside of a node. -/
theorem Derives.mem_dropWhile (hA : Lexed isAside K q) (h : Derives d isAside g input ts rest)
    (hK : ∀ l ∈ input, K l) (ht : t ∈ ts) (hr : t.role = some r) : t ∈ ts.dropWhile isAside := by
  have hroleless := h.kept (kept_roleless hA) hK t ht
  rw [← ts.takeWhile_append_dropWhile (p := isAside), mem_append] at ht
  refine ht.resolve_left fun hfront => ?_
  cases hr.symm.trans (hroleless (mem_takeWhile_imp hfront))

/-- One of the trees that the grammar yields has the role `r`. -/
def bears (isAsideKind : κ → Bool) (r : Role) : Grammar κ φ ρ → Bool
  | .role r' (.leaf _ k) => r' == r && !isAsideKind k
  | .seq a b => bears isAsideKind r a || bears isAsideKind r b
  | _ => false

theorem Derives.bears (hA : Lexed isAside K q) (h : Derives d isAside g input ts rest)
    (hg : bears q r g) : ∃ t ∈ ts, t.role = some r := by
  induction h with
  | seq _ _ iha ihb =>
    simpa [or_and_right, exists_or] using (or_eq_true_iff.1 hg).imp iha ihb
  | role ha _ =>
    cases ha with
    | leaf hread =>
      obtain ⟨_, asides, l, _, _, _, _, _, rfl⟩ := readSolid_eq_some hread
      obtain ⟨hr, hk⟩ := and_eq_true_iff.1 hg
      rw [map_append]
      refine ⟨_, mem_append_right _ mem_cons_self, ?_⟩
      have hsolid : isAside (.node _ none l.extent []) = false :=
        (hA.isAside_eq _).trans (not_eq_eq_eq_not.1 hk)
      rw [assignRole, hsolid, eq_of_beq hr]
      rfl
    | _ => cases hg
  | _ => cases hg

/-! ## Nodes that are read -/

/-- The nodes that the grammar makes of what it reads: their kinds, and how they are read. -/
def nodesIn : Grammar κ φ ρ → List (κ × Grammar κ φ ρ)
  | .node k a => (k, a) :: nodesIn a
  | .seq a b | .alt a b | .grow _ a b => nodesIn a ++ nodesIn b
  | .many a | .role _ a | .ahead _ a | .notAhead _ a => nodesIn a
  | _ => []

/-- The kinds in `S` are not made otherwise: neither of lexemes, nor by steps. -/
def apart (d : Dialect κ φ ρ) (S : κ → Bool) : Grammar κ φ ρ → Bool
  | .leaf _ k => !S k
  | .grow _ a b =>
    apart d S a && apart d S b && onlyBy (knows d 3) (fun s => !s.kind?.any S) b
  | .seq a b | .alt a b => apart d S a && apart d S b
  | .node _ a | .many a | .role _ a | .ahead _ a | .notAhead _ a => apart d S a
  | _ => true

/-- What is known of the nodes that the grammar groups. -/
def NodesRead (d : Dialect κ φ ρ) (isAside : ParseTree κ → Bool) (K : Lexeme κ φ → Prop)
    (S : κ → Bool) (R : κ → List (ParseTree κ) → Prop) (g : Grammar κ φ ρ) : Prop :=
  ∀ x ∈ nodesIn g, S x.1 = true →
    Reads d isAside K x.2 fun us => R x.1 (us.dropWhile isAside)

/-- If a test tells enough of nodes, it may be run on the grammar. -/
theorem nodesRead_of_test (test : κ → Grammar κ φ ρ → Bool)
    (hsound : ∀ k a, test k a → Reads d isAside K a fun us => R k (us.dropWhile isAside))
    (h : (nodesIn g).all (fun x => !S x.1 || test x.1 x.2)) :
    NodesRead d isAside K S R g := by
  intro x hx hS
  have htest := all_eq_true.1 h x hx
  rw [hS] at htest
  exact hsound _ _ htest

theorem Derives.everywhere (hA : Lexed isAside K q) (hS : ∀ k, q k → S k = false)
    (hrules : ∀ r, apart d S (d.rules r) ∧ NodesRead d isAside K S R (d.rules r))
    (h : Derives d isAside g input ts rest) (hK : ∀ l ∈ input, K l) (hg : apart d S g)
    (hnodes : NodesRead d isAside K S R g) : ∀ t ∈ ts, Everywhere (PartsAre S R) t := by
  have haside : ∀ {input : List (Lexeme κ φ)}, (∀ l ∈ input, K l) → ∀ t, FromAside input t →
      Everywhere (PartsAre S R) t := by
    rintro input hK _ ⟨l, hl, k, hk, rfl⟩
    exact everywhere_leaf rfl (hS k (hA.aside l k (hK l hl) hk))
  induction h with
  | empty | finish | aside | done | behindGroup => exact fun t ht => absurd ht not_mem_nil
  | sign hread => exact forall_of_readSolid hread (haside hK) fun _ _ => everywhere_leaf rfl rfl
  | leaf hread =>
    exact forall_of_readSolid hread (haside hK) fun _ _ =>
      everywhere_leaf rfl (not_eq_eq_eq_not.1 hg)
  | lineEnd hpass => exact fun t ht => haside hK t ((passAsides_eq_cons hpass).2 t ht)
  | rule _ ih => exact ih hK (hrules _).1 (hrules _).2
  | seq ha _ iha ihb =>
    obtain ⟨hga, hgb⟩ := and_eq_true_iff.1 hg
    obtain ⟨hra, hrb⟩ := forall_mem_append.1 hnodes
    exact forall_mem_append.2 ⟨iha hK hga hra, ihb (ha.forall_rest hK) hgb hrb⟩
  | left _ ih =>
    exact ih hK (and_eq_true_iff.1 hg).1 (forall_mem_append.1 hnodes).1
  | right _ ih =>
    exact ih hK (and_eq_true_iff.1 hg).2 (forall_mem_append.1 hnodes).2
  | again ha _ iha ihb =>
    exact forall_mem_append.2 ⟨iha hK hg hnodes, ihb (ha.forall_rest hK) hg hnodes⟩
  | @node k _ _ us _ ha ih =>
    obtain ⟨hown, hinner⟩ := forall_mem_cons.1 hnodes
    have hus := ih hK hg hinner
    rw [enclose_eq', forall_mem_append, forall_mem_singleton]
    refine ⟨fun t ht => hus t ((takeWhile_sublist _).subset ht), everywhere_iff.2
      ⟨?_, fun t ht => hus t ((dropWhile_sublist _).subset ht)⟩⟩
    rintro _ ⟨⟩ hk
    exact hown hk _ _ _ hK ha
  | first _ ih =>
    obtain ⟨hga, -⟩ := and_eq_true_iff.1 (and_eq_true_iff.1 hg).1
    exact ih hK hga (forall_mem_append.1 hnodes).1
  | @step _ _ _ _ us _ vs _ ha hb iha ihb =>
    obtain ⟨hgrow, honly⟩ := and_eq_true_iff.1 hg
    have hus := iha hK hg hnodes
    have hvs := ihb (ha.forall_rest hK) (and_eq_true_iff.1 hgrow).2
      (forall_mem_append.1 hnodes).2
    rcases graft_eq isAside us vs with heq | ⟨vs', t, asides, k, r, e, ps, ws, rfl, rfl, hnode, heq⟩
    · rw [heq]
      exact forall_mem_append.2 ⟨hus, hvs⟩
    · -- What takes on a tree is not of the kinds in question.
      have hkind : S k = false := by
        obtain ⟨s, hs, hlooks⟩ := (hb.looks hA (ha.forall_rest hK) honly _
          (mem_append_right _ mem_cons_self)).resolve_left
            (by rw [hnode]; exact false_ne_true)
        have hk : some k = s.kind? := hlooks.kind?
        simpa [← hk] using hs
      obtain ⟨hbefore, ht⟩ := forall_mem_append.1 hus
      obtain ⟨hasides, hbehind⟩ := forall_mem_append.1 hvs
      obtain ⟨hold, hws⟩ := forall_mem_cons.1 hbehind
      rw [heq, forall_mem_append, forall_mem_cons]
      refine ⟨hbefore, everywhere_iff.2 ⟨partsAre_other hkind, ?_⟩, hws⟩
      rw [ParseTree.parts, forall_mem_append, forall_mem_cons]
      exact ⟨⟨ht t mem_cons_self, hasides⟩, (everywhere_iff.1 hold).2⟩
  | role _ ih =>
    refine forall_mem_map.2 fun t ht => ?_
    rw [assignRole]
    split
    · exact ih hK hg hnodes t ht
    · exact everywhere_withRole (ih hK hg hnodes t ht) _
  | ahead _ ih | notAhead _ ih => exact ih hK hg hnodes

theorem parts_of_parse? [DecidableEq κ] (hA : Lexed isAside K q)
    (hS : ∀ k, q k → S k = false)
    (hrules : ∀ r, apart d S (d.rules r) ∧ NodesRead d isAside K S R (d.rules r))
    (hK : ∀ l ∈ input, K l) {r : ρ} {k : κ} (hk : S k = false) {tree t : ParseTree κ}
    (h : d.parse? isAside r k input = some tree) (ht : Holds tree t) : PartsAre S R t := by
  obtain ⟨ts, rest, hts, -, rfl⟩ := derives_of_parse? h
  refine (everywhere_iff.2 ⟨partsAre_other (by exact hk),
    forall_mem_append.2 ⟨?_, fun u hu => ?_⟩⟩) t ht
  · exact hts.everywhere hA hS hrules hK rfl fun x hx => absurd hx not_mem_nil
  · obtain ⟨l, hl, k, hk, rfl⟩ := fromAside_of_mem_passAsides hu
    exact everywhere_leaf rfl (hS k (hA.aside l k (hts.forall_rest hK l hl) hk))

end CodeAtlas.Grammar
