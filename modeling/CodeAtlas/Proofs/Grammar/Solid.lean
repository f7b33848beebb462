import CodeAtlas.Proofs.Grammar.Yield

/-!
# What grammars read, asides left out

An aside may stand between any two trees that a grammar reads. What is *solid* of them are the
trees that are none (`solid`). Asides have no role, so the parts of a node with some role are
found among its solid parts (`find?_role_solid`, `filter_role_solid`).

`Makes K g P` says that from lexemes with the property `K`, the grammar `g` reads trees whose
solid ones have the property `P`, with one lemma for each form of grammar. Where a grammar reads a
single tree, behind the asides in front of it, this is told apart (`One`). That it reads a single
node can be told by a test (`oneNodeBy`).

* `makes_seq`, `makes_many`, …: what is solid, by the form of a grammar;
* `makes_node`: a node is made of what is solid;
* `Derives.oneNode`: what the test says, by induction on the derivation.
-/

namespace CodeAtlas.Grammar

open List Bool

variable {κ φ ρ : Type} {d : Dialect κ φ ρ} {isAside : ParseTree κ → Bool} {K : Lexeme κ φ → Prop}
  {q : κ → Bool} {ts us : List (ParseTree κ)} {t : Terminal φ}

/-- The trees that are no asides. -/
def solid (isAside : ParseTree κ → Bool) (ts : List (ParseTree κ)) : List (ParseTree κ) :=
  ts.filter (!isAside ·)

theorem solid_append (ts us : List (ParseTree κ)) :
    solid isAside (ts ++ us) = solid isAside ts ++ solid isAside us :=
  filter_append ..

theorem solid_of_asides (h : ∀ t ∈ ts, isAside t) : solid isAside ts = [] := by
  rw [solid, filter_eq_nil_iff]
  exact fun t ht => by simp [h t ht]

/-- The asides in front of a node are not solid. -/
theorem solid_dropWhile (ts : List (ParseTree κ)) :
    solid isAside (ts.dropWhile isAside) = solid isAside ts := by
  have hasides : solid isAside (ts.takeWhile isAside) = [] :=
    solid_of_asides fun t ht => mem_takeWhile_imp ht
  rw [← nil_append (solid isAside (ts.dropWhile isAside)), ← hasides, ← solid_append,
    takeWhile_append_dropWhile]

/-- What has a role is solid. -/
theorem filter_role_solid (h : AsidesRoleless isAside ts) (r : Role) :
    ts.filter (·.role == some r) = (solid isAside ts).filter (·.role == some r) := by
  rw [solid, filter_filter]
  refine filter_congr fun t ht => ?_
  cases haside : isAside t with
  | false => simp
  | true => simp [h t ht haside]

theorem find?_role_solid (h : AsidesRoleless isAside ts) (r : Role) :
    ts.find? (·.role == some r) = (solid isAside ts).find? (·.role == some r) := by
  rw [← head?_filter, ← head?_filter, filter_role_solid h]

/-- What a role does to trees, asides apart. -/
theorem solid_map_assignRole (hA : Lexed isAside K q) (r : Role) (ts : List (ParseTree κ)) :
    solid isAside (ts.map (assignRole isAside r)) =
      (solid isAside ts).map (ParseTree.withRole r) := by
  induction ts with
  | nil => rfl
  | cons t ts ih =>
    have hkind := isAside_withRole hA r t
    simp only [solid] at ih ⊢
    cases haside : isAside t with
    | true => simp [assignRole, haside, ih]
    | false => simp [assignRole, haside, hkind, ih]

/-- There is one tree behind asides. -/
def One (isAside : ParseTree κ → Bool) (Q : ParseTree κ → Prop) (ts : List (ParseTree κ)) : Prop :=
  ∃ asides t, ts = asides ++ [t] ∧ (∀ u ∈ asides, isAside u = true) ∧ isAside t = false ∧ Q t

variable [DecidableEq φ] {a b g : Grammar κ φ ρ} {input rest : List (Lexeme κ φ)}
  {P P' R : List (ParseTree κ) → Prop} {Q : ParseTree κ → Prop}

theorem one_of_readSolid (hA : Lexed isAside K q) {make : Lexeme κ φ → ParseTree κ}
    (hK : ∀ l ∈ input, K l) (hmake : ∀ l, isAside (make l) = false)
    (h : ∀ l, K l → l.form = .solid t.sort → t.accepts t.sort l.text → Q (make l))
    (hread : readSolid t make input = some (ts, rest)) : One isAside Q ts := by
  obtain ⟨_, asides, l, hl, sort, hform, haccepts, hasides, rfl⟩ := readSolid_eq_some hread
  obtain rfl := Terminal.sort_of_accepts haccepts
  exact ⟨asides, make l, rfl, fun u hu => hA.of_fromAside hK (hasides u hu), hmake l,
    h l (hK l hl) hform haccepts⟩

/-- From lexemes with the property `K`, the grammar reads trees whose solid ones have the
    property `P`. -/
def Makes (d : Dialect κ φ ρ) (isAside : ParseTree κ → Bool) (K : Lexeme κ φ → Prop)
    (g : Grammar κ φ ρ) (P : List (ParseTree κ) → Prop) : Prop :=
  Reads d isAside K g fun ts => P (solid isAside ts)

/-- From lexemes with the property `K`, the grammar reads one tree with the property `Q`. -/
def MakesOne (d : Dialect κ φ ρ) (isAside : ParseTree κ → Bool) (K : Lexeme κ φ → Prop)
    (g : Grammar κ φ ρ) (Q : ParseTree κ → Prop) : Prop :=
  Reads d isAside K g (One isAside Q)

theorem Makes.imp (h : Makes d isAside K g P) (hP : ∀ ts, P ts → P' ts) : Makes d isAside K g P' :=
  Reads.imp h fun _ => hP _

theorem MakesOne.makes (h : MakesOne d isAside K g Q) :
    Makes d isAside K g fun ts => ∃ t, ts = [t] ∧ Q t := by
  refine Reads.imp h ?_
  rintro _ ⟨asides, t, rfl, hasides, haside, hQ⟩
  rw [solid_append, solid_of_asides hasides]
  exact ⟨t, by simp [solid, haside], hQ⟩

/-! ## By the form of a grammar -/

theorem makes_seq (ha : Makes d isAside K a P) (hb : Makes d isAside K b P')
    (h : ∀ us vs, P us → P' vs → R (us ++ vs)) : Makes d isAside K (.seq a b) R :=
  reads_seq ha hb fun us vs hus hvs => solid_append us vs ▸ h _ _ hus hvs

theorem makes_opt (ha : Makes d isAside K a P) (h : P []) : Makes d isAside K (opt a) P :=
  reads_alt ha (reads_empty h)

theorem makes_many (ha : Makes d isAside K a P) (hnil : P [])
    (happend : ∀ us vs, P us → P vs → P (us ++ vs)) : Makes d isAside K (.many a) P :=
  reads_many ha hnil fun us vs hus hvs => solid_append us vs ▸ happend _ _ hus hvs

variable (hA : Lexed isAside K q)

include hA

theorem makes_role {r : Role} (ha : Makes d isAside K a P) :
    Makes d isAside K (.role r a) fun us => ∃ vs, P vs ∧ us = vs.map (ParseTree.withRole r) :=
  reads_role ha fun us hP => ⟨_, hP, solid_map_assignRole hA r us⟩

theorem one_sign (h : ∀ l, K l → l.form = .solid t.sort → t.accepts t.sort l.text →
      Q (.sign l.text none l.extent)) : MakesOne d isAside K (.sign t) Q := by
  intro input ts rest hK hts
  cases hts with
  | sign hread => exact one_of_readSolid hA hK (fun _ => hA.isAside_eq _) h hread

theorem makes_node {k : κ} (hk : q k = false) (ha : Makes d isAside K a P)
    (h : ∀ e parts, P (solid isAside parts) → Q (.node k none e parts)) :
    MakesOne d isAside K (.node k a) Q := by
  refine reads_node ha fun us hP => ?_
  rw [enclose_eq']
  exact ⟨_, _, rfl, fun t ht => mem_takeWhile_imp ht, (hA.isAside_eq _).trans hk,
    h _ _ ((solid_dropWhile us).symm ▸ hP)⟩

/-! ## Single nodes -/

/-- The grammar reads a single node, behind asides, given the rules of which that is known. -/
def oneNodeBy (isAsideKind : κ → Bool) (rule : ρ → Bool) : Grammar κ φ ρ → Bool
  | .leaf _ k | .node k _ => !isAsideKind k
  | .rule r => rule r
  | .alt a b | .grow _ a b => oneNodeBy isAsideKind rule a && oneNodeBy isAsideKind rule b
  | .role _ a | .ahead _ a | .notAhead _ a => oneNodeBy isAsideKind rule a
  | _ => false

/-- What is known of rules if they are followed, one into another, `n` times. -/
def knowsOne (d : Dialect κ φ ρ) (isAsideKind : κ → Bool) : Nat → ρ → Bool
  | 0, _ => false
  | n + 1, r => oneNodeBy isAsideKind (knowsOne d isAsideKind n) (d.rules r)

omit [DecidableEq φ] in
/-- A step makes a node of one tree and what it reads itself. -/
theorem one_graft (hts : One isAside Q ts) (hus : One isAside (·.isNode) us) :
    One isAside (·.isNode) (graft isAside ts us) := by
  obtain ⟨front, t, rfl, hfront, -, -⟩ := hts
  obtain ⟨asides, u, rfl, hasides, hu, hnode⟩ := hus
  cases u with
  | sign => cases hnode
  | node k r e ps =>
    have hsplit : splitAsides isAside (asides ++ [.node k r e ps]) =
        (asides, [.node k r e ps]) := by
      rw [splitAsides, span_eq_takeWhile_dropWhile, takeWhile_append_of_pos hasides,
        dropWhile_append_of_pos hasides]
      simp [hu]
    refine ⟨front, .node k r ⟨t.extent.start, e.stop⟩ (t :: asides ++ ps), ?_, hfront, ?_, rfl⟩
    · rw [graft, hsplit, getLast?_append, dropLast_concat]
      rfl
    · rw [hA.isAside_eq] at hu ⊢
      exact hu

theorem Derives.oneNode (h : Derives d isAside g input ts rest)
    (hK : ∀ l ∈ input, K l) {n : Nat} (hg : oneNodeBy q (knowsOne d q n) g) :
    One isAside (·.isNode) ts := by
  induction h generalizing n with
  | leaf hread =>
    refine one_of_readSolid hA hK (fun _ => ?_) (fun _ _ _ _ => rfl) hread
    rw [hA.isAside_eq]
    exact not_eq_eq_eq_not.1 hg
  | node _ _ =>
    rw [enclose_eq']
    exact ⟨_, _, rfl, fun t ht => mem_takeWhile_imp ht,
      (hA.isAside_eq _).trans (not_eq_eq_eq_not.1 hg), rfl⟩
  | rule _ ih =>
    cases n with
    | zero => cases hg
    | succ n => exact ih hK hg
  | left _ ih | first _ ih => exact ih hK (and_eq_true_iff.1 hg).1
  | right _ ih => exact ih hK (and_eq_true_iff.1 hg).2
  | step ha _ iha ihb =>
    exact one_graft hA (iha hK hg) (ihb (ha.forall_rest hK) (and_eq_true_iff.1 hg).2)
  | @role r _ _ _ _ _ ih =>
    obtain ⟨asides, t, rfl, hasides, haside, hnode⟩ := ih hK hg
    have hkept : asides.map (assignRole isAside r) = asides :=
      (map_congr_left fun u hu => if_pos (hasides u hu)).trans (map_id' asides)
    refine ⟨asides, t.withRole r, ?_, hasides, (isAside_withRole hA r t).trans haside, ?_⟩
    · rw [map_append, hkept, map_singleton, assignRole, if_neg (by simp [haside])]
    · rcases t with ⟨_, _ | _, _⟩ | ⟨_, _ | _, _, _⟩ <;> first | rfl | cases hnode
  | ahead _ ih | notAhead _ ih => exact ih hK hg
  | _ => cases hg

/-- What both tests say together. -/
theorem one_of_tests {n m : Nat} {p : Look κ φ → Bool}
    (hone : oneNodeBy q (knowsOne d q n) g) (honly : onlyBy (knows d m) p g) :
    MakesOne d isAside K g fun t => t.isNode ∧ ∃ s, p s ∧ Looks K s t := by
  intro input ts rest hK h
  have hlooks := h.looks hA hK honly
  obtain ⟨asides, t, rfl, hasides, haside, hnode⟩ := h.oneNode hA hK hone
  refine ⟨asides, t, rfl, hasides, haside, hnode, ?_⟩
  exact (hlooks t (by simp)).resolve_left (by rw [haside]; exact false_ne_true)

end CodeAtlas.Grammar
