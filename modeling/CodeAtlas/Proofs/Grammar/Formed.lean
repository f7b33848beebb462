import CodeAtlas.Proofs.Grammar.Extent

/-!
# How trees start

No node starts with an aside: asides before its first part stay outside of it, and a node that
takes on the tree before it takes on no aside, as long as the grammar of that tree does not end in
one. That can be told from a grammar (`endsSolid`), and so for all that are extended (`growsSolid`).

* `Derives.formed`: what a run reads, by induction on the derivation;
* `formed_of_parse?`: the parts of the tree of a whole text.
-/

namespace CodeAtlas.Grammar

open List Bool

variable {κ φ ρ : Type} {isAsideKind : κ → Bool}

/-- Asides have no parts, and no node starts with an aside. -/
inductive Formed (isAside : ParseTree κ → Bool) : ParseTree κ → Prop
  | sign {text : String} {role : Option Role} {e : Extent} : Formed isAside (.sign text role e)
  | leaf {kind : κ} {role : Option Role} {e : Extent} : Formed isAside (.node kind role e [])
  | node {kind : κ} {role : Option Role} {e : Extent} {t : ParseTree κ} {ts : List (ParseTree κ)} :
    isAside (.node kind role e (t :: ts)) = false → isAside t = false →
    (∀ u ∈ t :: ts, Formed isAside u) → Formed isAside (.node kind role e (t :: ts))

variable {isAside : ParseTree κ → Bool} {t p : ParseTree κ} {ts us : List (ParseTree κ)}

theorem Formed.of_mem (h : Formed isAside t) (hp : p ∈ t.parts) :
    Formed isAside p ∧ isAside t = false := by
  cases h with
  | sign => cases hp
  | leaf => cases hp
  | node haside _ hparts => exact ⟨hparts p hp, haside⟩

theorem Formed.head (h : Formed isAside t) (hp : t.parts.head? = some p) : isAside p = false := by
  cases h with
  | sign => cases hp
  | leaf => cases hp
  | node _ hfirst _ =>
    cases hp
    exact hfirst

theorem Formed.assignRole (hq : ∀ t, isAside t = t.kind?.any isAsideKind) (h : Formed isAside t)
    (r : Role) : Formed isAside (assignRole isAside r t) := by
  rw [Grammar.assignRole]
  split
  · exact h
  · cases h with
    | @sign _ role _ => cases role <;> exact .sign
    | @leaf _ role _ => cases role <;> exact .leaf
    | @node _ role _ _ _ haside hfirst hparts =>
      cases role with
      | some r => exact .node haside hfirst hparts
      | none =>
        rw [hq] at haside
        exact .node ((hq _).trans haside) hfirst hparts

/-! ## How grammars end -/

/-- What the grammar reads does not end with an aside, given the rules of which that is known. -/
def endsSolid (isAsideKind : κ → Bool) (known : ρ → Bool) : Grammar κ φ ρ → Bool
  | .empty | .reject | .sign _ | .finish | .aside _ | .behindGroup _ => true
  | .lineEnd => false
  | .leaf _ k | .node k _ => !isAsideKind k
  | .rule r => known r
  | .seq a b =>
    endsSolid isAsideKind known b &&
      (takesSolid isAsideKind known b || endsSolid isAsideKind known a)
  | .alt a b | .grow _ a b => endsSolid isAsideKind known a && endsSolid isAsideKind known b
  | .many a | .role _ a | .ahead _ a | .notAhead _ a => endsSolid isAsideKind known a

/-- What is extended in the grammar does not end with an aside. -/
def growsSolid (isAsideKind : κ → Bool) (known : ρ → Bool) : Grammar κ φ ρ → Bool
  | .empty | .reject | .sign _ | .leaf .. | .lineEnd | .finish | .aside _ | .rule _
  | .behindGroup _ => true
  | .seq a b | .alt a b => growsSolid isAsideKind known a && growsSolid isAsideKind known b
  | .grow onto a b =>
    endsSolid isAsideKind known (.grow onto a b) &&
      (growsSolid isAsideKind known a && growsSolid isAsideKind known b)
  | .node _ a | .many a | .role _ a | .ahead _ a | .notAhead _ a => growsSolid isAsideKind known a

/-- All nodes of a language have parts, and none of them starts with an aside. -/
structure Closed (d : Dialect κ φ ρ) (isAside : ParseTree κ → Bool) (isAsideKind : κ → Bool)
    (known : ρ → Bool) : Prop extends Filled d isAside isAsideKind known where
  ends : ∀ r, known r = true → endsSolid isAsideKind known (d.rules r) = true
  grows : ∀ r, growsSolid isAsideKind known (d.rules r) = true

/-- The last of the trees is no aside. -/
def EndsSolid (isAside : ParseTree κ → Bool) (ts : List (ParseTree κ)) : Prop :=
  ∀ t, ts.getLast? = some t → isAside t = false

theorem EndsSolid.append (hus : EndsSolid isAside us) (hts : us ≠ [] ∨ EndsSolid isAside ts) :
    EndsSolid isAside (ts ++ us) := by
  intro t ht
  rw [getLast?_append, Option.or_eq_some_iff] at ht
  rcases ht with ht | ⟨hnone, ht⟩
  · exact hus t ht
  · exact hts.resolve_left (fun hne => hne (getLast?_eq_none_iff.1 hnone)) t ht

theorem endsSolid_concat (h : isAside t = false) : EndsSolid isAside (ts ++ [t]) := by
  intro u hu
  rw [getLast?_concat] at hu
  cases hu
  exact h

theorem formed_of_fromAside {input : List (Lexeme κ φ)} (h : FromAside input t) :
    Formed isAside t := by
  obtain ⟨l, _, k, _, rfl⟩ := h
  exact .leaf

/-- A node keeps the asides at its start outside. -/
theorem formed_enclose {k : κ} (hq : ∀ t, isAside t = t.kind?.any isAsideKind)
    (hk : isAsideKind k = false) (h : ∀ t ∈ ts, Formed isAside t) :
    EndsSolid isAside (enclose isAside k ts) ∧ ∀ t ∈ enclose isAside k ts, Formed isAside t := by
  have hnode : ∀ e parts, isAside (.node k none e parts) = false := fun e parts => (hq _).trans hk
  rw [enclose_eq']
  refine ⟨endsSolid_concat (hnode _ _), forall_mem_append.2
    ⟨fun t ht => h t ((takeWhile_sublist _).subset ht), forall_mem_singleton.2 ?_⟩⟩
  have hhead := head?_dropWhile_not isAside ts
  have hparts : ∀ t ∈ ts.dropWhile isAside, Formed isAside t := fun t ht =>
    h t ((dropWhile_sublist _).subset ht)
  cases hdrop : ts.dropWhile isAside with
  | nil => exact .leaf
  | cons t us =>
    rw [hdrop] at hhead hparts
    exact .node (hnode _ _) (by simpa using hhead) hparts

/-- What takes on a tree that is no aside starts with none. -/
theorem formed_graft (hq : ∀ t, isAside t = t.kind?.any isAsideKind)
    (hts : EndsSolid isAside ts ∧ ∀ t ∈ ts, Formed isAside t)
    (hus : EndsSolid isAside us ∧ ∀ t ∈ us, Formed isAside t) :
    EndsSolid isAside (graft isAside ts us) ∧ ∀ t ∈ graft isAside ts us, Formed isAside t := by
  rcases graft_eq isAside ts us with h | ⟨vs, t, asides, k, r, e, ps, ws, rfl, rfl, hnode, h⟩
  · rw [h]
    exact ⟨hus.1.append (.inr hts.1), forall_mem_append.2 ⟨hts.2, hus.2⟩⟩
  · obtain ⟨hvs, ht⟩ := forall_mem_append.1 hts.2
    obtain ⟨hasides, hnodes⟩ := forall_mem_append.1 hus.2
    obtain ⟨hold, hws⟩ := forall_mem_cons.1 hnodes
    have hgrown : isAside (.node k r ⟨t.extent.start, e.stop⟩ (t :: asides ++ ps)) = false := by
      rw [hq] at hnode ⊢
      exact hnode
    have hparts : ∀ u ∈ t :: (asides ++ ps), Formed isAside u :=
      forall_mem_cons.2 ⟨ht t mem_cons_self, forall_mem_append.2
        ⟨hasides, fun u hu => (hold.of_mem hu).1⟩⟩
    have hfirst : isAside t = false := hts.1 t (by rw [getLast?_concat])
    rw [h]
    refine ⟨?_, forall_mem_append.2 ⟨hvs, forall_mem_cons.2
      ⟨.node hgrown hfirst hparts, hws⟩⟩⟩
    -- The last tree is that of the step, or the one that was grown.
    rcases eq_nil_or_concat ws with rfl | ⟨ws, w, rfl⟩
    · exact endsSolid_concat hgrown
    · rw [concat_eq_append, ← cons_append, ← append_assoc]
      exact endsSolid_concat (hus.1 w (by simp [getLast?_cons]))

variable {known : ρ → Bool} {d : Dialect κ φ ρ} {input rest : List (Lexeme κ φ)}

theorem Derives.formed [DecidableEq φ] (hd : Closed d isAside isAsideKind known)
    {g : Grammar κ φ ρ} (h : Derives d isAside g input ts rest)
    (hg : nodesFilled isAsideKind known g) (hg' : growsSolid isAsideKind known g) :
    (endsSolid isAsideKind known g → EndsSolid isAside ts) ∧
      ∀ t ∈ ts, Formed isAside t := by
  induction h with
  | empty | finish | aside | done | behindGroup =>
    exact ⟨fun _ t ht => (by cases ht), fun _ ht => absurd ht not_mem_nil⟩
  | sign hread =>
    obtain ⟨_, asides, l, _, _, _, _, _, rfl⟩ := readSolid_eq_some hread
    exact ⟨fun _ => endsSolid_concat (hd.isAside_eq _),
      forall_of_readSolid hread (fun _ => formed_of_fromAside) fun _ _ => .sign⟩
  | leaf hread =>
    obtain ⟨_, asides, l, _, _, _, _, _, rfl⟩ := readSolid_eq_some hread
    refine ⟨fun hends => endsSolid_concat ((hd.isAside_eq _).trans ?_),
      forall_of_readSolid hread (fun _ => formed_of_fromAside) fun _ _ => .leaf⟩
    simpa [endsSolid, ParseTree.kind?] using hends
  | lineEnd hpass =>
    exact ⟨fun h => (by cases h), fun t ht =>
      formed_of_fromAside ((passAsides_eq_cons hpass).2 t ht)⟩
  | rule _ ih =>
    obtain ⟨hlast, hformed⟩ := ih (hd.nodes _) (hd.grows _)
    exact ⟨fun hends => hlast (hd.ends _ hends), hformed⟩
  | seq _ hb iha ihb =>
    obtain ⟨hlast, hformed⟩ := iha (and_eq_true_iff.1 hg).1 (and_eq_true_iff.1 hg').1
    obtain ⟨hlast', hformed'⟩ := ihb (and_eq_true_iff.1 hg).2 (and_eq_true_iff.1 hg').2
    refine ⟨fun hends => ?_, forall_mem_append.2 ⟨hformed, hformed'⟩⟩
    obtain ⟨hends, hfirst⟩ := and_eq_true_iff.1 hends
    refine (hlast' hends).append ((or_eq_true_iff.1 hfirst).imp (fun hsolid => ?_) hlast)
    obtain ⟨t, ht, _⟩ := hb.solid hd.toFilled hsolid
    exact ne_nil_of_mem ht
  | left _ ih =>
    obtain ⟨hlast, hformed⟩ := ih (and_eq_true_iff.1 hg).1 (and_eq_true_iff.1 hg').1
    exact ⟨fun hends => hlast (and_eq_true_iff.1 hends).1, hformed⟩
  | right _ ih =>
    obtain ⟨hlast, hformed⟩ := ih (and_eq_true_iff.1 hg).2 (and_eq_true_iff.1 hg').2
    exact ⟨fun hends => hlast (and_eq_true_iff.1 hends).2, hformed⟩
  | again _ _ iha ihb =>
    obtain ⟨hlast, hformed⟩ := iha hg hg'
    obtain ⟨hlast', hformed'⟩ := ihb hg hg'
    exact ⟨fun hends => (hlast' hends).append (.inr (hlast hends)),
      forall_mem_append.2 ⟨hformed, hformed'⟩⟩
  | @node k _ _ _ _ _ ih =>
    obtain ⟨hk, hfilled⟩ := and_eq_true_iff.1 hg
    have hkind : isAsideKind k = false := by simpa using (and_eq_true_iff.1 hk).1
    obtain ⟨hlast, hformed⟩ := formed_enclose hd.isAside_eq hkind (ih hfilled hg').2
    exact ⟨fun _ => hlast, hformed⟩
  | first _ ih =>
    obtain ⟨hlast, hformed⟩ := ih (and_eq_true_iff.1 hg).1
      (and_eq_true_iff.1 (and_eq_true_iff.1 hg').2).1
    exact ⟨fun hends => hlast (and_eq_true_iff.1 hends).1, hformed⟩
  | step _ _ iha ihb =>
    obtain ⟨hends, hgrows⟩ := and_eq_true_iff.1 hg'
    obtain ⟨hlast, hformed⟩ := iha hg hg'
    obtain ⟨hlast', hformed'⟩ := ihb (and_eq_true_iff.1 hg).2 (and_eq_true_iff.1 hgrows).2
    obtain ⟨hlast, hformed⟩ := formed_graft hd.isAside_eq ⟨hlast hends, hformed⟩
      ⟨hlast' (and_eq_true_iff.1 hends).2, hformed'⟩
    exact ⟨fun _ => hlast, hformed⟩
  | role _ ih =>
    obtain ⟨hlast, hformed⟩ := ih hg hg'
    refine ⟨fun hends t ht => ?_, forall_mem_map.2 fun t ht => ?_⟩
    · rw [getLast?_map] at ht
      obtain ⟨u, hu, rfl⟩ := Option.map_eq_some_iff.1 ht
      exact (isAside_assignRole hd.isAside_eq _ u).trans (hlast hends u hu)
    · exact (hformed t ht).assignRole hd.isAside_eq _
  | ahead _ ih | notAhead _ ih => exact ih hg hg'

theorem formed_of_parse? [DecidableEq κ] [DecidableEq φ] (hd : Closed d isAside isAsideKind known)
    {r : ρ} {k : κ} {tree : ParseTree κ} (h : d.parse? isAside r k input = some tree) :
    ∀ t ∈ tree.parts, Formed isAside t := by
  obtain ⟨ts, rest, hts, -, rfl⟩ := derives_of_parse? h
  exact forall_mem_append.2 ⟨(hts.formed hd rfl rfl).2, fun t ht =>
    formed_of_fromAside (fromAside_of_mem_passAsides ht)⟩

end CodeAtlas.Grammar
