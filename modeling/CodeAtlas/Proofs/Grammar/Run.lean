import Mathlib.Data.List.TakeDrop
import Mathlib.Data.List.TakeWhile
import CodeAtlas.Grammar.Basic

/-!
# What grammars read

What a run of a grammar does is told by a derivation (`Derives`), and all that is known of runs
follows from that. A grammar reads from the front of its input (`Derives.suffix`). What it reads
can be told without following a derivation: `Reads K g P` says that from lexemes with the
property `K`, the grammar `g` reads trees with the property `P`. There is one lemma for each form
of grammar.

* `derives_of_run`: every run is a derivation, by induction on the fuel;
* `derives_of_parse?`: the derivation of a whole text;
* `Derives.kept`: what holds of lexemes and is kept when trees are put together holds of all that
  is read;
* `reads_seq`, `reads_alt`, …: what a grammar reads, by its form.
-/

namespace CodeAtlas.Grammar

open List

variable {κ φ ρ : Type} {d : Dialect κ φ ρ} {isAside : ParseTree κ → Bool}
  {input rest : List (Lexeme κ φ)} {ts us : List (ParseTree κ)} {make : Lexeme κ φ → ParseTree κ}
  {t : ParseTree κ} {k : κ} {across : Bool}

/-! ## Asides and single lexemes -/

/-- The tree is that of an aside among some lexemes. -/
def FromAside (input : List (Lexeme κ φ)) (t : ParseTree κ) : Prop :=
  ∃ l ∈ input, ∃ k, l.form = .aside k ∧ t = .node k none l.extent []

theorem passAsides_suffix (across : Bool) (input : List (Lexeme κ φ)) :
    (passAsides across input).2 <:+ input := by
  induction input with
  | nil => exact suffix_refl _
  | cons l input ih =>
    rw [passAsides]
    split
    · exact ih.trans (suffix_cons _ _)
    · split
      · exact ih.trans (suffix_cons _ _)
      · exact suffix_refl _
    · exact suffix_refl _

theorem fromAside_of_mem_passAsides (ht : t ∈ (passAsides across input).1) : FromAside input t := by
  induction input with
  | nil => cases ht
  | cons l input ih =>
    have hrest : t ∈ (passAsides across input).1 → FromAside (l :: input) t := by
      intro ht
      obtain ⟨l', hl', h⟩ := ih ht
      exact ⟨l', mem_cons_of_mem _ hl', h⟩
    rw [passAsides] at ht
    split at ht
    · next k hk =>
      rcases mem_cons.1 ht with rfl | ht
      · exact ⟨l, mem_cons_self, k, hk, rfl⟩
      · exact hrest ht
    · split at ht
      · exact hrest ht
      · cases ht
    · cases ht

/-- Asides and the lexeme behind them. -/
theorem passAsides_eq_cons {l : Lexeme κ φ} (h : passAsides across input = (ts, l :: rest)) :
    rest <:+ input ∧ ∀ t ∈ ts, FromAside input t := by
  have hsuffix := passAsides_suffix (κ := κ) across input
  have hasides : ∀ u ∈ (passAsides across input).1, FromAside input u :=
    fun _ hu => fromAside_of_mem_passAsides hu
  rw [h] at hsuffix hasides
  exact ⟨(suffix_cons _ _).trans hsuffix, hasides⟩

/-- What is read of a single lexeme: the asides before it, and the lexeme. -/
theorem readSolid_eq_some [DecidableEq φ] {t : Terminal φ}
    (h : readSolid t make input = some (ts, rest)) :
    rest <:+ input ∧ ∃ asides, ∃ l ∈ input, ∃ sort, l.form = .solid sort ∧
      t.accepts sort l.text ∧ (∀ u ∈ asides, FromAside input u) ∧
      ts = asides ++ [make l] := by
  have hsuffix := passAsides_suffix (κ := κ) true input
  have hasides : ∀ u ∈ (passAsides true input).1, FromAside input u :=
    fun _ hu => fromAside_of_mem_passAsides hu
  rw [readSolid] at h
  split at h
  · next asides l rest' hpass =>
    rw [hpass] at hsuffix hasides
    split at h
    · next sort hform =>
      split at h
      · next haccepts =>
        cases h
        exact ⟨(suffix_cons _ _).trans hsuffix, asides, l,
          hsuffix.subset mem_cons_self, sort, hform, haccepts, hasides, rfl⟩
      · cases h
    · cases h
  · cases h

theorem forall_of_readSolid [DecidableEq φ] {t : Terminal φ} {P : ParseTree κ → Prop}
    (h : readSolid t make input = some (ts, rest)) (haside : ∀ u, FromAside input u → P u)
    (hmake : ∀ l ∈ input, P (make l)) : ∀ u ∈ ts, P u := by
  obtain ⟨_, asides, l, hl, _, _, _, hasides, rfl⟩ := readSolid_eq_some h
  rw [forall_mem_append, forall_mem_singleton]
  exact ⟨fun u hu => haside u (hasides u hu), hmake l hl⟩

/-! ## Putting trees together -/

theorem splitAsides_append (isAside : ParseTree κ → Bool) (ts : List (ParseTree κ)) :
    (splitAsides isAside ts).1 ++ (splitAsides isAside ts).2 = ts := by
  rw [splitAsides, span_eq_takeWhile_dropWhile]
  exact takeWhile_append_dropWhile

/-- What is made into a node: all that was read but the asides at its start. -/
theorem enclose_eq (isAside : ParseTree κ → Bool) (k : κ) (ts : List (ParseTree κ)) :
    ∃ asides parts, ts = asides ++ parts ∧ (∀ t ∈ asides, isAside t) ∧
      enclose isAside k ts = asides ++ [.node k none (extentOf .origin parts) parts] := by
  refine ⟨_, _, (splitAsides_append isAside ts).symm, fun t ht => ?_, rfl⟩
  rw [splitAsides, span_eq_takeWhile_dropWhile] at ht
  exact mem_takeWhile_imp ht

/-- What grafting does: it makes a larger tree of the last one on the left and the
    first node of the step, or puts both sides one behind the other. -/
theorem graft_eq (isAside : ParseTree κ → Bool) (ts us : List (ParseTree κ)) :
    graft isAside ts us = ts ++ us ∨
      ∃ vs t asides k r e ps ws, ts = vs ++ [t] ∧ us = asides ++ .node k r e ps :: ws ∧
        isAside (.node k r e ps) = false ∧ graft isAside ts us =
          vs ++ .node k r ⟨t.extent.start, e.stop⟩ (t :: asides ++ ps) :: ws := by
  have hsplit := splitAsides_append isAside us
  rw [graft]
  split
  · next t asides k r e ps ws hlast hus =>
    have hfirst : isAside (.node k r e ps) = false := by
      rw [splitAsides, span_eq_takeWhile_dropWhile] at hus
      have hhead := head?_dropWhile_not isAside us
      rw [(Prod.mk.inj hus).2] at hhead
      simpa using hhead
    rw [hus] at hsplit
    have hts : ts = ts.dropLast ++ [t] := by
      obtain ⟨vs, rfl⟩ := getLast?_eq_some_iff.1 hlast
      rw [dropLast_concat]
    exact .inr ⟨_, t, asides, k, r, e, ps, ws, hts, hsplit.symm, hfirst, rfl⟩
  · exact .inl rfl

/-- A property of trees that holds of those made of lexemes with the property `K`, and
    is kept when trees are put together. -/
structure Kept (isAside : ParseTree κ → Bool) (K : Lexeme κ φ → Prop)
    (P : ParseTree κ → Prop) : Prop where
  sign : ∀ l, K l → P (.sign l.text none l.extent)
  leaf : ∀ l k, K l → P (.node k none l.extent [])
  node : ∀ k ts, (∀ t ∈ ts, P t) → P (.node k none (extentOf .origin ts) ts)
  role : ∀ r t, isAside t = false → P t → P (t.withRole r)
  graft : ∀ t k r e us ps, P t → (∀ u ∈ us, P u) → P (.node k r e ps) →
    P (.node k r ⟨t.extent.start, e.stop⟩ (t :: us ++ ps))

namespace Kept

variable {K : Lexeme κ φ → Prop} {P : ParseTree κ → Prop}

theorem of_fromAside (hP : Kept isAside K P) (hK : ∀ l ∈ input, K l) (ht : FromAside input t) :
    P t := by
  obtain ⟨l, hl, k, _, rfl⟩ := ht
  exact hP.leaf l k (hK l hl)

theorem of_enclose (hP : Kept isAside K P) (hts : ∀ t ∈ ts, P t) :
    ∀ t ∈ enclose isAside k ts, P t := by
  obtain ⟨asides, parts, rfl, _, henclose⟩ := enclose_eq isAside k ts
  rw [forall_mem_append] at hts
  rw [henclose, forall_mem_append, forall_mem_singleton]
  exact ⟨hts.1, hP.node k parts hts.2⟩

theorem of_graft (hP : Kept isAside K P) (hts : ∀ t ∈ ts, P t) (hus : ∀ t ∈ us, P t) :
    ∀ t ∈ Grammar.graft isAside ts us, P t := by
  rcases graft_eq isAside ts us with h | ⟨vs, t, asides, k, r, e, ps, ws, rfl, rfl, _, h⟩
  · rw [h, forall_mem_append]
    exact ⟨hts, hus⟩
  · rw [forall_mem_append, forall_mem_singleton] at hts
    rw [forall_mem_append, forall_mem_cons] at hus
    rw [h, forall_mem_append, forall_mem_cons]
    exact ⟨hts.1, hP.graft t k r e asides ps hts.2 hus.1 hus.2.1, hus.2.2⟩

end Kept

/-! ## Derivations -/

variable [DecidableEq φ] {a b g : Grammar κ φ ρ}

/-- The tree with a role, unless it is an aside. -/
def assignRole (isAside : ParseTree κ → Bool) (r : Role) (t : ParseTree κ) : ParseTree κ :=
  if isAside t then t else t.withRole r

/-- What a grammar may read of an input, and what remains. -/
inductive Derives (d : Dialect κ φ ρ) (isAside : ParseTree κ → Bool) :
    Grammar κ φ ρ → List (Lexeme κ φ) → List (ParseTree κ) → List (Lexeme κ φ) → Prop
  | empty : ∀ {input}, Derives d isAside .empty input [] input
  | sign : ∀ {t input ts rest},
      readSolid t (fun l => .sign l.text none l.extent) input = some (ts, rest) →
      Derives d isAside (.sign t) input ts rest
  | leaf : ∀ {t k input ts rest},
      readSolid t (fun l => .node k none l.extent []) input = some (ts, rest) →
      Derives d isAside (.leaf t k) input ts rest
  | lineEnd : ∀ {input ts l rest}, passAsides false input = (ts, l :: rest) →
      Derives d isAside .lineEnd input ts rest
  | finish : ∀ {input}, Derives d isAside .finish input [] input
  | aside : ∀ {k input}, Derives d isAside (.aside k) input [] input
  | rule : ∀ {r input ts rest}, Derives d isAside (d.rules r) input ts rest →
      Derives d isAside (.rule r) input ts rest
  | seq : ∀ {a b input us mid vs rest}, Derives d isAside a input us mid →
      Derives d isAside b mid vs rest → Derives d isAside (.seq a b) input (us ++ vs) rest
  | left : ∀ {a b input ts rest}, Derives d isAside a input ts rest →
      Derives d isAside (.alt a b) input ts rest
  | right : ∀ {a b input ts rest}, Derives d isAside b input ts rest →
      Derives d isAside (.alt a b) input ts rest
  | done : ∀ {a input}, Derives d isAside (.many a) input [] input
  | again : ∀ {a input us mid vs rest}, Derives d isAside a input us mid →
      Derives d isAside (.many a) mid vs rest → Derives d isAside (.many a) input (us ++ vs) rest
  | node : ∀ {k a input us rest}, Derives d isAside a input us rest →
      Derives d isAside (.node k a) input (enclose isAside k us) rest
  | first : ∀ {onto a step input us rest}, Derives d isAside a input us rest →
      Derives d isAside (.grow onto a step) input us rest
  | step : ∀ {onto a step input us mid vs rest},
      Derives d isAside (.grow onto a step) input us mid →
      Derives d isAside step mid vs rest →
      Derives d isAside (.grow onto a step) input (graft isAside us vs) rest
  | role : ∀ {r a input us rest}, Derives d isAside a input us rest →
      Derives d isAside (.role r a) input (us.map (assignRole isAside r)) rest
  | ahead : ∀ {a b input ts rest}, Derives d isAside b input ts rest →
      Derives d isAside (.ahead a b) input ts rest
  | notAhead : ∀ {a b input ts rest}, Derives d isAside b input ts rest →
      Derives d isAside (.notAhead a b) input ts rest
  | behindGroup : ∀ {a input}, Derives d isAside (.behindGroup a) input [] input

namespace Derives

variable {K : Lexeme κ φ → Prop}

/-- What remains after a run is the end of the input. -/
theorem suffix (h : Derives d isAside g input ts rest) : rest <:+ input := by
  induction h with
  | empty | finish | aside | done | behindGroup => exact suffix_refl _
  | sign hread => exact (readSolid_eq_some hread).1
  | leaf hread => exact (readSolid_eq_some hread).1
  | lineEnd hpass => exact (passAsides_eq_cons hpass).1
  | rule _ ih | left _ ih | right _ ih | node _ ih | first _ ih | role _ ih | ahead _ ih
  | notAhead _ ih => exact ih
  | seq _ _ iha ihb | again _ _ iha ihb | step _ _ iha ihb => exact ihb.trans iha

/-- What is known of the lexemes is known of those that remain. -/
theorem forall_rest (h : Derives d isAside g input ts rest) (hK : ∀ l ∈ input, K l) :
    ∀ l ∈ rest, K l :=
  fun l hl => hK l (h.suffix.subset hl)

/-- What is kept holds of all that is read. -/
theorem kept {P : ParseTree κ → Prop} (hP : Kept isAside K P)
    (h : Derives d isAside g input ts rest) (hK : ∀ l ∈ input, K l) : ∀ t ∈ ts, P t := by
  induction h with
  | empty | finish | aside | done | behindGroup => exact fun t ht => absurd ht not_mem_nil
  | sign hread =>
    exact forall_of_readSolid hread (fun _ => hP.of_fromAside hK) fun l hl => hP.sign l (hK l hl)
  | leaf hread =>
    exact forall_of_readSolid hread (fun _ => hP.of_fromAside hK) fun l hl => hP.leaf l _ (hK l hl)
  | lineEnd hpass => exact fun t ht => hP.of_fromAside hK ((passAsides_eq_cons hpass).2 t ht)
  | rule _ ih | left _ ih | right _ ih | first _ ih | ahead _ ih | notAhead _ ih => exact ih hK
  | seq ha _ iha ihb | again ha _ iha ihb =>
    exact forall_mem_append.2 ⟨iha hK, ihb (ha.forall_rest hK)⟩
  | node _ ih => exact hP.of_enclose (ih hK)
  | step ha _ iha ihb => exact hP.of_graft (iha hK) (ihb (ha.forall_rest hK))
  | role _ ih =>
    refine forall_mem_map.2 fun t ht => ?_
    rw [assignRole]
    split
    · exact ih hK t ht
    · next haside => exact hP.role _ t (Bool.eq_false_iff.2 haside) (ih hK t ht)

end Derives

/-! ## Reading by the form of a grammar -/

/-- From lexemes with the property `K`, the grammar reads trees with the property `P`. -/
def Reads (d : Dialect κ φ ρ) (isAside : ParseTree κ → Bool) (K : Lexeme κ φ → Prop)
    (g : Grammar κ φ ρ) (P : List (ParseTree κ) → Prop) : Prop :=
  ∀ input ts rest, (∀ l ∈ input, K l) → Derives d isAside g input ts rest → P ts

section Reads

variable {K : Lexeme κ φ → Prop} {P Q R : List (ParseTree κ) → Prop}

theorem Reads.imp (h : Reads d isAside K g P) (hPQ : ∀ ts, P ts → Q ts) : Reads d isAside K g Q :=
  fun input ts rest hK hts => hPQ ts (h input ts rest hK hts)

theorem reads_rule {r : ρ} (hr : Reads d isAside K (d.rules r) P) :
    Reads d isAside K (.rule r) P := by
  intro input ts rest hK h
  cases h with
  | rule h => exact hr _ _ _ hK h

theorem reads_empty (hnil : P []) : Reads d isAside K .empty P := by
  intro input ts rest hK h
  cases h
  exact hnil

theorem reads_seq (ha : Reads d isAside K a P) (hb : Reads d isAside K b Q)
    (happend : ∀ us vs, P us → Q vs → R (us ++ vs)) : Reads d isAside K (.seq a b) R := by
  intro input ts rest hK h
  cases h with
  | seq hus hvs =>
    exact happend _ _ (ha _ _ _ hK hus) (hb _ _ _ (hus.forall_rest hK) hvs)

theorem reads_alt (ha : Reads d isAside K a P) (hb : Reads d isAside K b P) :
    Reads d isAside K (.alt a b) P := by
  intro input ts rest hK h
  cases h with
  | left h => exact ha _ _ _ hK h
  | right h => exact hb _ _ _ hK h

/-- By induction on the repetitions. -/
theorem reads_many (ha : Reads d isAside K a P) (hnil : P [])
    (happend : ∀ us vs, P us → P vs → P (us ++ vs)) : Reads d isAside K (.many a) P := by
  intro input ts rest hK h
  generalize hg : Grammar.many a = g at h
  induction h with
  | done => exact hnil
  | again hus _ _ ih =>
    cases hg
    exact happend _ _ (ha _ _ _ hK hus) (ih (hus.forall_rest hK) rfl)
  | _ => cases hg

theorem reads_node (ha : Reads d isAside K a P) (hnode : ∀ us, P us → Q (enclose isAside k us)) :
    Reads d isAside K (.node k a) Q := by
  intro input ts rest hK h
  cases h with
  | node h => exact hnode _ (ha _ _ _ hK h)

theorem reads_role {r : Role} (ha : Reads d isAside K a P)
    (hrole : ∀ us, P us → Q (us.map (assignRole isAside r))) :
    Reads d isAside K (.role r a) Q := by
  intro input ts rest hK h
  cases h with
  | role h => exact hrole _ (ha _ _ _ hK h)

theorem reads_notAhead (hb : Reads d isAside K b P) : Reads d isAside K (.notAhead a b) P := by
  intro input ts rest hK h
  cases h with
  | notAhead h => exact hb _ _ _ hK h

end Reads

/-! ## Runs -/

variable [DecidableEq κ] {n : Nat}

theorem extend_succ {onto : κ → Bool}
    (h : extend d isAside (n + 1) onto a ts input = some (us, rest)) :
    us = ts ∧ rest = input ∨ ∃ vs mid, run d isAside n a input = some (vs, mid) ∧
      extend d isAside n onto a (graft isAside ts vs) mid = some (us, rest) := by
  rw [extend] at h
  split at h
  · split at h
    · cases h
      exact .inl ⟨rfl, rfl⟩
    · next vs mid ha => exact .inr ⟨vs, mid, ha, h⟩
  · cases h
    exact .inl ⟨rfl, rfl⟩

/-- What a run reads, by the form of the grammar, given what runs with less fuel do. -/
theorem derives_of_run_succ
    (hrun : ∀ g input ts rest, run d isAside n g input = some (ts, rest) →
      Derives d isAside g input ts rest)
    (hextend : ∀ onto a step input ts mid us rest,
      Derives d isAside (.grow onto a step) input ts mid →
      extend d isAside n onto step ts mid = some (us, rest) →
      Derives d isAside (.grow onto a step) input us rest)
    (h : run d isAside (n + 1) g input = some (ts, rest)) : Derives d isAside g input ts rest := by
  cases g with
  | sign t => exact .sign h
  | leaf t k => exact .leaf h
  | rule r => exact .rule (hrun _ _ _ _ h)
  | reject => cases h
  | empty =>
    cases h
    exact .empty
  | lineEnd =>
    rw [run] at h
    split at h
    · next asides l rest' hpass =>
      split at h <;> cases h
      exact .lineEnd hpass
    · cases h
  | finish =>
    rw [run] at h
    split at h <;> cases h
    exact .finish
  | aside k =>
    rw [run] at h
    split at h <;> cases h
    exact .aside
  | seq a b =>
    rw [run] at h
    split at h
    · cases h
    · next us mid ha =>
      split at h <;> cases h
      next hb => exact .seq (hrun _ _ _ _ ha) (hrun _ _ _ _ hb)
  | alt a b =>
    rw [run] at h
    split at h
    · next ha =>
      cases h
      exact .left (hrun _ _ _ _ ha)
    · exact .right (hrun _ _ _ _ h)
  | many a =>
    rw [run] at h
    split at h
    · cases h
      exact .done
    · next us mid ha =>
      split at h <;> cases h
      next hmany => exact .again (hrun _ _ _ _ ha) (hrun _ _ _ _ hmany)
  | node k a =>
    rw [run] at h
    split at h <;> cases h
    next ha => exact .node (hrun _ _ _ _ ha)
  | grow onto a step =>
    rw [run] at h
    split at h
    · cases h
    · next ha => exact hextend _ _ _ _ _ _ _ _ (.first (hrun _ _ _ _ ha)) h
  | role r a =>
    rw [run] at h
    split at h <;> cases h
    next ha => exact .role (hrun _ _ _ _ ha)
  | ahead a b =>
    rw [run] at h
    split at h
    · cases h
    · exact .ahead (hrun _ _ _ _ h)
  | notAhead a b =>
    rw [run] at h
    split at h
    · exact .notAhead (hrun _ _ _ _ h)
    · cases h
  | behindGroup a =>
    rw [run] at h
    split at h
    · cases h
    · split at h <;> cases h
      exact .behindGroup

/-- What a run reads. (By induction on the fuel, for runs and their extensions at once.) -/
theorem derives_of_fuel (n : Nat) :
    (∀ g input ts rest, run d isAside n g input = some (ts, rest) →
      Derives d isAside g input ts rest) ∧
    ∀ onto a step input ts mid us rest, Derives d isAside (.grow onto a step) input ts mid →
      extend d isAside n onto step ts mid = some (us, rest) →
      Derives d isAside (.grow onto a step) input us rest := by
  induction n with
  | zero =>
    constructor
    · intro g input ts rest h
      cases h
    · intro onto a step input ts mid us rest _ h
      cases h
  | succ n ih =>
    obtain ⟨ihrun, ihextend⟩ := ih
    constructor
    · exact fun g input ts rest => derives_of_run_succ ihrun ihextend
    · intro onto a step input ts mid us rest hts h
      rcases extend_succ h with ⟨rfl, rfl⟩ | ⟨vs, mid', hstep, hextend⟩
      · exact hts
      · exact ihextend _ _ _ _ _ _ _ _ (.step hts (ihrun _ _ _ _ hstep)) hextend

theorem derives_of_run (h : run d isAside n g input = some (ts, rest)) :
    Derives d isAside g input ts rest :=
  (derives_of_fuel n).1 _ _ _ _ h

/-- The tree of a whole text: what is read of it, and the asides behind. -/
theorem derives_of_parse? {r : ρ} {tree : ParseTree κ}
    (h : d.parse? isAside r k input = some tree) :
    ∃ ts rest, Derives d isAside (.rule r) input ts rest ∧ (passAsides true rest).2 = [] ∧
      tree = .node k none (extentOf .origin (ts ++ (passAsides true rest).1))
        (ts ++ (passAsides true rest).1) := by
  rw [Dialect.parse?] at h
  split at h
  · cases h
  · next ts rest hrun =>
    split at h
    · next asides hpass =>
      cases h
      exact ⟨ts, rest, derives_of_run hrun, by rw [hpass], by rw [hpass]⟩
    · cases h

end CodeAtlas.Grammar
