import CodeAtlas.Php.Declaration
import CodeAtlas.Proofs.Grammar.Extent
import CodeAtlas.Proofs.Grammar.Solid
import CodeAtlas.Proofs.Php.Word

/-!
# Declarations in the trees of PHP files

Tests on the grammar tell what is known of the tree of a file: all nodes have parts, so that they
stand on the lines of the file; the name of a class is a word; and a namespace has one block at
most, which is its body.

* `onLines_of_parse?`: the lines of the trees in a file;
* `isWord_of_name`: the names of classes;
* `embodied_of_holds`: the bodies of namespaces.
-/

namespace CodeAtlas.Php

open Grammar List

variable {source : Source} {file t : ParseTree Kind}

/-- What stands at the place of the tree is made of the characters of names. -/
def IsWord (source : Source) (t : ParseTree Kind) : Prop :=
  ∀ c ∈ (t.text source).toList, isNamePart c = true

/-- The property of being a lexeme of the source. -/
def IsLexeme (source : Source) (l : Lexeme Kind Token) : Prop :=
  l ∈ lexemes .pause .comment source

/-- The kinds of asides. -/
def isAsideKind (k : Kind) : Bool := k == .comment || k == .pause

theorem lexed (source : Source) : Lexed isAside (IsLexeme source) isAsideKind where
  isAside_eq t := by
    cases t with
    | sign => rfl
    | node k => cases k <;> rfl
  aside l k hl hk := by
    rcases aside_of_form hl hk with rfl | rfl <;> rfl

/-! ## Lines -/

/-- The rule reads something whenever it matches. -/
def readsSome : Rule → Bool
  | .file | .statements => false
  | _ => true

/-- All nodes of PHP have parts. -/
theorem filled : Filled dialect isAside isAsideKind readsSome where
  isAside_eq := (lexed []).isAside_eq
  nodes r := by cases r <;> rfl
  solid r h := by cases r <;> first | rfl | cases h

theorem inOrder_lexemes (source : Source) :
    ∃ z, InOrder .origin ((lexemes Kind.pause .comment source).map Lexeme.extent) z ∧
      z.line ≤ source.length + 1 :=
  Grammar.inOrder_lexemes ..

/-- The parts of the tree of a file stand on its lines. -/
theorem onLines_of_parse? (h : parse? source = some file) :
    ∀ t ∈ file.parts, OnLines (source.length + 1) t := by
  obtain ⟨z, hz, hline⟩ := inOrder_lexemes source
  exact fun t ht => (Grammar.onLines_of_parse? filled hz h t ht).of_le hline

theorem endLine_of_parse? (h : parse? source = some file) :
    file.endLine ≤ source.length + 1 := by
  obtain ⟨z, hz, hline⟩ := inOrder_lexemes source
  exact Nat.le_trans (Grammar.endLine_of_parse? filled hz h) hline

/-! ## Names of classes -/

/-- What the grammar yields as names are single words. -/
def namesWords : G → Bool :=
  onlyBy (knows dialect 3) fun s => s.role != some .name || s.sort? == some .word

/-- The names among the parts are words. -/
def NamesAreWords (source : Source) (parts : List (ParseTree Kind)) : Prop :=
  ∀ p ∈ parts, p.role = some .name → IsWord source p

theorem namesAreWords_of_test {a : G} (ha : namesWords a) :
    Reads dialect isAside (IsLexeme source) a fun us =>
      NamesAreWords source (us.dropWhile isAside) := by
  intro input us rest hK h p hp hrole
  obtain ⟨s, hs, hlooks⟩ := h.looks_of_role (lexed source) hK ha
    ((dropWhile_sublist _).subset hp) hrole
  rw [← hlooks.role, hrole] at hs
  obtain ⟨l, hl, hform, hextent⟩ := hlooks.lexeme .word (eq_of_beq hs)
  rw [IsWord, ParseTree.text, hextent]
  exact all_isNamePart_of_word hl hform

/-- The name of a class is a word. -/
theorem isWord_of_name (hfile : parse? source = some file) (ht : Holds file t)
    (hclass : t.isKind .classDecl) {name : ParseTree Kind}
    (hname : t.part? .name = some name) : IsWord source name := by
  have hparts : PartsAre (· == .classDecl) (fun _ => NamesAreWords source) t := by
    refine parts_of_parse? (lexed source) (fun k hk => by cases k <;> first | rfl | cases hk)
      (fun r => ⟨?_, ?_⟩) (fun _ hl => hl) (by rfl) hfile ht
    · cases r <;> rfl
    · refine nodesRead_of_test (fun _ => namesWords) (fun _ _ => namesAreWords_of_test) ?_
      cases r <;> rfl
  obtain ⟨hmem, hrole⟩ := ParseTree.mem_of_part? hname
  exact hparts _ (ParseTree.isKind_iff.1 hclass) rfl name hmem hrole

/-! ## Bodies of namespaces -/

/-- No tree is a block or a body. -/
def Bodiless (ts : List (ParseTree Kind)) : Prop :=
  ∀ t ∈ ts, t.isKind .block = false ∧ t.role ≠ some .body

/-- The blocks are the body, if there is one. -/
def Embodied (ts : List (ParseTree Kind)) : Prop :=
  ts.filter (·.isKind .block) = (ts.find? (·.role == some .body)).toList

theorem Bodiless.embodied_append {us vs : List (ParseTree Kind)} (hus : Bodiless us)
    (hvs : Embodied vs) : Embodied (us ++ vs) := by
  have hblocks : us.filter (·.isKind .block) = [] :=
    filter_eq_nil_iff.2 fun t ht => by simp [(hus t ht).1]
  have hbody : us.find? (·.role == some .body) = none :=
    find?_eq_none.2 fun t ht => by simp [(hus t ht).2]
  rw [Embodied, filter_append, hblocks, List.find?_append, hbody]
  exact hvs

/-- Asides are neither blocks nor bodies. -/
theorem embodied_of_solid {ts : List (ParseTree Kind)} (hroleless : AsidesRoleless isAside ts)
    (h : Embodied (Grammar.solid isAside ts)) : Embodied ts := by
  rw [Embodied, find?_role_solid hroleless, ← h, Grammar.solid, filter_filter]
  refine filter_congr fun t _ => ?_
  cases t with
  | sign => rfl
  | node k => cases k <;> rfl

theorem bodiless_of_test {g : G} (hg : onlyBy (knows dialect 1)
    (fun s => s.kind? != some .block && s.role != some .body) g) :
    Makes dialect isAside (IsLexeme source) g Bodiless := by
  intro input ts rest hK h t ht
  obtain ⟨hmem, hsolid⟩ := mem_filter.1 ht
  obtain ⟨s, hs, hlooks⟩ := (h.looks (lexed source) hK hg t hmem).resolve_left
    (by simpa using hsolid)
  rw [← hlooks.kind?, ← hlooks.role, Bool.and_eq_true_iff, bne_iff_ne, bne_iff_ne] at hs
  exact ⟨Bool.eq_false_iff.2 fun h => hs.1 (ParseTree.isKind_iff.1 h), hs.2⟩

theorem makes_body : Makes dialect isAside (IsLexeme source) body Embodied := by
  have hone : MakesOne dialect isAside (IsLexeme source) body _ :=
    @one_of_tests _ _ _ _ _ _ _ _ _ (lexed source) 1 1
      (fun s => s.kind? == some .block && s.role == some .body) rfl rfl
  refine hone.makes.imp ?_
  rintro _ ⟨t, rfl, -, s, hs, hlooks⟩
  rw [← hlooks.kind?, ← hlooks.role, Bool.and_eq_true_iff, beq_iff_eq] at hs
  rw [Embodied, filter_cons_of_pos (ParseTree.isKind_iff.2 hs.1), find?_singleton,
    if_pos hs.2]
  rfl

/-- The parts of a namespace are its word, its name, and its body or what ends it. -/
theorem makes_namespace {a : G} (ha : .node .namespaceDecl a = namespaceDecl) :
    Makes dialect isAside (IsLexeme source) a Embodied := by
  cases ha
  have hend : Makes dialect isAside (IsLexeme source) terminator Embodied :=
    (bodiless_of_test rfl).imp fun us hus => us.append_nil ▸ hus.embodied_append rfl
  refine makes_seq (bodiless_of_test ?_) (reads_alt (makes_seq (bodiless_of_test ?_)
    (reads_alt hend makes_body) fun _ _ => Bodiless.embodied_append) makes_body)
    fun _ _ => Bodiless.embodied_append
  · rfl
  · rfl

/-- The blocks of a namespace are its body. -/
theorem embodied_of_holds (hfile : parse? source = some file) (ht : Holds file t)
    (hspace : t.isKind .namespaceDecl) : Embodied t.parts := by
  have hparts : PartsAre (· == .namespaceDecl) (fun _ => Embodied) t := by
    refine parts_of_parse? (lexed source) (fun k hk => by cases k <;> first | rfl | cases hk)
      (fun r => ⟨by cases r <;> rfl, fun x hx hkind => ?_⟩) (fun _ hl => hl) (by rfl) hfile ht
    have hmem : x ∈ (nodesIn (rules r)).filter (·.1 == .namespaceDecl) :=
      mem_filter.2 ⟨hx, hkind⟩
    cases r with
    | statement =>
      cases mem_singleton.1 hmem
      intro input us rest hK h
      refine embodied_of_solid (fun t ht => ?_)
        (solid_dropWhile us ▸ makes_namespace rfl _ _ _ hK h)
      exact h.kept (kept_roleless (lexed source)) hK t ((dropWhile_sublist _).subset ht)
    | _ => cases hmem
  exact hparts _ (ParseTree.isKind_iff.1 hspace) rfl

end CodeAtlas.Php
