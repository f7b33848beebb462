import CodeAtlas.Go.Declaration
import CodeAtlas.Proofs.Go.Word
import CodeAtlas.Proofs.Grammar.Extent

/-!
# Names in Go files

What declares a function, a method or a type has a name, which is a word. Constants and variables
may have several names, among which there may be commas; none of them holds the sign `#`. All this
is told by tests on the grammar, and so is that every node has parts, so that the trees in a file
stand on its lines.

* `onLines_of_parse?`: the lines of the trees in a file;
* `exists_name`, `mark_not_mem_of_holds`: the names in a file;
* `holds_of_mem_specs`: specifications are nodes of their declaration.
-/

namespace CodeAtlas.Go

open Grammar List

variable {source : Source} {file t : ParseTree Kind}

/-- What stands at the place of the tree is made of the characters of words. -/
def IsWord (source : Source) (t : ParseTree Kind) : Prop :=
  ∀ c ∈ (t.text source).toList, isWordPart c = true

/-- The property of being a lexeme of the source. -/
def IsLexeme (source : Source) (l : Lexeme Kind Token) : Prop :=
  l ∈ lexemes .comment source

theorem lexed (source : Source) : Lexed isComment (IsLexeme source) (· == .comment) where
  isAside_eq t := by
    cases t with
    | sign => rfl
    | node k => cases k <;> rfl
  aside l k hl hk := by
    rw [aside_of_form hl hk]
    rfl

/-! ## Tests -/

/-- All rules. -/
def allRules : List Rule :=
  [.file, .topLevel, .statement, .statements, .block, .ifStatement, .declaration, .params, .param,
    .namedParam, .typeParams, .fields, .structField, .interfaceElem, .literalValue, .args] ++
  [Ctx.mk false false, ⟨false, true⟩, ⟨true, false⟩, ⟨true, true⟩].flatMap fun c =>
    [.simple c, .type c, .bareType c, .namedType c, .typeElem c, .expr c, .unary c, .postfixed c,
      .primary c, .exprList c]

/-- A test of rules may be run on all of them. -/
theorem of_allRules {test : Rule → Bool} (h : allRules.all test) (r : Rule) :
    test r := by
  refine all_eq_true.1 h r ?_
  cases r with
  | simple c | type c | bareType c | namedType c | typeElem c | expr c | unary c | postfixed c
  | primary c | exprList c =>
    obtain ⟨_ | _, _ | _⟩ := c <;> simp [allRules]
  | _ => simp [allRules]

/-- The rule reads something whenever it matches. -/
def readsSome : Rule → Bool
  | .file | .statements => false
  | _ => true

/-- All nodes of Go have parts. -/
theorem filled : Filled dialect isComment (· == .comment) readsSome where
  isAside_eq := (lexed []).isAside_eq
  nodes := of_allRules rfl
  solid r h := by
    have htest := @of_allRules
      (fun r => !readsSome r || takesSolid (· == .comment) readsSome (rules r)) rfl r
    rw [h] at htest
    exact htest

/-- The parts of the tree of a file stand on its lines. -/
theorem onLines_of_parse? (h : parse? source = some file) :
    ∀ t ∈ file.parts, OnLines (source.length + 1) t := by
  have horder : ∃ z, InOrder .origin ((lexemes Kind.comment source).map Lexeme.extent) z ∧
      z.line ≤ source.length + 1 := inOrder_lexemes ..
  obtain ⟨z, hz, hline⟩ := horder
  exact fun t ht => (Grammar.onLines_of_parse? filled hz h t ht).of_le hline

/-! ## Names -/

/-- The kinds of nodes that declare something under one name. -/
def namingKinds : List Kind := .funcDecl :: .methodDecl :: typeKinds

/-- The kinds of nodes that declare something under several names. -/
def listingKinds : List Kind := [.constSpec, .varSpec]

/-- What the grammar yields as names are single lexemes of some sorts. -/
def namesBy (sorts : List Token) : G → Bool :=
  onlyBy (knows dialect 4) fun s => s.role != some .name || s.sort?.any sorts.contains

/-- What the names of a node are made of, and that there is one. -/
def namesTest (k : Kind) (a : G) : Bool :=
  if namingKinds.contains k then namesBy [.word] a && bears (· == .comment) .name a
  else namesBy [.word, .sign] a

/-- The names among the parts are lexemes of some sorts. -/
def NamesAre (source : Source) (sorts : List Token) (parts : List (ParseTree Kind)) : Prop :=
  ∀ p ∈ parts, p.role = some .name →
    ∃ l, IsLexeme source l ∧ (∃ sort ∈ sorts, l.form = .solid sort) ∧ p.extent = l.extent

theorem namesAre_of_namesBy {sorts : List Token} {a : G} (ha : namesBy sorts a) :
    Reads dialect isComment (IsLexeme source) a fun us =>
      NamesAre source sorts (us.dropWhile isComment) := by
  intro input us rest hK h p hp hrole
  obtain ⟨s, hs, hlooks⟩ := h.looks_of_role (lexed source) hK ha
    ((dropWhile_sublist _).subset hp) hrole
  rw [← hlooks.role, hrole] at hs
  obtain ⟨sort, hsort, hmem⟩ := (Option.any_eq_true _ _).1 hs
  obtain ⟨l, hl, hform, hextent⟩ := hlooks.lexeme sort hsort
  exact ⟨l, hl, ⟨sort, contains_iff_mem.1 hmem, hform⟩, hextent⟩

/-- What is known of the names of a node. -/
def WellNamed (source : Source) (k : Kind) (parts : List (ParseTree Kind)) : Prop :=
  if namingKinds.contains k then
    NamesAre source [.word] parts ∧ ∃ p ∈ parts, p.role = some .name
  else NamesAre source [.word, .sign] parts

theorem wellNamed_of_namesTest {k : Kind} {a : G} (h : namesTest k a) :
    Reads dialect isComment (IsLexeme source) a fun us =>
      WellNamed source k (us.dropWhile isComment) := by
  rw [namesTest] at h
  split at h
  · next hk =>
    obtain ⟨hnames, hbears⟩ := Bool.and_eq_true_iff.1 h
    intro input us rest hK hus
    rw [WellNamed, if_pos hk]
    obtain ⟨p, hp, hrole⟩ := hus.bears (lexed source) hbears
    exact ⟨namesAre_of_namesBy hnames _ _ _ hK hus, p,
      hus.mem_dropWhile (lexed source) hK hp hrole, hrole⟩
  · next hk =>
    refine (namesAre_of_namesBy h).imp fun us hus => ?_
    rw [WellNamed, if_neg hk]
    exact hus

/-- The names of the nodes in a file. -/
theorem wellNamed_of_holds (hfile : parse? source = some file) (ht : Holds file t) :
    PartsAre (namingKinds ++ listingKinds).contains (WellNamed source) t := by
  refine parts_of_parse? (lexed source) (fun k hk => by rw [eq_of_beq hk]; rfl) (fun r => ?_)
    (fun _ hl => hl) (by rfl) hfile ht
  have htest := @of_allRules (fun r =>
    apart dialect (namingKinds ++ listingKinds).contains (rules r) &&
      (nodesIn (rules r)).all fun x =>
        !(namingKinds ++ listingKinds).contains x.1 || namesTest x.1 x.2) rfl r
  obtain ⟨hapart, hnodes⟩ := Bool.and_eq_true_iff.1 htest
  exact ⟨hapart, nodesRead_of_test namesTest (fun _ _ => wellNamed_of_namesTest) hnodes⟩

/-- A name that is a word. -/
theorem exists_name (hfile : parse? source = some file) (ht : Holds file t)
    (hkind : namingKinds.any t.isKind) :
    ∃ name, t.part? .name = some name ∧ isWord (name.text source) := by
  obtain ⟨k, hk, hkind⟩ := any_eq_true.1 hkind
  have hnamed := wellNamed_of_holds hfile ht k (ParseTree.isKind_iff.1 hkind)
    (contains_iff_mem.2 (mem_append_left _ hk))
  rw [WellNamed, if_pos (contains_iff_mem.2 hk)] at hnamed
  obtain ⟨hwords, p, hp, hrole⟩ := hnamed
  have hpart : (t.part? .name).isSome :=
    find?_isSome.2 ⟨p, hp, beq_iff_eq.2 hrole⟩
  obtain ⟨name, hname⟩ := Option.isSome_iff_exists.1 hpart
  obtain ⟨hmem, hrole⟩ := ParseTree.mem_of_part? hname
  obtain ⟨l, hl, ⟨sort, hsort, hform⟩, hextent⟩ := hwords name hmem hrole
  cases mem_singleton.1 hsort
  refine ⟨name, hname, ?_⟩
  rw [ParseTree.text, hextent]
  exact isWord_of_word hl hform

/-- Words do not hold the sign of numbers. -/
theorem mark_not_mem_of_isWord {s : String} (h : isWord s) : '#' ∉ s.toList := by
  intro hmem
  have hpart : isWordPart '#' = false := by decide +kernel
  have hall := all_eq_true.1 (Bool.and_eq_true_iff.1 h).2 _ hmem
  exact Bool.false_ne_true (hpart.symm.trans hall)

/-- The names of constants and variables do not hold the sign of numbers. -/
theorem mark_not_mem_of_holds (hfile : parse? source = some file) (ht : Holds file t)
    (hkind : listingKinds.any t.isKind) {name : ParseTree Kind}
    (hname : name ∈ t.partsAs .name) : '#' ∉ (name.text source).toList := by
  obtain ⟨k, hk, hkind⟩ := any_eq_true.1 hkind
  have hnamed := wellNamed_of_holds hfile ht k (ParseTree.isKind_iff.1 hkind)
    (contains_iff_mem.2 (mem_append_right _ hk))
  have hother : ∀ k ∈ listingKinds, namingKinds.contains k = false := by decide
  rw [WellNamed, hother k hk] at hnamed
  obtain ⟨hmem, hrole⟩ := mem_filter.1 hname
  obtain ⟨l, hl, ⟨sort, hsort, hform⟩, hextent⟩ := hnamed name hmem (eq_of_beq hrole)
  rw [ParseTree.text, hextent]
  simp only [mem_cons, not_mem_nil, or_false] at hsort
  rcases hsort with rfl | rfl
  · exact mark_not_mem_of_isWord (isWord_of_word hl hform)
  · have hsigns : ∀ chars ∈ signs, '#' ∉ chars := by decide
    exact hsigns _ (toList_mem_signs hl hform)

/-! ## Specifications -/

theorem holds_of_mem_specs {kinds : List Kind} {decl : ParseTree Kind} {spec : Sited Kind}
    (hspec : spec ∈ specs kinds decl) :
    Holds decl spec.tree ∧ kinds.any spec.tree.isKind := by
  obtain ⟨s, hs, hspec⟩ := mem_flatMap.1 hspec
  have hpart := Sited.tree_mem_parts hs
  split at hspec
  · next hkind =>
    cases mem_singleton.1 hspec
    exact ⟨.single hpart, hkind⟩
  · split at hspec
    · obtain ⟨hspec, hkind⟩ := mem_filter.1 hspec
      exact ⟨.tail (.single hpart) (Sited.tree_mem_parts hspec), hkind⟩
    · cases hspec

end CodeAtlas.Go
