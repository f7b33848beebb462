import Mathlib.Data.List.Perm.Basic
import CodeAtlas.Proofs.Metadata
import CodeAtlas.Proofs.Php.Statement

/-!
# Namespaces in PHP files

A namespace with a body is in force in this body; one without is in force for what follows it,
up to the next one without in the same body or file (`inForce`). So a file is a list of
entries: the names of its namespaces, and its declarations, each with the namespace in force
(`entriesAmong`). The namespace that is kept while a file is read, and restored behind a body,
is the one in force, since the blocks of a namespace are its body (`OneBody`). Declarations are
nodes of the tree, so that what is known of those is known of what an outline lists.

A type keeps its namespace. All other symbols, the members of types among them, are told the
package of the file instead, which is the first namespace that has a name.

* `readParts_eq`: reading is to enter the entries;
* `exists_outlineOf_eq`: what is read of a file;
* `Declaration.holds`, `isNamed_of_outline?`: where declarations are found, classes among them;
* `package_of_declared`: the packages of chunks.
-/

namespace CodeAtlas.Php

open Grammar List Option

variable {source : Source} {t : ParseTree Kind} (o : Outline) {before : List (ParseTree Kind)}

/-! ## Entries -/

/-- The name that a namespace is given, empty if it has none. -/
def spaceName (source : Source) (t : ParseTree Kind) : String :=
  ((t.part? .name).map (·.text source)).getD ""

/-- The tree declares a namespace for what follows it. -/
def opensRest (t : ParseTree Kind) : Bool :=
  t.isKind .namespaceDecl && (t.part? .body).isNone

/-- The namespace in force behind the nodes `before`, nearest first, in the body of the
    namespace `outer`. -/
def inForce (source : Source) (outer : String) (before : List (ParseTree Kind)) : String :=
  match before.find? opensRest with
  | some t => spaceName source t
  | none => outer

theorem inForce_cons_of_opens {outer : String} (h : opensRest t) :
    inForce source outer (t :: before) = spaceName source t := by
  rw [inForce, find?_cons_of_pos h]

theorem inForce_cons_of_not_opens {outer : String} (h : opensRest t = false) :
    inForce source outer (t :: before) = inForce source outer before := by
  rw [inForce, inForce, find?_cons_of_neg (by simp [h])]

/-- What a node declares, which may be nothing, and the namespace in force there. -/
structure Declaration where
  space : String
  kind : Kind
  site : Sited Kind

/-- What is found in a file: the name of a namespace, or a declaration. -/
inductive Entry where
  | space (name : String)
  | declaration (d : Declaration)

mutual

/-- The entries at a part of a file or of a namespace called `outer`; `before` are the nodes
    before it, nearest first. -/
def entriesAt (source : Source) (outer : String) (before : List (ParseTree Kind)) :
    ParseTree Kind → List Entry
  | .sign .. => []
  | .node kind r extent parts =>
    let t := ParseTree.node kind r extent parts
    match kind with
    | .namespaceDecl =>
      .space (spaceName source t) :: entriesWithin source (spaceName source t) parts
    | _ => [.declaration ⟨inForce source outer before, kind, before, t⟩]

/-- The entries in the blocks of a namespace. -/
def entriesWithin (source : Source) (name : String) : List (ParseTree Kind) → List Entry
  | [] => []
  | .sign .. :: ts => entriesWithin source name ts
  | .node kind _ _ parts :: ts =>
    match kind with
    | .block => entriesAmong source name [] parts ++ entriesWithin source name ts
    | _ => entriesWithin source name ts

/-- The entries among the parts of a file or of a namespace. -/
def entriesAmong (source : Source) (outer : String) (before : List (ParseTree Kind)) :
    List (ParseTree Kind) → List Entry
  | [] => []
  | t :: ts =>
    entriesAt source outer before t ++
      entriesAmong source outer (if t.isNode then t :: before else before) ts

end

/-- Enters what is found in a file. -/
def enter (source : Source) (o : Outline) : Entry → Outline
  | .space name => if o.package.isEmpty then { o with package := name } else o
  | .declaration d => (Progress.addDeclaration ⟨o, d.space⟩ source d.kind d.site).outline

theorem addDeclaration_eq (p : Progress) (kind : Kind) (s : Sited Kind) :
    p.addDeclaration source kind s =
      ⟨enter source p.outline (.declaration ⟨p.namespaceName, kind, s⟩), p.namespaceName⟩ := by
  cases kind <;> rfl

/-- The blocks of a namespace are its body. -/
def OneBody (t : ParseTree Kind) : Prop :=
  t.isKind .namespaceDecl = true → Embodied t.parts

theorem readBody_of_blockless {ts : List (ParseTree Kind)}
    (h : ts.filter (·.isKind .block) = []) (p : Progress) (name : String) :
    readBody source p ts = p ∧ entriesWithin source name ts = [] := by
  induction ts with
  | nil => exact ⟨by rw [readBody], by rw [entriesWithin]⟩
  | cons t ts ih =>
    have hnot : t.isKind .block = false := by
      have := filter_eq_nil_iff.1 h t mem_cons_self
      simpa using this
    rw [filter_cons_of_neg (by simp [hnot])] at h
    cases t with
    | sign => rw [readBody, entriesWithin]; exact ih h
    | node kind r e parts =>
      have hkind : kind ≠ .block := by
        rintro rfl
        cases hnot
      rw [readBody, entriesWithin]
      · exact ih h
      · exact hkind
      · exact hkind

section

variable {outer : String} {parts : List (ParseTree Kind)} {p : Progress} {r : Option Role}
  {e : Extent}

/-- Without a body, a namespace is in force for what follows, and nothing else is entered. -/
theorem readPart_of_bodiless (hbody : Embodied parts)
    (hnone : (ParseTree.node .namespaceDecl r e parts).part? .body = none) :
    readPart source before p (.node .namespaceDecl r e parts) =
      ⟨(entriesAt source outer before (.node .namespaceDecl r e parts)).foldl (enter source)
          p.outline,
        inForce source outer (.node .namespaceDecl r e parts :: before)⟩ := by
  let name := spaceName source (.node .namespaceDecl r e parts)
  have hblocks : parts.filter (·.isKind .block) = [] := hbody.trans (congrArg _ hnone)
  have hopens : opensRest (.node .namespaceDecl r e parts) := by
    simp [opensRest, hnone, ParseTree.isKind]
  obtain ⟨hread, hentries⟩ := readBody_of_blockless hblocks (p.enterNamespace name) name
  rw [readPart, entriesAt, hnone, hentries, inForce_cons_of_opens hopens]
  exact hread

/-- Any other node is entered, in the namespace that is in force. -/
theorem readPart_of_other {kind : Kind} (hkind : kind ≠ .namespaceDecl)
    (hp : p.namespaceName = inForce source outer before) :
    readPart source before p (.node kind r e parts) =
      ⟨(entriesAt source outer before (.node kind r e parts)).foldl (enter source) p.outline,
        inForce source outer (.node kind r e parts :: before)⟩ := by
  have hnot : opensRest (.node kind r e parts) = false := by
    simp [opensRest, ParseTree.isKind, Ne.symm hkind]
  rw [readPart, entriesAt]
  · rw [addDeclaration_eq, inForce_cons_of_not_opens hnot, hp]
    rfl
  · exact hkind
  · exact hkind

end

mutual

/-- Reading one part is to enter what is found there. Behind it, the namespace that is kept is
    the one in force. -/
theorem readPart_eq {outer : String} {before : List (ParseTree Kind)} {p : Progress}
    (hp : p.namespaceName = inForce source outer before) :
    ∀ t, Everywhere OneBody t → readPart source before p t =
      ⟨(entriesAt source outer before t).foldl (enter source) p.outline,
        inForce source outer (if t.isNode then t :: before else before)⟩
  | .sign .., _ => by
    rw [readPart, entriesAt]
    exact congrArg (Progress.mk p.outline) hp
  | .node kind r e parts, ht => by
    obtain ⟨hbody, hinner⟩ := everywhere_iff.1 ht
    by_cases hkind : kind = .namespaceDecl
    · subst hkind
      cases hpart : (ParseTree.node .namespaceDecl r e parts).part? .body with
      | none => exact readPart_of_bodiless (hbody rfl) hpart
      | some b =>
        have hblocks : parts.filter (·.isKind .block) = [b] :=
          (hbody rfl).trans (congrArg _ hpart)
        have hclosed : opensRest (.node .namespaceDecl r e parts) = false := by
          simp [opensRest, hpart]
        have houtline := @readBody_eq
          (p.enterNamespace (spaceName source (.node .namespaceDecl r e parts))) parts
          (by rw [hblocks]; exact Nat.le_refl _) hinner
        rw [readPart, entriesAt, foldl_cons, hpart]
        exact congrArg₂ Progress.mk houtline (hp.trans (inForce_cons_of_not_opens hclosed).symm)
    · exact readPart_of_other hkind hp

theorem readBody_eq {p : Progress} : ∀ ts : List (ParseTree Kind),
    (ts.filter (·.isKind .block)).length ≤ 1 → (∀ b ∈ ts, Everywhere OneBody b) →
    (readBody source p ts).outline =
      (entriesWithin source p.namespaceName ts).foldl (enter source) p.outline
  | [], _, _ => by
    rw [readBody, entriesWithin]
    rfl
  | .sign .. :: ts, hone, hts => by
    rw [readBody, entriesWithin]
    exact readBody_eq ts hone (forall_mem_cons.1 hts).2
  | .node kind r e parts :: ts, hone, hts => by
    obtain ⟨hblock, hrest⟩ := forall_mem_cons.1 hts
    by_cases hkind : kind = .block
    · subst hkind
      rw [filter_cons_of_pos rfl, length_cons] at hone
      have hnone : ts.filter (·.isKind .block) = [] := length_eq_zero_iff.1 (by omega)
      rw [readBody, entriesWithin, (readBody_of_blockless hnone _ p.namespaceName).1,
        (readBody_of_blockless hnone p p.namespaceName).2, append_nil]
      exact readParts_eq rfl parts (everywhere_iff.1 hblock).2
    · have hnot : (ParseTree.node kind r e parts).isKind .block = false :=
        decide_eq_false (Ne.symm hkind)
      rw [filter_cons_of_neg (by simp [hnot])] at hone
      rw [readBody, entriesWithin]
      · exact readBody_eq ts hone hrest
      · exact hkind
      · exact hkind

theorem readParts_eq {outer : String} {before : List (ParseTree Kind)} {p : Progress}
    (hp : p.namespaceName = inForce source outer before) :
    ∀ ts : List (ParseTree Kind), (∀ t ∈ ts, Everywhere OneBody t) →
      (readParts source before p ts).outline =
        (entriesAmong source outer before ts).foldl (enter source) p.outline
  | [], _ => by
    rw [readParts, entriesAmong]
    rfl
  | t :: ts, hts => by
    obtain ⟨ht, hts⟩ := forall_mem_cons.1 hts
    rw [readParts, entriesAmong, readPart_eq hp t ht, foldl_append]
    exact readParts_eq rfl ts hts

end

/-! ## Symbols -/

/-- The kind of type that a declaration makes. -/
def typeKind? : Kind → Option TypeKind
  | .classDecl => some .class
  | .interfaceDecl => some .interface
  | .traitDecl => some .trait
  | .enumDecl => some .enum
  | _ => none

namespace Declaration

variable (source : Source) (path : String) (d : Declaration)

/-- The function that is declared. -/
def functions : List Callable :=
  if d.kind = .functionDecl then [callableOf source path d.site] else []

/-- The type that is declared. -/
def types : List TypeDef :=
  ((typeKind? d.kind).bind fun kind => typeOf? source path d.space kind d.site).toList

/-- The constants that are declared. -/
def constants : List Binding :=
  if d.kind = .constDecl then constantsOf source path d.site else []

/-- The chunks of what is declared, in the outline of its file. -/
def chunks (o : Outline) : List Chunk :=
  (d.functions source o.path).map (fun f => o.callableChunk f .function f.constructs) ++
    (d.types source o.path).flatMap o.typeChunks ++
    (d.constants source o.path).map (o.bindingChunk · .const none)

end Declaration

/-- The declarations among entries. -/
def declarationsIn (es : List Entry) : List Declaration :=
  es.filterMap fun
    | .space _ => none
    | .declaration d => some d

/-- The names of namespaces among entries. -/
def spacesIn (es : List Entry) : List String :=
  es.filterMap fun
    | .space name => some name
    | .declaration _ => none

/-- The first name that is not empty. -/
def firstNamed (names : List String) : String :=
  (names.find? fun name => !name.isEmpty).getD ""

/-- The symbols of a declaration are added to those of the outline; imports apart, nothing else
    is. -/
theorem enter_declaration (d : Declaration) :
    ∃ imports, enter source o (.declaration d) =
      { o with
        imports
        functions := o.functions ++ d.functions source o.path
        types := o.types ++ d.types source o.path
        constants := o.constants ++ d.constants source o.path } := by
  obtain ⟨space, kind, site⟩ := d
  have hnone : ∀ imports : Imports, { o with imports } = ({ o with
      imports
      functions := o.functions ++ []
      types := o.types ++ []
      constants := o.constants ++ [] } : Outline) := by simp
  have htype : ∀ types : List TypeDef, { o with types := o.types ++ types } = ({ o with
      functions := o.functions ++ []
      types := o.types ++ types
      constants := o.constants ++ [] } : Outline) := by simp
  cases kind with
  | classDecl => exact ⟨o.imports, htype _⟩
  | interfaceDecl => exact ⟨o.imports, htype _⟩
  | traitDecl => exact ⟨o.imports, htype _⟩
  | enumDecl => exact ⟨o.imports, htype _⟩
  | functionDecl =>
    refine ⟨o.imports, ?_⟩
    simp [enter, Progress.addDeclaration, Declaration.functions, Declaration.types,
      Declaration.constants, typeKind?]
  | constDecl =>
    refine ⟨o.imports, ?_⟩
    simp [enter, Progress.addDeclaration, Declaration.functions, Declaration.types,
      Declaration.constants, typeKind?]
  | useDecl => exact ⟨_, hnone _⟩
  | _ => exact ⟨o.imports, hnone _⟩

theorem enter_space (name : String) :
    enter source o (.space name) =
      { o with package := if o.package.isEmpty then name else o.package } := by
  rw [enter]
  split <;> rfl

theorem firstNamed_singleton (name : String) : firstNamed [name] = name := by
  cases h : name.isEmpty with
  | false => simp [firstNamed, h]
  | true => simp [firstNamed, String.isEmpty_iff.1 h]

theorem firstNamed_cons_cons (package name : String) (names : List String) :
    firstNamed ((if package.isEmpty then name else package) :: names) =
      firstNamed (package :: name :: names) := by
  cases h : package.isEmpty <;> simp [firstNamed, h]

/-- What is entered of a file: the package is the first namespace with a name. -/
theorem foldl_enter (es : List Entry) :
    ∃ imports, es.foldl (enter source) o =
      { o with
        imports
        package := firstNamed (o.package :: spacesIn es)
        functions := o.functions ++ (declarationsIn es).flatMap (·.functions source o.path)
        types := o.types ++ (declarationsIn es).flatMap (·.types source o.path)
        constants := o.constants ++ (declarationsIn es).flatMap (·.constants source o.path) } := by
  induction es generalizing o with
  | nil => exact ⟨o.imports, by simp [declarationsIn, spacesIn, firstNamed_singleton]⟩
  | cons e es ih =>
    obtain ⟨imports, h⟩ := ih (enter source o e)
    refine ⟨imports, ?_⟩
    rw [foldl_cons, h]
    cases e with
    | space name =>
      rw [enter_space]
      simp only [firstNamed_cons_cons]
      rfl
    | declaration d =>
      obtain ⟨added, hd⟩ := @enter_declaration source o d
      rw [hd]
      simp [declarationsIn, spacesIn]

/-! ## Files -/

/-- The entries of a file. -/
def entriesOf (source : Source) (file : ParseTree Kind) : List Entry :=
  entriesAmong source "" [] file.parts

theorem outlineOf_eq_foldl {file : ParseTree Kind} (hfile : parse? source = some file)
    (path : String) :
    outlineOf path source file = (entriesOf source file).foldl (enter source)
      { language := .php, path := Path.slashed path } :=
  @readParts_eq source "" [] ⟨{ language := .php, path := Path.slashed path }, ""⟩ rfl
    file.parts fun _ ht _ hu => embodied_of_holds hfile (.head ht hu)

/-- The outline of a file lists the symbols of its declarations. -/
theorem exists_outlineOf_eq {file : ParseTree Kind} (hfile : parse? source = some file)
    (path : String) :
    ∃ imports, outlineOf path source file =
      { language := .php
        path := Path.slashed path
        imports
        package := firstNamed (spacesIn (entriesOf source file))
        functions := (declarationsIn (entriesOf source file)).flatMap
          (·.functions source (Path.slashed path))
        types := (declarationsIn (entriesOf source file)).flatMap
          (·.types source (Path.slashed path))
        constants := (declarationsIn (entriesOf source file)).flatMap
          (·.constants source (Path.slashed path)) } := by
  rw [outlineOf_eq_foldl hfile]
  exact foldl_enter ..

/-! ## Where declarations are found -/

mutual

/-- What is entered as a declaration is a node of its kind. -/
theorem holds_of_mem_entriesAt {outer : String} {before : List (ParseTree Kind)}
    {d : Declaration} : ∀ t : ParseTree Kind, .declaration d ∈ entriesAt source outer before t →
      Holds t d.site.tree ∧ d.site.tree.isKind d.kind
  | .sign .., h => by
    rw [entriesAt] at h
    cases h
  | .node kind r e parts, h => by
    by_cases hkind : kind = .namespaceDecl
    · subst hkind
      rw [entriesAt] at h
      obtain ⟨t, ht, hd⟩ := holds_of_mem_entriesWithin parts
        (mem_of_ne_of_mem (by rintro ⟨⟩) h)
      exact ⟨.head ht hd.1, hd.2⟩
    · rw [entriesAt] at h
      · cases mem_singleton.1 h
        exact ⟨.refl, decide_eq_true rfl⟩
      · exact hkind

theorem holds_of_mem_entriesWithin {name : String} {d : Declaration} :
    ∀ ts : List (ParseTree Kind), .declaration d ∈ entriesWithin source name ts →
      ∃ t ∈ ts, Holds t d.site.tree ∧ d.site.tree.isKind d.kind
  | [], h => by
    rw [entriesWithin] at h
    cases h
  | .sign .. :: ts, h => by
    rw [entriesWithin] at h
    obtain ⟨t, ht, hd⟩ := holds_of_mem_entriesWithin ts h
    exact ⟨t, mem_cons_of_mem _ ht, hd⟩
  | .node kind r e parts :: ts, h => by
    have hrest : .declaration d ∈ entriesWithin source name ts → ∃ t ∈ .node kind r e parts :: ts,
        Holds t d.site.tree ∧ d.site.tree.isKind d.kind := fun h => by
      obtain ⟨t, ht, hd⟩ := holds_of_mem_entriesWithin ts h
      exact ⟨t, mem_cons_of_mem _ ht, hd⟩
    by_cases hkind : kind = .block
    · subst hkind
      rw [entriesWithin] at h
      rcases mem_append.1 h with h | h
      · obtain ⟨t, ht, hd⟩ := holds_of_mem_entriesAmong parts h
        exact ⟨_, mem_cons_self, .head ht hd.1, hd.2⟩
      · exact hrest h
    · rw [entriesWithin] at h
      · exact hrest h
      · exact hkind

theorem holds_of_mem_entriesAmong {outer : String} {before : List (ParseTree Kind)}
    {d : Declaration} : ∀ ts : List (ParseTree Kind),
      .declaration d ∈ entriesAmong source outer before ts →
        ∃ t ∈ ts, Holds t d.site.tree ∧ d.site.tree.isKind d.kind
  | [], h => by
    rw [entriesAmong] at h
    cases h
  | t :: ts, h => by
    rw [entriesAmong] at h
    rcases mem_append.1 h with h | h
    · exact ⟨t, mem_cons_self, holds_of_mem_entriesAt t h⟩
    · obtain ⟨u, hu, hd⟩ := holds_of_mem_entriesAmong ts h
      exact ⟨u, mem_cons_of_mem _ hu, hd⟩

end

namespace Declaration

variable {path : String} {d : Declaration} {file : ParseTree Kind}

theorem holds (hd : d ∈ declarationsIn (entriesOf source file)) :
    ∃ t ∈ file.parts, Holds t d.site.tree ∧ d.site.tree.isKind d.kind := by
  obtain ⟨e, he, hd⟩ := mem_filterMap.1 hd
  cases e with
  | space => cases hd
  | declaration =>
    cases hd
    exact holds_of_mem_entriesAmong file.parts he

/-- Declarations stand on the lines of the file. -/
theorem onLines (hfile : parse? source = some file)
    (hd : d ∈ declarationsIn (entriesOf source file)) :
    OnLines (source.length + 1) d.site.tree := by
  obtain ⟨t, ht, hholds, -⟩ := holds hd
  exact (onLines_of_parse? hfile t ht).of_holds hholds

theorem eq_of_mem_functions {f : Callable} (hf : f ∈ d.functions source path) :
    f = callableOf source path d.site := by
  rw [functions] at hf
  split at hf
  · exact mem_singleton.1 hf
  · cases hf

theorem mem_constantsOf {b : Binding} (hb : b ∈ d.constants source path) :
    b ∈ constantsOf source path d.site := by
  rw [constants] at hb
  split at hb
  · exact hb
  · cases hb

theorem typeOf?_eq {t : TypeDef} (ht : t ∈ d.types source path) :
    ∃ kind, typeKind? d.kind = some kind ∧ typeOf? source path d.space kind d.site = some t :=
  bind_eq_some_iff.1 (mem_toList.1 ht)

end Declaration

/-- If the type is a class, it starts on a line counted from one, and its name has no
    backslash in it. -/
def ClassIsNamed (t : TypeDef) : Prop :=
  t.kind = .class → 1 ≤ t.span.startLine ∧ '\\' ∉ t.name.toList

theorem isNamed_of_outline? {path : String} {o : Outline} (h : outline? path source = some o) :
    o.language = .php ∧ ∀ t ∈ o.types, ClassIsNamed t := by
  obtain ⟨file, hfile, rfl⟩ := map_eq_some_iff.1 h
  obtain ⟨imports, ho⟩ := exists_outlineOf_eq hfile path
  rw [ho]
  refine ⟨rfl, fun t ht hclass => ?_⟩
  obtain ⟨d, hd, ht⟩ := mem_flatMap.1 ht
  obtain ⟨u, hu, hholds, hkind⟩ := Declaration.holds hd
  obtain ⟨kind, hdeclares, ht⟩ := Declaration.typeOf?_eq ht
  obtain ⟨name, hname, ⟨⟩⟩ := bind_eq_some_iff.1 ht
  have hdecl : d.kind = .classDecl := by
    revert hdeclares
    rw [show kind = .class from hclass]
    cases d.kind <;> first | exact fun _ => rfl | rintro ⟨⟩
  rw [hdecl] at hkind
  refine ⟨(Declaration.onLines hfile hd).first, fun hmem => ?_⟩
  have hword := isWord_of_name hfile (.head hu hholds) hkind hname _ hmem
  cases hword

end CodeAtlas.Php

namespace CodeAtlas

open List Option

variable {t : TypeDef}

/-- The chunk is one of a type. -/
def ChunkKind.isType : ChunkKind → Bool
  | .class | .interface | .trait | .type => true
  | _ => false

namespace Outline

variable {o : Outline}

/-- What is no type tells the package of the unit. -/
theorem package_of_bare {c : Chunk} {kind : ChunkKind} {name file : String} {s : Span}
    {signature docstring code : String} {parent : Option String} (hkind : kind.isType = false)
    (h : c.bare = { o.baseChunk kind name file s with parent, signature, docstring, code })
    (space : String) :
    c.package = if c.kind.isType ∧ space ≠ "" then space else o.package := by
  rw [baseChunk_eq] at h
  have hown : c.kind = kind := congrArg Chunk.kind h
  rw [if_neg (by simp [hown, hkind])]
  exact congrArg Chunk.package h

/-- The chunk of a type tells its namespace, if it has a name, and those of its members the
    package of the unit. -/
theorem package_of_mem_typeChunks : ∀ c ∈ o.typeChunks t,
    c.package = if c.kind.isType ∧ t.namespaceName ≠ "" then t.namespaceName else o.package := by
  refine forall_typeChunks (fun methods _ => ?_)
    (fun _ _ => package_of_bare rfl (bare_callableChunk ..) _)
    (fun _ _ => package_of_bare rfl (bare_propertyChunk ..) _)
    fun _ _ => package_of_bare rfl ((Chunk.bare_setFlag ..).trans (bare_bindingChunk ..)) _
  have hpackage : ((o.typeChunk t).setMeta "methods" methods).package =
      if t.namespaceName.isEmpty then o.package else t.namespaceName :=
    congrArg Chunk.package ((Chunk.bare_setMeta _ methods).trans (o.bare_typeChunk t))
  have hkind : ((o.typeChunk t).setMeta "methods" methods).kind.isType := by
    rw [kind_typeChunk_setMeta]
    cases t.kind <;> rfl
  rw [hpackage, hkind]
  by_cases hname : t.namespaceName = "" <;> simp [hname]

end Outline

namespace Php

open Grammar

variable {source : Source} {d : Declaration}

/-- The type of a declaration keeps the namespace in force there. -/
theorem namespaceName_of_mem_types {path : String} (ht : t ∈ d.types source path) :
    t.namespaceName = d.space := by
  obtain ⟨kind, -, ht⟩ := Declaration.typeOf?_eq ht
  obtain ⟨name, -, ⟨⟩⟩ := bind_eq_some_iff.1 ht
  rfl

theorem package_of_mem_chunks {o : Outline} {c : Chunk} (hc : c ∈ d.chunks source o) :
    c.package = if c.kind.isType ∧ d.space ≠ "" then d.space else o.package := by
  simp only [Declaration.chunks, mem_append, List.mem_map, mem_flatMap] at hc
  rcases hc with (⟨f, hf, rfl⟩ | ⟨t, ht, hc⟩) | ⟨b, hb, rfl⟩
  · exact Outline.package_of_bare rfl (Outline.bare_callableChunk ..) _
  · rw [← namespaceName_of_mem_types ht]
    exact Outline.package_of_mem_typeChunks _ hc
  · exact Outline.package_of_bare rfl (Outline.bare_bindingChunk ..) _

/-- The chunks of symbols that are listed by declarations. -/
theorem chunks_perm (path package : String) (imports : Imports) (ds : List Declaration) :
    let o : Outline :=
      { language := .php, path, package, imports
        functions := ds.flatMap (·.functions source path)
        types := ds.flatMap (·.types source path)
        constants := ds.flatMap (·.constants source path) }
    o.chunks.Perm (ds.flatMap (·.chunks source o)) := by
  intro o
  have hchunks : o.chunks =
      ds.flatMap (fun d => (d.functions source path).map fun f =>
        o.callableChunk f .function f.constructs) ++
      ds.flatMap (fun d => (d.types source path).flatMap o.typeChunks) ++
      ds.flatMap (fun d => (d.constants source path).map (o.bindingChunk · .const none)) := by
    simp [Outline.chunks, Outline.fileChunk?, o, map_flatMap, flatMap_assoc]
  rw [hchunks]
  exact ((flatMap_append_perm ds _ _).append_right _).trans
    (flatMap_append_perm ds _ _)

/-- The chunks of a file are those of its declarations. The package of the file is the first
    namespace in it that has a name. A chunk tells the namespace in force where it is declared
    if this is the package, or if it is the chunk of a type and the namespace has a name; if not,
    it tells the package of the file. -/
theorem package_of_declared {file : ParseTree Kind} (hfile : parse? source = some file)
    (path : String) :
    ∃ o, outline? path source = some o ∧
      o.package = firstNamed (spacesIn (entriesOf source file)) ∧
      o.chunks.Perm ((declarationsIn (entriesOf source file)).flatMap (·.chunks source o)) ∧
      ∀ d ∈ declarationsIn (entriesOf source file), ∀ c ∈ d.chunks source o,
        c.package = (if c.kind.isType ∧ d.space ≠ "" then d.space else o.package) ∧
          (c.package = d.space ↔ d.space = o.package ∨ (c.kind.isType ∧ d.space ≠ "")) := by
  obtain ⟨imports, ho⟩ := exists_outlineOf_eq hfile path
  refine ⟨outlineOf path source file, ?_, ?_, ?_, fun d hd c hc => ?_⟩
  · rw [outline?, hfile]
    rfl
  · rw [ho]
  · rw [ho]
    exact chunks_perm _ _ _ _
  · have hpackage := package_of_mem_chunks hc
    refine ⟨hpackage, ?_⟩
    rw [hpackage]
    split
    · next htype => exact iff_of_true rfl (.inr htype)
    · next htype => rw [or_iff_left htype, eq_comm]

/-- A file with two namespaces that have a name and one that has none. -/
def threeSpaces : Source :=
  [ "<?php\n", "namespace A \x7b function f() \x7b\x7d \x7d\n"
  , "namespace B \x7b class K \x7b const C = 1; \x7d \x7d\n"
  , "namespace \x7b class G \x7b\x7d \x7d\n" ].flatMap Source.ofString

theorem package_of_declared_threeSpaces :
    ∃ file o, parse? threeSpaces = some file ∧ outline? "m.php" threeSpaces = some o ∧
      o.package = "A" ∧
      o.chunks.Perm ((declarationsIn (entriesOf threeSpaces file)).flatMap
        (·.chunks threeSpaces o)) ∧
      ∀ d ∈ declarationsIn (entriesOf threeSpaces file), ∀ c ∈ d.chunks threeSpaces o,
        c.package = d.space ↔ d.space = "A" ∨ (c.kind.isType ∧ d.space ≠ "") := by
  obtain ⟨file, hfile, hfirst⟩ : ∃ file, parse? threeSpaces = some file ∧
      firstNamed (spacesIn (entriesOf threeSpaces file)) = "A" :=
    map_eq_some_iff.1 (by decide +kernel)
  obtain ⟨o, houtline, hpackage, hchunks, hall⟩ := package_of_declared hfile "m.php"
  rw [hfirst] at hpackage
  rw [hpackage] at hall
  exact ⟨file, o, hfile, houtline, hpackage, hchunks, fun d hd c hc => (hall d hd c hc).2⟩

/-- Neither the constant of a class of the second namespace nor the class without a namespace
    tells the namespace it is declared in: the columns are the name, the namespace in force and
    the package told. -/
theorem member_told_first_namespace :
    ∃ file, parse? threeSpaces = some file ∧
      (declarationsIn (entriesOf threeSpaces file)).flatMap (fun d =>
        (d.chunks threeSpaces (outlineOf "m.php" threeSpaces file)).map fun c =>
          (c.name, d.space, c.package)) =
        [("f", "A", "A"), ("K", "B", "B"), ("C", "B", "A"), ("G", "", "A")] :=
  map_eq_some_iff.1 (by decide +kernel)

end Php

end CodeAtlas
