import CodeAtlas.Proofs.Php.Namespace
import CodeAtlas.Proofs.Spacing

/-!
# Imports in PHP files

A clause of an import declaration names a class by the words of its path, behind those in
front of its group if it is in one, and may give it another name (`Clause.meant`). What is
entered is read off the text of the clause. It is what the clause means if the text is no
more than the path, or the path, one of two spellings of a word, and the name (`Spells`); a
comment, white space within the path or another spelling of the word is read as part of the
names. A declaration that is marked as a whole as one of functions or constants is passed
over, but a clause that is marked itself is entered as if it named a class.

* `spells_readClause`, `readClause_of_plain`, `readClause_of_renamed`: what is read off a text;
* `Clause.entry_eq_meant_iff`: what is entered for a clause;
* `imports_outlineOf`: what is entered of a file.
-/

namespace CodeAtlas.Php

open Grammar Text List

variable {word : String}

/-! ## The text of a clause -/

/-- The words between the path and the name, with the blanks around them. -/
def renamers : List String := [" as ", " AS "]

/-- The path and the name on either side of such a word. -/
def cutName? (s : List Char) : Option (List Char × List Char) :=
  match cutAt? " as ".toList s, cutAt? " AS ".toList s with
  | some cut, _ => some cut
  | none, cut => cut

/-- The text of a clause without the word that marks it. -/
def unmark (s : List Char) : List Char :=
  match strip? "function ".toList s, strip? "const ".toList s with
  | some rest, _ => rest
  | none, some rest => rest
  | none, none => s

/-- A path behind the one in front of its group. -/
def inGroup : Option String → List Char → List Char
  | some g, path => g.toList ++ '\\' :: path
  | none, path => path

/-- The import that is read off the text of a clause in a group. -/
def readClause (group : Option String) (s : List Char) : Import :=
  let cut := cutName? s
  let path := (match cut with
    | some (path, _) => trim path
    | none => trim s).dropWhile (· == '\\')
  let name := match cut with
    | some (_, name) => trim name
    | none => afterLast '\\' (inGroup group path)
  ⟨String.ofList name, String.ofList (inGroup group path)⟩

theorem importOf_eq (source : Source) (group : Option String) (clause : ParseTree Kind) :
    importOf source group clause =
      readClause group (unmark (collapse (clause.text source).toList)) := by
  cases group <;> rfl

/-- The text spells the import: it is the target, under its last part as name; or the target,
    a word for renaming and the name. -/
def Spells (written : List Char) (i : Import) : Prop :=
  (written = i.target.toList ∧ i.name.toList = afterLast '\\' written) ∨
    ∃ word ∈ renamers, written = i.target.toList ++ (word.toList ++ i.name.toList)

instance (written : List Char) (i : Import) : Decidable (Spells written i) :=
  inferInstanceAs (Decidable (_ ∨ _))

section

variable {s t name : List Char}

theorem exists_of_cutName? (h : cutName? s = some (t, name)) :
    ∃ word ∈ renamers, s = t ++ (word.toList ++ name) := by
  rw [cutName?] at h
  split at h
  · next cut hcut =>
    cases h
    exact ⟨" as ", by simp [renamers], eq_of_cutAt? hcut⟩
  · exact ⟨" AS ", by simp [renamers], eq_of_cutAt? h⟩

theorem cutName?_eq_none (h : ' ' ∉ s) : cutName? s = none := by
  have hcut : ∀ sep : List Char, cutAt? (' ' :: sep) s = none := fun _ => cutAt?_eq_none h
  exact (by simp [cutName?, hcut])

theorem cutName?_append (hword : word ∈ renamers) (ht : ' ' ∉ t) (hname : ' ' ∉ name) :
    cutName? (t ++ (word.toList ++ name)) = some (t, name) := by
  simp only [renamers, mem_cons, not_mem_nil, or_false] at hword
  rcases hword with rfl | rfl
  · have hcut : cutAt? " as ".toList (t ++ (" as ".toList ++ name)) = some (t, name) :=
      cutAt?_append ht name
    rw [cutName?, hcut]
  · have hcut : cutAt? " AS ".toList (t ++ (" AS ".toList ++ name)) = some (t, name) :=
      cutAt?_append ht name
    have hstrip : strip? ['a', 's', ' '] name = none := by
      rw [Option.eq_none_iff_forall_ne_some]
      intro rest h
      exact hname (by simp [strip?_eq_some_iff.1 h])
    have hrest : cutAt? [' ', 'a', 's', ' '] name = none := cutAt?_eq_none hname
    have hother : cutAt? [' ', 'a', 's', ' '] (t ++ (" AS ".toList ++ name)) = none := by
      rw [cutAt?_append_of_not_mem ht]
      simp [cutAt?, strip?, hstrip, hrest]
    have hnone : cutAt? " as ".toList (t ++ (" AS ".toList ++ name)) = none := hother
    rw [cutName?, hcut, hnone]

theorem exists_renamer (h : word ∈ renamers) :
    ∃ letters, word.toList = ' ' :: (letters ++ [' ']) ∧ '\\' ∉ word.toList := by
  simp only [renamers, mem_cons, not_mem_nil, or_false] at h
  rcases h with rfl | rfl
  · exact ⟨['a', 's'], rfl, by decide⟩
  · exact ⟨['A', 'S'], rfl, by decide⟩

/-- The path and the name have no white space at their ends. -/
theorem trim_of_renamed (hword : word ∈ renamers) (hs : Neat (t ++ (word.toList ++ name))) :
    trim t = t ∧ trim name = name := by
  obtain ⟨letters, hletters, -⟩ := exists_renamer hword
  rw [hletters, cons_append, append_assoc, neat_append_blank] at hs
  exact ⟨trim_of_neat hs.1, trim_of_neat (neat_append_blank.1 hs.2).2⟩

theorem neat_unmark (hs : s = [] ∨ Neat s) : unmark s = [] ∨ Neat (unmark s) := by
  have hrest : ∀ {mark rest : List Char}, strip? (mark ++ [' ']) s = some rest → Neat rest := by
    intro mark rest h
    have heq : s = mark ++ ' ' :: rest := by simpa using strip?_eq_some_iff.1 h
    have hneat := hs.resolve_left (by simp [heq])
    rw [heq] at hneat
    exact (neat_append_blank.1 hneat).2
  rw [unmark]
  split
  · next rest h => exact .inr (@hrest "function".toList rest h)
  · next h => exact .inr (@hrest "const".toList _ h)
  · exact hs

theorem trim_of_collapsed (hs : s = [] ∨ Neat s) : trim s = s := by
  rcases hs with rfl | hs
  · rfl
  · exact trim_of_neat hs

end

theorem inGroup_append (group : Option String) (t u : List Char) :
    inGroup group (t ++ u) = inGroup group t ++ u := by
  cases group <;> simp [inGroup]

/-- A group ends with a backslash, so what has none behind a path has its place behind the
    path. -/
theorem exists_inGroup {group : Option String} {s target u : List Char}
    (h : inGroup group s = target ++ u) (hu : '\\' ∉ u) :
    ∃ t, target = inGroup group t ∧ s = t ++ u := by
  cases group with
  | none => exact ⟨target, rfl, h⟩
  | some g =>
    have h : (g.toList ++ ['\\']) ++ s = target ++ u := by simpa [inGroup] using h
    rcases append_eq_append_iff.1 h with ⟨t, htarget, hs⟩ | ⟨t, hlead, hu'⟩
    · exact ⟨t, by simpa [inGroup] using htarget, hs⟩
    · rcases eq_nil_or_concat' t with rfl | ⟨t, d, rfl⟩
      · exact ⟨[], by simpa [inGroup] using hlead.symm, by simpa using hu'.symm⟩
      · rw [← append_assoc] at hlead
        have hd : d = '\\' := by simpa using (append_inj' hlead rfl).2.symm
        exact absurd (by simp [hu', hd]) hu

section

variable {group : Option String} {s : List Char} {i : Import}

/-- What is read off a collapsed text is spelled there. -/
theorem spells_readClause (hs : s = [] ∨ Neat s) :
    Spells (inGroup group (s.dropWhile (· == '\\'))) (readClause group s) := by
  cases hcut : cutName? s with
  | none => exact .inl (by simp [readClause, hcut, trim_of_collapsed hs])
  | some cut =>
    obtain ⟨t, name⟩ := cut
    obtain ⟨word, hword, rfl⟩ := exists_of_cutName? hcut
    obtain ⟨letters, hletters, -⟩ := exists_renamer hword
    obtain ⟨ht, hname⟩ := trim_of_renamed hword (hs.resolve_left (by simp [hletters]))
    refine .inr ⟨word, hword, ?_⟩
    simp only [readClause, hcut, ht, hname, String.toList_ofList]
    rw [← inGroup_append, hletters, cons_append, dropWhile_append_cons rfl]

variable (hs : s = [] ∨ Neat s) (htarget : ' ' ∉ i.target.toList)

include hs htarget

theorem readClause_of_plain (hwritten : inGroup group (s.dropWhile (· == '\\')) = i.target.toList)
    (hname : i.name.toList = afterLast '\\' i.target.toList) : readClause group s = i := by
  have hblank : ' ' ∉ s := by
    intro hmem
    obtain ⟨u, v, rfl⟩ := append_of_mem hmem
    rw [dropWhile_append_cons rfl, inGroup_append] at hwritten
    exact htarget (by simp [← hwritten])
  rw [readClause, cutName?_eq_none hblank, trim_of_collapsed hs, hwritten, ← hname,
    String.ofList_toList, String.ofList_toList]

theorem readClause_of_renamed (hword : word ∈ renamers) (hblank : ' ' ∉ i.name.toList)
    (hslash : '\\' ∉ i.name.toList) (hwritten : inGroup group (s.dropWhile (· == '\\')) =
      i.target.toList ++ (word.toList ++ i.name.toList)) : readClause group s = i := by
  obtain ⟨letters, hletters, hplain⟩ := exists_renamer hword
  obtain ⟨t, ht, hrest⟩ := exists_inGroup hwritten (by simp [hplain, hslash])
  -- In the text, there may be backslashes in front of the path.
  obtain ⟨path, hpath, rfl⟩ : ∃ path, ' ' ∉ path ∧ s = path ++ (word.toList ++ i.name.toList) := by
    refine ⟨s.takeWhile (· == '\\') ++ t, ?_, ?_⟩
    · rw [mem_append, not_or]
      refine ⟨fun hmem => ?_, fun hmem => htarget ?_⟩
      · cases all_eq_true.1 (all_takeWhile ..) ' ' hmem
      · rw [ht]
        cases group <;> simp [inGroup, hmem]
    · rw [append_assoc, ← hrest, takeWhile_append_dropWhile]
  have hdrop : path.dropWhile (· == '\\') = t := by
    rw [hletters, cons_append, dropWhile_append_cons rfl] at hrest
    exact append_cancel_right hrest
  obtain ⟨htrim, htrimName⟩ := trim_of_renamed hword (hs.resolve_left (by simp [hletters]))
  rw [readClause, cutName?_append hword hpath hblank]
  dsimp only
  rw [htrim, htrimName, hdrop, ← ht, String.ofList_toList, String.ofList_toList]

end

/-! ## Clauses -/

/-- A clause of an import declaration, the name in front of the group it is in, and whether it
    brings in a function or a constant. -/
structure Clause where
  group : Option (ParseTree Kind)
  marked : Bool
  tree : ParseTree Kind

/-- The declaration or the clause is marked as one of functions or constants. -/
def isMarked (t : ParseTree Kind) : Bool :=
  t.parts.any fun p => p.isSign "function" || p.isSign "const"

/-- The clauses of a declaration. Outside of groups, the mark of the first one is that of
    all. -/
def clausesOf (t : ParseTree Kind) : List Clause :=
  let clause (p : ParseTree Kind) : Clause :=
    { group := t.nodes.find? (·.isKind .namespaceName)
      marked := (t.nodes.find? (·.isKind .useClause)).any isMarked || isMarked p
      tree := p }
  t.nodes.flatMap fun p =>
    if p.isKind .useClause then [clause p]
    else if p.isKind .useGroup then (p.nodes.filter (·.isKind .useClause)).map clause
    else []

/-- The words among trees. -/
def wordsAmong (source : Source) (ts : List (ParseTree Kind)) : List String :=
  (ts.map (·.text source)).filter fun word => !word.isEmpty && word.toList.all isNamePart

namespace Clause

variable (source : Source) (c : Clause)

/-- The words of the path, those in front of the group first. -/
def path : List String :=
  (c.group.toList ++ c.tree.nodes.filter (·.isKind .qualifiedName)).flatMap fun t =>
    wordsAmong source t.parts

/-- The name that the clause gives. -/
def ownName? : Option String :=
  (wordsAmong source (c.tree.nodes.filter (·.isKind .name))).head?

/-- The import that the clause stands for. -/
def meant : Import :=
  ⟨(c.ownName? source).getD ((c.path source).getLast?.getD ""), joinStrings "\\" (c.path source)⟩

/-- The text of what stands in front of the group. -/
def groupText : Option String :=
  c.group.map fun n => String.ofList ((n.text source).toList.dropWhile (· == '\\'))

/-- The text of the clause on one line, in its group, without its mark and the backslashes in
    front of it. -/
def written : List Char :=
  inGroup (c.groupText source)
    ((unmark (collapse (c.tree.text source).toList)).dropWhile (· == '\\'))

/-- What is entered for the clause. -/
def entry : Import := importOf source (c.groupText source) c.tree

variable {source} {c}

theorem isNamePart_of_mem_words {ts : List (ParseTree Kind)} (h : word ∈ wordsAmong source ts) :
    ∀ x ∈ word.toList, isNamePart x := by
  have hall := (mem_filter.1 h).2
  rw [Bool.and_eq_true] at hall
  exact all_eq_true.1 hall.2

theorem isNamePart_of_mem_path (h : word ∈ c.path source) :
    ∀ x ∈ word.toList, isNamePart x := by
  obtain ⟨t, -, ht⟩ := mem_flatMap.1 h
  exact isNamePart_of_mem_words ht

theorem isNamePart_name : ∀ x ∈ (c.meant source).name.toList, isNamePart x := by
  rw [meant]
  cases hown : c.ownName? source with
  | some name => exact isNamePart_of_mem_words (mem_of_head? hown)
  | none =>
    cases hlast : (c.path source).getLast? with
    | some word => exact isNamePart_of_mem_path (mem_of_getLast? hlast)
    | none => exact fun x hx => absurd hx (by simp)

theorem not_mem_target : ' ' ∉ (c.meant source).target.toList := by
  have hjoin : ∀ ws : List String, (∀ w ∈ ws, ' ' ∉ w.toList) →
      ' ' ∉ (joinStrings "\\" ws).toList := by
    intro ws h
    fun_induction joinStrings "\\" ws with
    | case1 => simp
    | case2 w => exact h w mem_cons_self
    | case3 w ws _ ih =>
      obtain ⟨hw, hws⟩ := forall_mem_cons.1 h
      simp [hw, ih hws]
  exact hjoin _ fun w hw hblank => by cases isNamePart_of_mem_path hw ' ' hblank

/-- What is entered is what the clause stands for, exactly if it is spelled out. -/
theorem entry_eq_meant_iff :
    c.entry source = c.meant source ↔ Spells (c.written source) (c.meant source) := by
  have hs := neat_unmark (neat_collapse (c.tree.text source).toList)
  have hblank : ' ' ∉ (c.meant source).name.toList := fun h => by cases isNamePart_name ' ' h
  have hslash : '\\' ∉ (c.meant source).name.toList := fun h => by cases isNamePart_name '\\' h
  rw [entry, importOf_eq]
  constructor
  · intro h
    rw [← h]
    exact spells_readClause hs
  · rintro (⟨hwritten, hname⟩ | ⟨word, hword, hwritten⟩)
    · exact readClause_of_plain hs not_mem_target hwritten (hwritten ▸ hname)
    · exact readClause_of_renamed hs not_mem_target hword hblank hslash hwritten

end Clause

theorem importsOf_eq (source : Source) (t : ParseTree Kind) :
    importsOf source t = if isMarked t then [] else (clausesOf t).map (Clause.entry source) := by
  rw [importsOf, isMarked]
  split
  · rfl
  · rw [clausesOf, map_flatMap]
    refine flatMap_congr fun p _ => ?_
    split
    · rfl
    · split
      · rw [map_map]
        rfl
      · rfl

/-! ## Files -/

/-- The clauses of import declarations that are not marked as a whole. -/
def clausesAmong (ds : List Declaration) : List Clause :=
  (ds.filter fun d => d.kind = .useDecl ∧ isMarked d.site.tree = false).flatMap fun d =>
    clausesOf d.site.tree

variable {source : Source}

theorem imports_enter (o : Outline) (d : Declaration) :
    (enter source o (.declaration d)).imports =
      o.imports ++ (clausesAmong [d]).map (Clause.entry source) := by
  obtain ⟨space, kind, site⟩ := d
  by_cases hkind : kind = .useDecl
  · subst hkind
    rw [enter, Progress.addDeclaration, importsOf_eq]
    cases hmark : isMarked site.tree <;> simp [clausesAmong, hmark]
  · rw [clausesAmong, filter_cons_of_neg (by simp [hkind])]
    refine Eq.trans ?_ (append_nil _).symm
    cases kind with
    | useDecl => exact absurd rfl hkind
    | _ => rfl

theorem imports_foldl_enter (o : Outline) (es : List Entry) :
    (es.foldl (enter source) o).imports =
      o.imports ++ (clausesAmong (declarationsIn es)).map (Clause.entry source) := by
  induction es generalizing o with
  | nil => simp [declarationsIn, clausesAmong]
  | cons e es ih =>
    rw [foldl_cons, ih]
    cases e with
    | space name =>
      rw [enter_space]
      rfl
    | declaration d =>
      have hcons : clausesAmong (declarationsIn (.declaration d :: es)) =
          clausesAmong [d] ++ clausesAmong (declarationsIn es) := by
        rw [clausesAmong, clausesAmong, clausesAmong, ← flatMap_append, ← filter_append]
        rfl
      rw [imports_enter, hcons, map_append, append_assoc]

/-- Those of a file. -/
def clausesIn (source : Source) (file : ParseTree Kind) : List Clause :=
  clausesAmong (declarationsIn (entriesOf source file))

theorem imports_outlineOf {file : ParseTree Kind} (hfile : parse? source = some file)
    (path : String) :
    (outlineOf path source file).imports = (clausesIn source file).map (Clause.entry source) := by
  rw [outlineOf_eq_foldl hfile]
  exact imports_foldl_enter ..

/-- The imports of a file are those of its clauses in their order, where a declaration that is
    marked as a whole is passed over. Each is what the clause stands for exactly if it is spelled
    out; so they are the imports of classes exactly if all clauses are, and none is marked. -/
theorem imports_follow_clauses {file : ParseTree Kind} (path : String)
    (hfile : parse? source = some file) :
    ∃ o, outline? path source = some o ∧
      List.Forall₂ (fun (c : Clause) i =>
        i = c.meant source ↔ Spells (c.written source) (c.meant source))
          (clausesIn source file) o.imports ∧
      (o.imports = ((clausesIn source file).filter fun c => !c.marked).map
          (Clause.meant source) ↔
        ∀ c ∈ clausesIn source file,
          c.marked = false ∧ Spells (c.written source) (c.meant source)) := by
  refine ⟨outlineOf path source file, by rw [outline?, hfile]; rfl, ?_⟩
  rw [imports_outlineOf hfile]
  constructor
  · rw [forall₂_map_right_iff, forall₂_same]
    exact fun c _ => Clause.entry_eq_meant_iff
  · constructor
    · intro h
      have hlength := congrArg List.length h
      rw [length_map, length_map, eq_comm, length_filter_eq_length_iff] at hlength
      rw [filter_eq_self.2 hlength, map_inj_left] at h
      exact fun c hc => ⟨by simpa using hlength c hc, Clause.entry_eq_meant_iff.1 (h c hc)⟩
    · intro h
      rw [filter_eq_self.2 fun c hc => by simp [(h c hc).1]]
      exact map_congr_left fun c hc => Clause.entry_eq_meant_iff.2 (h c hc).2

/-- Imports of classes in all forms, and one of functions in a group. -/
def allForms : Source :=
  Source.ofBytes (bytesOf ("<?php\nuse A\\B as C, \\D;\nuse E\\\x7bF, G\\H AS I\x7d;\n" ++
    "use function J\\\x7bk\x7d;\n"))

theorem imports_follow_clauses_allForms :
    ∃ file o, parse? allForms = some file ∧ outline? "uses.php" allForms = some o ∧
      o.imports = ((clausesIn allForms file).filter fun c => !c.marked).map
        (Clause.meant allForms) := by
  have hall : (parse? allForms).any (fun file => (clausesIn allForms file).all fun c =>
      !c.marked && Spells (c.written allForms) (c.meant allForms)) = true := by decide +kernel
  obtain ⟨file, hfile, hall⟩ := (Option.any_eq_true _ _).1 hall
  obtain ⟨o, ho, -, himports⟩ := imports_follow_clauses "uses.php" hfile
  refine ⟨file, o, hfile, ho, himports.2 fun c hc => ?_⟩
  simpa using all_eq_true.1 hall c hc

/-- A clause that is marked itself is entered. -/
theorem marked_clause_entered :
    (outline? "m.php" (Source.ofBytes (bytesOf "<?php\nuse function A\\b;\n"))).map (·.imports) =
      some [⟨"b", "A\\b"⟩] := by
  decide +kernel

end CodeAtlas.Php
