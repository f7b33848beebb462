import Mathlib.Data.List.Basic
import Mathlib.Data.List.Lex
import CodeAtlas.Proofs.Walk

/-!
# What a walk selects

Which files under a root are indexed can be told of each file on its own, by the names that
lead to it, its size and the configuration (`Config.Selects`). If no ignore files are
respected, a walk selects just these. It goes through the entries of a directory in their
order, and through what a directory holds at once, so that it comes to the files in the order
of the names that lead there (`Walk.Precedes`).

* `Walk.pairwise_filesIn`: the order in which files are found;
* `Walk.mem_filesIn_of_reached`: no file is missed on the way;
* `Walk.selects_iff`: which of the files found are selected;
* `walk_selects_declared`: the selection as a whole.

The name `-` stands for standard input. A directory of that name is not walked
(`standard_input_not_walked`).
-/

namespace CodeAtlas

open FileTree List

variable {l : Language} {dirs names names' : List String}

namespace FileTree

variable {rest : FileTree}

/-- In each directory the entries go in the order of their names. -/
def isOrdered : FileTree → Bool
  | .empty => true
  | .file n _ rest => rest.entryNames.all (fun m => n < m) && rest.isOrdered
  | .directory n inner rest =>
    rest.entryNames.all (fun m => n < m) && inner.isOrdered && rest.isOrdered

theorem isOrdered_file {n : String} {content : Bytes} :
    (FileTree.file n content rest).isOrdered ↔
      (∀ m ∈ rest.entryNames, n < m) ∧ rest.isOrdered := by
  simp [isOrdered]

theorem isOrdered_directory {n : String} {inner : FileTree} :
    (FileTree.directory n inner rest).isOrdered ↔
      (∀ m ∈ rest.entryNames, n < m) ∧ inner.isOrdered ∧ rest.isOrdered := by
  simp [isOrdered, and_assoc]

variable {t inner : FileTree} {n : String}

theorem isOrdered_of_get? (ht : t.isOrdered) (h : t.get? n = some (.directory inner)) :
    inner.isOrdered := by
  induction t with
  | empty => cases h
  | file m _ rest ih =>
    rw [isOrdered_file] at ht
    rw [get?] at h
    split at h
    · cases h
    · exact ih ht.2 h
  | directory m inner' rest _ ih =>
    rw [isOrdered_directory] at ht
    rw [get?] at h
    split at h
    · cases h
      exact ht.2.1
    · exact ih ht.2.2 h

theorem isOrdered_of_find? (ht : t.isOrdered) {place : List String}
    (h : t.find? place = some (.directory inner)) : inner.isOrdered := by
  induction place generalizing t with
  | nil =>
    cases h
    exact ht
  | cons n place ih =>
    obtain ⟨inner', hget, hfind⟩ := exists_of_find?_cons_directory h
    exact ih (isOrdered_of_get? ht hget) hfind

end FileTree

namespace Walk

variable {t : FileTree} {f : Filter} {path n : String} {x : Found}

/-- The names come before the others, by the first place where they differ. -/
def Precedes (names names' : List String) : Prop :=
  List.Lex (· < ·) names names'

theorem precedes_of_lt {m : String} (h : n < m) (rel rel' : List String) :
    Precedes (names ++ n :: rel) (names ++ m :: rel') :=
  .append_left _ (.rel h) names

theorem Precedes.ne (h : Precedes names names') : names ≠ names' := by
  refine List.Lex.to_ne (List.Lex.imp ?_ _ _ h)
  rintro n _ hlt rfl
  exact String.lt_irrefl n hlt

/-- What a walk finds comes in the order of the names that lead there. -/
theorem pairwise_filesIn (hsound : t.isSound) (ht : t.isOrdered) (f : Filter)
    (path : String) (names : List String) (layers : List IgnoreLayer) :
    (filesIn f path names layers t).Pairwise fun x y => Precedes x.names y.names := by
  induction t generalizing path names layers with
  | empty => exact .nil
  | file n content rest ih =>
    rw [isSound_file] at hsound
    rw [isOrdered_file] at ht
    have hrest := ih hsound.2.2 ht.2 path names layers
    rw [filesIn]
    split
    · exact hrest
    · refine .cons (fun y hy => ?_) hrest
      obtain ⟨m, rel, _, hnames, _, hfind⟩ := mem_filesIn hsound.2.2 hy
      rw [hnames]
      exact precedes_of_lt (ht.1 m (mem_entryNames_of_find? hfind)) _ _
  | directory n inner rest ihinner ih =>
    rw [isSound_directory] at hsound
    rw [isOrdered_directory] at ht
    have hrest := ih hsound.2.2.2 ht.2.2 path names layers
    rw [filesIn]
    split
    · exact hrest
    -- What the directory holds comes under its name, which is before those of the other entries.
    · refine pairwise_append.2 ⟨ihinner hsound.2.2.1 ht.2.1 _ _ _, hrest, fun x hx y hy => ?_⟩
      obtain ⟨_, _, _, hx, _, _⟩ := mem_filesIn hsound.2.2.1 hx
      obtain ⟨m, _, _, hy, _, hfind⟩ := mem_filesIn hsound.2.2.2 hy
      rw [hx, hy, append_assoc]
      exact precedes_of_lt (ht.1 m (mem_entryNames_of_find? hfind)) _ _

/-! ## Which files are found -/

/-- A walk without ignore files finds all files that it comes to. -/
theorem mem_filesIn_of_reached (hf : f.ignores = false) (ht : t.isSound)
    (hx : Reached f t path names x) : x ∈ filesIn f path names [] t := by
  induction t generalizing path names with
  | empty =>
    obtain ⟨_ | ⟨n, rel⟩, content, hfind, -⟩ := hx
    · cases hfind
    · rw [find?_cons_none rfl] at hfind
      cases hfind
  | file n content rest ih =>
    rw [isSound_file] at ht
    rw [reached_file ht.2.1] at hx
    rw [filesIn]
    rcases hx with ⟨hskip, rfl⟩ | hx
    · rw [hskip]
      exact mem_cons_self
    · split
      · exact ih ht.2.2 hx
      · exact mem_cons_of_mem _ (ih ht.2.2 hx)
  | directory n inner rest ihinner ih =>
    rw [isSound_directory] at ht
    rw [reached_directory ht.2.1] at hx
    rw [filesIn]
    rcases hx with ⟨hskip, hx⟩ | hx
    · -- No layers are added on the way down, so that what is found below is found with none.
      rw [hskip, hf]
      exact mem_append_left _ (ihinner ht.2.2.1 hx)
    · split
      · exact ih ht.2.2.2 hx
      · exact mem_append_right _ (ih ht.2.2.2 hx)

/-- No name on the way is hidden, and no directory is one of those that are not entered. -/
theorem Filter.reaches_iff :
    f.reaches (dirs ++ [n]) ↔
      (∀ m ∈ dirs ++ [n], m.toList.head? ≠ some '.') ∧ ∀ m ∈ dirs, m ∉ f.skipDirs := by
  induction dirs with
  | nil => simp [reaches, skips]
  | cons m dirs ih =>
    rw [cons_append, reaches_cons (by simp), Bool.and_eq_true, ih]
    simp only [skips]
    simp [and_assoc, and_left_comm]

end Walk

/-! ## The selection -/

theorem Language.ofPath?_eq_some_iff {n : String} (hn : isEntryName n) :
    Language.ofPath? n = some l ↔ ∃ ext ∈ l.extensions, (Path.splitName n).2 = some ext := by
  have htable : ∀ l : Language, ∀ ext ∈ l.extensions,
      all.find? (·.extensions.contains ext) = some l := by
    intro l
    cases l <;> decide
  rw [ofPath?, Path.extension?, Path.fileName?_of_isEntryName hn, Option.bind_eq_some_iff]
  constructor
  · rintro ⟨ext, hext, hfind⟩
    exact ⟨ext, by simpa using find?_some hfind, hext⟩
  · rintro ⟨ext, hmem, hext⟩
    exact ⟨ext, hext, htable l ext hmem⟩

/-- Names as they are written in a path. -/
def Walk.relativePath (names : List String) : String :=
  String.ofList (Text.joinWith ['/'] (names.map String.toList))

/-- The file `n` in the directory at the end of `dirs` below a root with the entries `t` is one
    to index, in the language `l`. -/
structure Config.Selects (c : Config) (t : FileTree) (dirs : List String) (n : String)
    (l : Language) : Prop where
  file : ∃ content, t.find? (dirs ++ [n]) = some (.file content) ∧
    content.length ≤ c.maxFileBytes
  visible : ∀ m ∈ dirs ++ [n], m.toList.head? ≠ some '.'
  entered : ∀ m ∈ dirs, m ∉ Language.commonSkips ∧ m ∉ c.extraSkipDirs ∧ l.skipsDir m = false
  extension : ∃ ext ∈ l.extensions, (Path.splitName n).2 = some ext
  enabled : l ∈ c.languages
  tests : c.includeTests = true ∨ l.isTestFile n = false
  kept : ∀ pattern ∈ c.exclude, ∀ g, Glob.parse .plain pattern = .ok g →
    g.isMatch (Walk.relativePath (dirs ++ [n])) = false

namespace Walk

variable {x : Found} {n : String}

theorem any_excludes (c : Config) (path : String) :
    (excludes c).any (·.isMatch path) = false ↔
      ∀ pattern ∈ c.exclude, ∀ g, Glob.parse .plain pattern = .ok g → g.isMatch path = false := by
  have hok : ∀ (e : Except Glob.Flaw Glob) (g : Glob), e.toOption = some g ↔ e = .ok g := by
    rintro (_ | _) g <;> simp [Except.toOption]
  simp only [excludes, any_eq_false, mem_filterMap, hok, Bool.not_eq_true]
  constructor
  · intro h pattern hpattern g hg
    exact h g ⟨pattern, hpattern, hg⟩
  · rintro h g ⟨pattern, hpattern, hg⟩
    exact h pattern hpattern g hg

theorem source?_eq_some_iff {c : Config} (hnames : x.names = dirs ++ [n])
    (hname : Path.fileName? x.path = some n)
    (hlanguage : Language.ofPath? x.path = Language.ofPath? n) :
    source? c x = some ⟨x.path, l⟩ ↔ Language.ofPath? n = some l ∧ l ∈ c.languages ∧
      (c.includeTests ∨ l.isTestFile n = false) ∧ ∀ m ∈ dirs, l.skipsDir m = false := by
  rw [source?, hlanguage, hnames, hname]
  cases Language.ofPath? n with
  | none => simp
  | some l' =>
    rw [Option.ite_none_right_eq_some]
    constructor
    · rintro ⟨h, ⟨⟩⟩
      exact ⟨rfl, by simpa [Config.isEnabled, and_assoc] using h⟩
    · rintro ⟨⟨⟩, h⟩
      exact ⟨by simpa [Config.isEnabled, and_assoc] using h, rfl⟩

section

variable {c : Config} {d : Disk} {root : String} {place : List String} {t : FileTree}
  {f : Filter}

/-- The path of a file tells the names that lead to it. -/
theorem steps_pathTo (hroot : root ≠ "") (ht : t.isSound) {e : Entry}
    (hfind : t.find? names = some e) :
    Path.steps (pathTo root names) = Path.steps root ++ names := by
  induction names generalizing root t with
  | nil => exact (append_nil _).symm
  | cons n names ih =>
    have hget : t.get? n ≠ none := fun h => get?_eq_none.1 h (mem_entryNames_of_find? hfind)
    obtain ⟨e', he'⟩ := Option.ne_none_iff_exists'.1 hget
    have hn := isEntryName_of_get? ht he'
    have hjoin : Path.steps (Path.join root n) = Path.steps root ++ [n] :=
      Path.steps_join hroot hn
    cases e' with
    | file content =>
      -- No names lead on from a file.
      rw [find?_cons_file he'] at hfind
      split at hfind
      · next hnil =>
        subst hnil
        exact hjoin
      · cases hfind
    | directory inner =>
      rw [find?_cons_directory he'] at hfind
      rw [pathTo, foldl_cons, ← pathTo,
        ih (Path.join_ne_empty hroot hn) (isSound_of_get? ht he') hfind, hjoin, append_assoc]
      rfl

theorem pathTo_inj (hroot : root ≠ "") (ht : t.isSound) {e e' : Entry}
    (hfind : t.find? names = some e) (hfind' : t.find? names' = some e')
    (h : pathTo root names = pathTo root names') : names = names' := by
  have hsteps := congrArg Path.steps h
  rw [steps_pathTo hroot ht hfind, steps_pathTo hroot ht hfind'] at hsteps
  exact append_cancel_left hsteps

/-- The file is neither excluded nor too large. -/
def keeps (c : Config) (x : Found) : Bool :=
  !((excludes c).any (·.isMatch x.relative)) && x.size ≤ c.maxFileBytes

theorem keeps_iff : keeps c x ↔
    (∀ pattern ∈ c.exclude, ∀ g, Glob.parse .plain pattern = .ok g →
      g.isMatch (relativePath x.names) = false) ∧ x.size ≤ c.maxFileBytes := by
  rw [keeps, Bool.and_eq_true, Bool.not_eq_true', any_excludes, decide_eq_true_iff]
  rfl

/-- A file to index by the names that lead to it, with its language. -/
def named? (c : Config) (x : Found) : Option (List String × Language) :=
  (source? c x).map fun f => (x.names, f.language)

theorem named?_eq_some :
    named? c x = some (names, l) ↔ source? c x = some ⟨x.path, l⟩ ∧ x.names = names := by
  rw [named?, Option.map_eq_some_iff]
  constructor
  · rintro ⟨f, hf, ⟨⟩⟩
    rw [← (source?_eq_some hf).1]
    exact ⟨hf, rfl⟩
  · rintro ⟨hf, rfl⟩
    exact ⟨_, hf, rfl⟩

theorem source?_eq_map_named? (hx : x.path = pathTo root x.names) :
    source? c x = (named? c x).map fun p => ⟨pathTo root p.1, p.2⟩ := by
  rw [named?, Option.map_map]
  cases hsource : source? c x with
  | none => rfl
  | some f =>
    obtain ⟨path, l⟩ := f
    rw [Option.map_some, Function.comp_apply, ← hx, ← (source?_eq_some hsource).1]

/-- The files to index among those of a tree, with their languages, if no ignore files are
    respected. -/
def selection (c : Config) (root : String) (t : FileTree) : List (List String × Language) :=
  ((filesIn (filterOf c) root [] [] t).filter (keeps c)).filterMap (named? c)

theorem mem_found_iff (hignore : c.respectGitignore = false) (ht : t.isSound) :
    x ∈ (filesIn (filterOf c) root [] [] t).filter (keeps c) ↔
      Reached (filterOf c) t root [] x ∧ keeps c x := by
  rw [mem_filter]
  exact and_congr_left' ⟨reached_of_mem_filesIn ht, mem_filesIn_of_reached hignore ht⟩

theorem pairwise_selection (ht : t.isSound) (hordered : t.isOrdered) :
    (selection c root t).Pairwise fun x y => Precedes x.1 y.1 := by
  have hfound := (pairwise_filesIn ht hordered (filterOf c) root [] []).filter (keeps c)
  refine hfound.filterMap _ fun x y hxy p hp q hq => ?_
  rw [← (named?_eq_some.1 hp).2, ← (named?_eq_some.1 hq).2]
  exact hxy

variable (hroot : d.resolve root = .ok (place, .directory t))

include hroot

/-- The files that may be indexed if no ignore files are respected. -/
theorem files?_of_directory
    (hinput : isStandardInput root = false) (hignore : c.respectGitignore = false) :
    files? c d root = some ((filesIn (filterOf c) root [] [] t).filter (keeps c)) := by
  rw [files?, allFiles?_of_directory c hroot, hinput, rootLayers, hignore]
  rfl

variable (ht : t.isSound = true)

include ht

/-- A file that a walk comes to, with the directory it stands in. -/
theorem Reached.exists_liesIn (hx : Reached f t root [] x) :
    x.path = pathTo root x.names ∧ f.reaches x.names ∧
      (∃ content, t.find? x.names = some (.file content) ∧ x.size = content.length) ∧
      ∃ dirs n, x.names = dirs ++ [n] ∧
        LiesIn d root x.path (pathTo root dirs) (place ++ dirs) n := by
  obtain ⟨_ | ⟨n, rel⟩, content, hfind, hreach, rfl⟩ := hx
  · cases hreach
  · have hin : Found.In t root [] ⟨pathTo root (n :: rel), [] ++ n :: rel, content.length⟩ :=
      ⟨n, rel, content, rfl, rfl, hfind⟩
    exact ⟨rfl, hreach, ⟨content, hfind, rfl⟩, hin.liesIn hroot ht⟩

/-- The files to index are those that a walk comes to, keeps and takes for a source. -/
theorem selects_iff :
    c.Selects t dirs n l ↔ ∃ x, Reached (filterOf c) t root [] x ∧ keeps c x ∧
      source? c x = some ⟨x.path, l⟩ ∧ x.names = dirs ++ [n] := by
  constructor
  · intro h
    obtain ⟨content, hfind, hsize⟩ := h.file
    have hreach : (filterOf c).reaches (dirs ++ [n]) := by
      refine Filter.reaches_iff.2 ⟨h.visible, fun m hm hskip => ?_⟩
      rcases mem_append.1 hskip with hskip | hskip
      · exact (h.entered m hm).1 hskip
      · exact (h.entered m hm).2.1 hskip
    have hx : Reached (filterOf c) t root []
        ⟨pathTo root (dirs ++ [n]), dirs ++ [n], content.length⟩ :=
      ⟨_, content, hfind, hreach, rfl⟩
    -- What is reached stands in a directory, which is the one given.
    obtain ⟨-, -, -, dirs', n', hnames, hlies⟩ := hx.exists_liesIn hroot ht
    obtain ⟨rfl, ⟨⟩⟩ := append_inj' hnames rfl
    refine ⟨_, hx, keeps_iff.2 ⟨h.kept, hsize⟩, ?_, rfl⟩
    exact (source?_eq_some_iff rfl hlies.fileName? hlies.language).2
      ⟨(Language.ofPath?_eq_some_iff hlies.name).2 h.extension, h.enabled, h.tests,
        fun m hm => (h.entered m hm).2.2⟩
  · rintro ⟨x, hx, hkeeps, hsource, hnames⟩
    obtain ⟨-, hreach, ⟨content, hfind, hsize⟩, dirs', n', hnames', hlies⟩ :=
      hx.exists_liesIn hroot ht
    obtain ⟨rfl, ⟨⟩⟩ := append_inj' (hnames.symm.trans hnames') rfl
    obtain ⟨hlanguage, henabled, htests, hskips⟩ :=
      (source?_eq_some_iff hnames hlies.fileName? hlies.language).1 hsource
    rw [hnames] at hreach hfind
    obtain ⟨hvisible, hdirs⟩ := Filter.reaches_iff.1 hreach
    obtain ⟨hkept, hlength⟩ := keeps_iff.1 hkeeps
    rw [hnames] at hkept
    refine ⟨⟨content, hfind, hsize ▸ hlength⟩, hvisible, fun m hm => ?_,
      (Language.ofPath?_eq_some_iff hlies.name).1 hlanguage, henabled, htests, hkept⟩
    have hm' := hdirs m hm
    rw [filterOf, mem_append, not_or] at hm'
    exact ⟨hm'.1, hm'.2, hskips m hm⟩

theorem exists_files? (c : Config) :
    ∃ found, files? c d root = some found ∧ ∀ x ∈ found, Reached (filterOf c) t root [] x := by
  rw [files?, allFiles?_of_directory c hroot]
  refine ⟨_, rfl, fun x hx => ?_⟩
  have hx := (mem_filter.1 hx).1
  split at hx
  · cases hx
  · exact reached_of_mem_filesIn ht hx

theorem mem_selection (hignore : c.respectGitignore = false) :
    (names, l) ∈ selection c root t ↔ ∃ dirs n, names = dirs ++ [n] ∧ c.Selects t dirs n l := by
  simp only [selection, mem_filterMap, mem_found_iff hignore ht, named?_eq_some,
    selects_iff hroot ht]
  constructor
  · rintro ⟨x, ⟨hx, hkeeps⟩, hsource, rfl⟩
    obtain ⟨-, -, -, dirs, n, hnames, -⟩ := hx.exists_liesIn hroot ht
    exact ⟨dirs, n, hnames, x, hx, hkeeps, hsource, hnames⟩
  · rintro ⟨dirs, n, rfl, x, hx, hkeeps, hsource, hnames⟩
    exact ⟨x, ⟨hx, hkeeps⟩, hsource, hnames⟩

theorem nodup_map_pathTo_selection (hordered : t.isOrdered)
    (hignore : c.respectGitignore = false) :
    ((selection c root t).map fun x => pathTo root x.1).Nodup := by
  have hfind : ∀ x ∈ selection c root t, ∃ content, t.find? x.1 = some (.file content) := by
    intro x hx
    obtain ⟨dirs, n, hnames, hselects⟩ := (mem_selection hroot ht hignore).1 hx
    obtain ⟨content, hfind, _⟩ := hselects.file
    exact ⟨content, hnames ▸ hfind⟩
  rw [List.Nodup, pairwise_map]
  refine (pairwise_selection ht hordered).imp_of_mem fun hp hq hpq heq => hpq.ne ?_
  obtain ⟨_, hp⟩ := hfind _ hp
  obtain ⟨_, hq⟩ := hfind _ hq
  exact pathTo_inj (Disk.resolve_eq_ok.1 hroot).1 ht hp hq heq

theorem sources?_of_directory (hinput : isStandardInput root = false)
    (hignore : c.respectGitignore = false) :
    sources? c d root = some ((selection c root t).map fun x => ⟨pathTo root x.1, x.2⟩) := by
  rw [sources?, files?_of_directory hroot hinput hignore, selection, map_filterMap]
  refine congrArg some (filterMap_congr fun x hx => source?_eq_map_named? ?_)
  exact (((mem_found_iff hignore ht).1 hx).1.exists_liesIn hroot ht).1

end

end Walk

/-- Under a directory that is not taken for standard input, exactly the declared files are
    selected if no ignore files are respected: each once, in the order of the names that lead to
    them. -/
theorem walk_selects_declared (c : Config) (d : Disk) (root : String) (place : List String)
    (t : FileTree) (hsound : d.root.isSound = true) (hordered : d.root.isOrdered = true)
    (hroot : d.resolve root = .ok (place, .directory t))
    (hinput : Walk.isStandardInput root = false) (hignore : c.respectGitignore = false) :
    ∃ files : List (List String × Language),
      Walk.sources? c d root = some (files.map fun x => ⟨Walk.pathTo root x.1, x.2⟩) ∧
      files.Pairwise (fun x y => Walk.Precedes x.1 y.1) ∧
      (files.map fun x => Walk.pathTo root x.1).Nodup ∧
      ∀ names l, (names, l) ∈ files ↔
        ∃ dirs n, names = dirs ++ [n] ∧ c.Selects t dirs n l := by
  have ht : t.isSound = true := isSound_of_find? hsound (Disk.find?_of_resolve hroot)
  have htordered : t.isOrdered = true := isOrdered_of_find? hordered (Disk.find?_of_resolve hroot)
  exact ⟨Walk.selection c root t, Walk.sources?_of_directory hroot ht hinput hignore,
    Walk.pairwise_selection ht htordered,
    Walk.nodup_map_pathTo_selection hroot ht htordered hignore,
    fun _ _ => Walk.mem_selection hroot ht hignore⟩

/-- A tree with hidden files, tests, files that are too large or excluded, and a directory that
    is passed over for one language only. -/
def depot : Disk where
  root := .directory "p"
    (.file ".hidden.go" []
      (.directory "a" (.file "notes.txt" [] (.file "x.md" [] .empty))
        (.file "a.go" []
          (.file "a_test.go" []
            (.directory "b" (.file "y.md" [] .empty)
              (.file "large.md" [0, 0, 0, 0]
                (.directory "venv" (.file "site.py" [] (.file "tool.go" [] .empty)) .empty)))))))
    .empty

/-- A configuration that excludes some files of the tree. -/
def depotConfig : Config :=
  { respectGitignore := false, exclude := ["b/**"], maxFileBytes := 3 }

/-- A directory comes before a file whose name goes on. -/
theorem walk_selects_declared_depot :
    Walk.sources? depotConfig depot "p" =
        some [⟨"p/a/x.md", .markdown⟩, ⟨"p/a.go", .go⟩, ⟨"p/venv/tool.go", .go⟩] ∧
      ∃ place t, ∃ files : List (List String × Language),
        depot.resolve "p" = .ok (place, .directory t) ∧
        Walk.sources? depotConfig depot "p" =
          some (files.map fun x => ⟨Walk.pathTo "p" x.1, x.2⟩) ∧
        files.Pairwise (fun x y => Walk.Precedes x.1 y.1) ∧
        ∀ names l, (names, l) ∈ files ↔
          ∃ dirs n, names = dirs ++ [n] ∧ depotConfig.Selects t dirs n l := by
  obtain ⟨files, hsources, hsorted, -, hmem⟩ :=
    walk_selects_declared depotConfig depot "p" ["p"] _ (by decide) (by decide) rfl (by decide) rfl
  exact ⟨by decide +kernel, _, _, files, rfl, hsources, hsorted, hmem⟩

/-- A directory that has the name of standard input. -/
def inbox : Disk where
  root := .directory "-" (.file "a.go" [] .empty) .empty

/-- A directory that is taken for standard input is not walked. -/
theorem standard_input_not_walked :
    inbox.root.isSound = true ∧ inbox.root.isOrdered = true ∧
      inbox.resolve "-" = .ok (["-"], .directory (.file "a.go" [] .empty)) ∧
      Config.Selects { respectGitignore := false } (.file "a.go" [] .empty) [] "a.go" .go ∧
      Walk.sources? { respectGitignore := false } inbox "-" = some [] := by
  refine ⟨by decide, by decide, rfl, ?_, by decide +kernel⟩
  refine ⟨⟨[], rfl, Nat.zero_le _⟩, by decide, ?_, ⟨"go", by decide, by decide⟩, by decide,
    .inr (by decide), ?_⟩
  · rintro m ⟨⟩
  · rintro pattern ⟨⟩

end CodeAtlas
