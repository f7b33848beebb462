import CodeAtlas.Proofs.Path
import CodeAtlas.Proofs.Visit

/-!
# What a walk finds

A walk through a directory of a sound tree finds files of the tree, each with the names that
lead to it from the root of the walk, and with a path made of the root and these names. None of
the names is passed over (`Walk.reached_of_mem_filesIn`). The path leads to the file again
(`Walk.LiesIn`).
-/

namespace CodeAtlas

open FileTree List

variable {inner : FileTree}

namespace Walk

/-! ## Files found in a tree -/

variable {t : FileTree} {f : Filter} {path : String} {names place : List String}
  {layers : List IgnoreLayer} {x : Found}

/-- The path of what stands at the end of some names behind a path. -/
def pathTo (path : String) (names : List String) : String :=
  names.foldl Path.join path

/-- A walk comes to the end of some names: none of them is passed over, the last one being
    that of a file. -/
def Filter.reaches (f : Filter) : List String → Bool
  | [] => false
  | [n] => !f.skips n false
  | n :: rest => !f.skips n true && f.reaches rest

theorem Filter.reaches_cons {n : String} {rest : List String} (h : rest ≠ []) :
    f.reaches (n :: rest) = (!f.skips n true && f.reaches rest) := by
  cases rest with
  | nil => exact absurd rfl h
  | cons m rest => rfl

/-- The file is one of the tree that a walk comes to, with the path and the names that lead
    to it behind `path` and `names`. -/
def Reached (f : Filter) (t : FileTree) (path : String) (names : List String) (x : Found) : Prop :=
  ∃ rel content, t.find? rel = some (.file content) ∧ f.reaches rel = true ∧
    x = ⟨pathTo path rel, names ++ rel, content.length⟩

section

variable {rest : FileTree} {n : String}

/-- What is reached through the first entry, and what through the others. -/
theorem reached_iff (hrest : ∀ m ≠ n, t.get? m = rest.get? m) (hn : n ∉ rest.entryNames) :
    Reached f t path names x ↔
      (∃ rel content, t.find? (n :: rel) = some (.file content) ∧ f.reaches (n :: rel) ∧
        x = ⟨pathTo path (n :: rel), names ++ n :: rel, content.length⟩) ∨
      Reached f rest path names x := by
  constructor
  · rintro ⟨_ | ⟨m, rel⟩, content, hfind, hreach, hx⟩
    · cases hreach
    · by_cases hm : m = n
      · subst hm
        exact .inl ⟨rel, content, hfind, hreach, hx⟩
      · rw [find?_congr (hrest m hm)] at hfind
        exact .inr ⟨m :: rel, content, hfind, hreach, hx⟩
  · rintro (⟨rel, content, hx⟩ | ⟨_ | ⟨m, rel⟩, content, hfind, hreach, hx⟩)
    · exact ⟨n :: rel, content, hx⟩
    · cases hreach
    · have hm : m ≠ n := by
        rintro rfl
        exact hn (mem_entryNames_of_find? hfind)
      exact ⟨m :: rel, content, by rw [find?_congr (hrest m hm), hfind], hreach, hx⟩

theorem reached_file {content : Bytes} (hn : n ∉ rest.entryNames) :
    Reached f (.file n content rest) path names x ↔
      f.skips n false = false ∧ x = ⟨Path.join path n, names ++ [n], content.length⟩ ∨
        Reached f rest path names x := by
  have hget : (FileTree.file n content rest).get? n = some (.file content) := if_pos rfl
  have hrest : ∀ m ≠ n, (FileTree.file n content rest).get? m = rest.get? m :=
    fun m hm => if_neg hm.symm
  rw [reached_iff hrest hn]
  refine or_congr_left ⟨?_, ?_⟩
  · rintro ⟨rel, content', hfind, hreach, rfl⟩
    rw [find?_cons_file hget] at hfind
    split at hfind
    · next hrel =>
      subst hrel
      cases hfind
      exact ⟨by simpa [Filter.reaches] using hreach, rfl⟩
    · cases hfind
  · rintro ⟨hskip, hx⟩
    refine ⟨[], content, hget, ?_, hx⟩
    rw [Filter.reaches, hskip]
    rfl

theorem reached_directory (hn : n ∉ rest.entryNames) :
    Reached f (.directory n inner rest) path names x ↔
      f.skips n true = false ∧ Reached f inner (Path.join path n) (names ++ [n]) x ∨
        Reached f rest path names x := by
  have hget : (FileTree.directory n inner rest).get? n = some (.directory inner) := if_pos rfl
  have hrest : ∀ m ≠ n, (FileTree.directory n inner rest).get? m = rest.get? m :=
    fun m hm => if_neg hm.symm
  rw [reached_iff hrest hn]
  refine or_congr_left ⟨?_, ?_⟩
  · rintro ⟨rel, content, hfind, hreach, rfl⟩
    rw [find?_cons_directory hget] at hfind
    have hrel : rel ≠ [] := by
      rintro rfl
      cases hfind
    rw [Filter.reaches_cons hrel, Bool.and_eq_true, Bool.not_eq_true'] at hreach
    refine ⟨hreach.1, rel, content, hfind, hreach.2, ?_⟩
    rw [append_assoc]
    rfl
  · rintro ⟨hskip, rel, content, hfind, hreach, rfl⟩
    have hrel : rel ≠ [] := by
      rintro rfl
      cases hreach
    refine ⟨rel, content, by rw [find?_cons_directory hget, hfind], ?_, ?_⟩
    · rw [Filter.reaches_cons hrel, hskip, hreach]
      rfl
    · rw [append_assoc]
      rfl

/-- What a walk finds it has come to, whatever ignore files say. -/
theorem reached_of_mem_filesIn (ht : t.isSound) (hx : x ∈ filesIn f path names layers t) :
    Reached f t path names x := by
  induction t generalizing path names layers with
  | empty => cases hx
  | file n content rest ih =>
    rw [isSound_file] at ht
    rw [reached_file ht.2.1]
    rw [filesIn] at hx
    split at hx
    · exact .inr (ih ht.2.2 hx)
    · next hskip =>
      rw [Bool.or_eq_true, not_or, Bool.not_eq_true, Bool.not_eq_true] at hskip
      rcases mem_cons.1 hx with rfl | hx
      · exact .inl ⟨hskip.2, rfl⟩
      · exact .inr (ih ht.2.2 hx)
  | directory n inner rest ihinner ih =>
    rw [isSound_directory] at ht
    rw [reached_directory ht.2.1]
    rw [filesIn] at hx
    split at hx
    · exact .inr (ih ht.2.2.2 hx)
    · next hskip =>
      rw [Bool.or_eq_true, not_or, Bool.not_eq_true, Bool.not_eq_true] at hskip
      rcases mem_append.1 hx with hx | hx
      · exact .inl ⟨hskip.2, ihinner ht.2.2.1 hx⟩
      · exact .inr (ih ht.2.2.2 hx)

end

/-- The file was found in the tree at the end of names behind `names`, and has the path that
    is made of them. -/
def Found.In (t : FileTree) (path : String) (names : List String) (x : Found) : Prop :=
  ∃ n rest content, x.names = names ++ n :: rest ∧ x.path = pathTo path (n :: rest) ∧
    t.find? (n :: rest) = some (.file content)

/-- What a walk finds stands in the tree. -/
theorem mem_filesIn (ht : t.isSound) (hx : x ∈ filesIn f path names layers t) :
    x.In t path names := by
  obtain ⟨_ | ⟨n, rel⟩, content, hfind, hreach, rfl⟩ := reached_of_mem_filesIn ht hx
  · cases hreach
  · exact ⟨n, rel, content, rfl, rfl, hfind⟩

/-! ## Paths of files found -/

/-- The path of a directory under a root leads to it, and starts where the root does. -/
theorem resolve_pathTo {d : Disk} {root : String} {dirs : List String}
    (hroot : d.resolve root = .ok (place, .directory t)) (ht : t.isSound)
    (hdirs : t.find? dirs = some (.directory inner)) :
    d.resolve (pathTo root dirs) = .ok (place ++ dirs, .directory inner) ∧
      Path.isAbsolute (pathTo root dirs) = Path.isAbsolute root := by
  induction dirs generalizing root place t with
  | nil =>
    cases hdirs
    exact ⟨(append_nil place).symm ▸ hroot, rfl⟩
  | cons n dirs ih =>
    obtain ⟨inner', hget, hfind⟩ := exists_of_find?_cons_directory hdirs
    have hn := isEntryName_of_get? ht hget
    have hjoin := Disk.resolve_join hroot hn hget
    obtain ⟨hresolve, habsolute⟩ := ih hjoin (isSound_of_get? ht hget) hfind
    rw [append_assoc] at hresolve
    exact ⟨hresolve, habsolute.trans (Path.isAbsolute_join (Disk.resolve_eq_ok.1 hroot).1 hn)⟩

/-- The path is made of that of a directory, which starts where the root does and leads to
    `names`, and of the name of a file in it. -/
structure LiesIn (d : Disk) (root path dir : String) (names : List String) (n : String) :
    Prop where
  path_eq : path = Path.join dir n
  absolute : Path.isAbsolute dir = Path.isAbsolute root
  name : isEntryName n = true
  file : ∃ inner content, d.resolve dir = .ok (names, .directory inner) ∧
    inner.get? n = some (.file content)

namespace LiesIn

variable {d : Disk} {root dir n : String} (h : LiesIn d root path dir names n)

include h

theorem dir_ne : dir ≠ "" := by
  obtain ⟨inner, content, hdir, _⟩ := h.file
  exact (Disk.resolve_eq_ok.1 hdir).1

theorem fileName? : Path.fileName? path = some n := by
  rw [h.path_eq]
  exact Path.fileName?_of_getLast? h.name (Path.getLast?_parts_join h.dir_ne h.name)

theorem language : Language.ofPath? path = Language.ofPath? n := by
  rw [Language.ofPath?, Language.ofPath?, Path.extension?, Path.extension?, h.fileName?,
    Path.fileName?_of_isEntryName h.name]

end LiesIn

/-- What a walk finds in a directory has a path that leads there. -/
theorem Found.In.liesIn {d : Disk} {root : String}
    (hroot : d.resolve root = .ok (place, .directory t)) (ht : t.isSound) (h : x.In t root []) :
    ∃ dirs n, x.names = dirs ++ [n] ∧
      LiesIn d root x.path (pathTo root dirs) (place ++ dirs) n := by
  obtain ⟨m, rest, content, hnames, hpath, hfind⟩ := h
  have hsplit : m :: rest = (m :: rest).dropLast ++ [(m :: rest).getLast (by simp)] :=
    (dropLast_concat_getLast _).symm
  generalize (m :: rest).dropLast = dirs at hsplit
  generalize (m :: rest).getLast (by simp) = n at hsplit
  rw [hsplit] at hnames hpath hfind
  obtain ⟨inner, hdirs, hget⟩ := exists_of_find?_concat hfind
  obtain ⟨hresolve, habsolute⟩ := resolve_pathTo hroot ht hdirs
  refine ⟨dirs, n, hnames, ?_, habsolute, ?_, inner, content, hresolve, hget⟩
  · rw [hpath, pathTo, foldl_append]
    rfl
  · exact isEntryName_of_get? (isSound_of_find? ht hdirs) hget

/-- How trees are walked. -/
def filterOf (c : Config) : Filter :=
  ⟨Language.commonSkips ++ c.extraSkipDirs, c.respectGitignore⟩

/-- The ignore layers of a root and of the directories around it. -/
def rootLayers (c : Config) (d : Disk) (root : String) (place : List String) (t : FileTree) :
    List IgnoreLayer :=
  if c.respectGitignore then IgnoreLayer.ofTree [] 0 t :: outerLayers d root place else []

theorem allFiles?_of_directory {d : Disk} {root : String} (c : Config)
    (hroot : d.resolve root = .ok (place, .directory t)) :
    allFiles? c d root =
      some (if isStandardInput root then []
        else filesIn (filterOf c) root [] (rootLayers c d root place t) t) := by
  rw [allFiles?, hroot]
  rfl

end Walk

theorem source?_eq_some {c : Config} {x : Walk.Found} {f : SourceFile}
    (h : Walk.source? c x = some f) :
    f.path = x.path ∧ Language.ofPath? f.path = some f.language := by
  rw [Walk.source?] at h
  split at h
  · cases h
  · next l hl =>
    dsimp only at h
    split at h
    · cases h
      exact ⟨rfl, hl⟩
    · cases h

end CodeAtlas
