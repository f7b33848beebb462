import CodeAtlas.Index

/-!
# Sound trees

A tree is *sound* if it is one that a file system can hold: the names in a directory differ,
and can be written in a path. What stands at the end of some names of such a tree is sound.
-/

namespace CodeAtlas

open List Option

variable {place : List String} {e : Entry}

namespace FileTree

/-- The names of the entries. -/
def entryNames : FileTree → List String
  | .empty => []
  | .file n _ rest => n :: rest.entryNames
  | .directory n _ rest => n :: rest.entryNames

/-- The name can be one of a file: it is a piece of a path that leads to an entry. -/
def isEntryName (s : String) : Bool :=
  s != "" && s != "." && s != ".." && !s.toList.contains '/'

/-- In each directory all names differ, and can be names of files. -/
def isSound : FileTree → Bool
  | .empty => true
  | .file n _ rest => isEntryName n && !rest.entryNames.contains n && rest.isSound
  | .directory n inner rest =>
    isEntryName n && !rest.entryNames.contains n && inner.isSound && rest.isSound

theorem isEntryName_iff {n : String} :
    isEntryName n ↔ n ≠ "" ∧ n ≠ "." ∧ n ≠ ".." ∧ '/' ∉ n.toList := by
  simp [isEntryName, and_assoc]

theorem isSound_file {n : String} {content : Bytes} {rest : FileTree} :
    (FileTree.file n content rest).isSound ↔
      isEntryName n ∧ n ∉ rest.entryNames ∧ rest.isSound := by
  simp [isSound, and_assoc]

theorem isSound_directory {n : String} {inner rest : FileTree} :
    (FileTree.directory n inner rest).isSound ↔
      isEntryName n ∧ n ∉ rest.entryNames ∧ inner.isSound ∧ rest.isSound := by
  simp [isSound, and_assoc]

variable {t inner : FileTree} {n : String} {names : List String} {content : Bytes}

theorem get?_eq_none : t.get? n = none ↔ n ∉ t.entryNames := by
  induction t with
  | empty => simp [get?, entryNames]
  | file m _ rest ih =>
    by_cases h : m = n
    · simp [get?, entryNames, h]
    · simp [get?, entryNames, h, ih, Ne.symm h]
  | directory m _ rest _ ih =>
    by_cases h : m = n
    · simp [get?, entryNames, h]
    · simp [get?, entryNames, h, ih, Ne.symm h]

/-! ## Names that lead on -/

theorem find?_cons_directory (h : t.get? n = some (.directory inner)) (names : List String) :
    t.find? (n :: names) = inner.find? names := by
  cases names with
  | nil => exact h
  | cons m names =>
    rw [find?, h]
    simp

theorem find?_cons_file (h : t.get? n = some (.file content)) (names : List String) :
    t.find? (n :: names) = if names = [] then some (.file content) else none := by
  cases names with
  | nil => exact h
  | cons m names =>
    rw [find?, h]
    · rfl
    · simp

theorem find?_cons_none (h : t.get? n = none) (names : List String) :
    t.find? (n :: names) = none := by
  cases names with
  | nil => exact h
  | cons m names =>
    rw [find?, h]
    simp

theorem mem_entryNames_of_find? (h : t.find? (n :: names) = some e) : n ∈ t.entryNames := by
  by_cases hn : n ∈ t.entryNames
  · exact hn
  · rw [find?_cons_none (get?_eq_none.2 hn)] at h
    cases h

/-- Names lead through the entry of the first of them. -/
theorem find?_congr {t' : FileTree} (h : t.get? n = t'.get? n) (names : List String) :
    t.find? (n :: names) = t'.find? (n :: names) := by
  cases hget : t'.get? n with
  | none => rw [find?_cons_none hget, find?_cons_none (h.trans hget)]
  | some e =>
    cases e with
    | file content => rw [find?_cons_file hget, find?_cons_file (h.trans hget)]
    | directory inner => rw [find?_cons_directory hget, find?_cons_directory (h.trans hget)]

/-- The first of several names leads to a directory, and so does a single one unless what
    stands there is a file. -/
theorem exists_of_find?_cons (h : t.find? (n :: names) = some e)
    (hmore : names = [] → ∀ content, e ≠ .file content) :
    ∃ inner', t.get? n = some (.directory inner') ∧ inner'.find? names = some e := by
  cases hget : t.get? n with
  | none =>
    rw [find?_cons_none hget] at h
    cases h
  | some e' =>
    cases e' with
    | file content =>
      rw [find?_cons_file hget] at h
      split at h
      · next hnil =>
        cases h
        exact absurd rfl (hmore hnil content)
      · cases h
    | directory inner' =>
      rw [find?_cons_directory hget] at h
      exact ⟨inner', rfl, h⟩

theorem exists_of_find?_cons_directory (h : t.find? (n :: names) = some (.directory inner)) :
    ∃ inner', t.get? n = some (.directory inner') ∧
      inner'.find? names = some (.directory inner) :=
  exists_of_find?_cons h fun _ _ => by rintro ⟨⟩

/-- Names that lead to a directory may be followed by others. -/
theorem find?_append (h : t.find? place = some (.directory inner)) (names : List String) :
    t.find? (place ++ names) = inner.find? names := by
  induction place generalizing t with
  | nil =>
    cases h
    rfl
  | cons n place ih =>
    obtain ⟨inner', hget, hfind⟩ := exists_of_find?_cons_directory h
    rw [cons_append, find?_cons_directory hget, ih hfind]

/-- Before the last name there is a directory. -/
theorem exists_of_find?_concat (h : t.find? (names ++ [n]) = some e) :
    ∃ inner, t.find? names = some (.directory inner) ∧ inner.get? n = some e := by
  induction names generalizing t with
  | nil => exact ⟨t, rfl, h⟩
  | cons m names ih =>
    obtain ⟨inner', hget, hfind⟩ := exists_of_find?_cons h fun hnil => by simp at hnil
    obtain ⟨inner, hnames, hn⟩ := ih hfind
    exact ⟨inner, by rw [find?_cons_directory hget, hnames], hn⟩

theorem isSound_of_get? (ht : t.isSound) (h : t.get? n = some (.directory inner)) :
    inner.isSound := by
  induction t with
  | empty => cases h
  | file m _ rest ih =>
    rw [isSound_file] at ht
    rw [get?] at h
    split at h
    · cases h
    · exact ih ht.2.2 h
  | directory m inner' rest _ ih =>
    rw [isSound_directory] at ht
    rw [get?] at h
    split at h
    · cases h
      exact ht.2.2.1
    · exact ih ht.2.2.2 h

theorem isSound_of_find? (ht : t.isSound) (h : t.find? place = some (.directory inner)) :
    inner.isSound := by
  induction place generalizing t with
  | nil =>
    cases h
    exact ht
  | cons n place ih =>
    obtain ⟨inner', hget, hfind⟩ := exists_of_find?_cons_directory h
    exact ih (isSound_of_get? ht hget) hfind

theorem isEntryName_of_get? (ht : t.isSound) (h : t.get? n = some e) :
    isEntryName n := by
  induction t with
  | empty => cases h
  | file m _ rest ih =>
    rw [isSound_file] at ht
    rw [get?] at h
    split at h
    · next hn => exact hn ▸ ht.1
    · exact ih ht.2.2 h
  | directory m inner' rest _ ih =>
    rw [isSound_directory] at ht
    rw [get?] at h
    split at h
    · next hn => exact hn ▸ ht.1
    · exact ih ht.2.2.2 h

end FileTree

end CodeAtlas
