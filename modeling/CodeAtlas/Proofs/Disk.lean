import CodeAtlas.Index

/-!
# Files and their keys

A path is looked up to the names that lead to its place. These are the key of a file that
is there (`FileKey.of`), so that a file can be told by its key, in whatever way its path is
written.

* `Disk.find?_of_resolve`: what stands at a path stands at the end of its names;
* `Disk.read_of_key`: paths of one key have one content.
-/

namespace CodeAtlas.Disk

variable {d : Disk} {path p q : String} {content : Bytes} {f : List String × Bytes}

theorem find?_of_resolve {names : List String} {e : Entry} (h : d.resolve path = .ok (names, e)) :
    d.root.find? names = some e := by
  rw [resolve] at h
  split at h
  · cases h
  · dsimp only at h
    split at h
    · cases h
    · split at h
      · next hfind =>
        cases h
        exact hfind
      · cases h

theorem ne_empty_of_read (h : d.read path = .ok content) : path ≠ "" := by
  rintro rfl
  cases h

/-- The file at a path: the names that lead to it, and its content. -/
def file? (d : Disk) (path : String) : Option (List String × Bytes) :=
  match d.resolve path with
  | .ok (names, .file content) => some (names, content)
  | _ => none

theorem file?_eq_some : d.file? path = some f ↔ d.resolve path = .ok (f.1, .file f.2) := by
  rw [file?]
  rcases d.resolve path with _ | ⟨_, _ | _⟩ <;> simp [Prod.ext_iff]

theorem read_eq_ok : d.read path = .ok content ↔ ∃ f, d.file? path = some f ∧ f.2 = content := by
  rw [read, file?]
  rcases d.resolve path with _ | ⟨_, _ | _⟩ <;> simp

/-- A file has the key of its place, so that all paths of the key lead to it. -/
theorem file?_eq_some_iff_key (hq : d.file? q = some f) :
    FileKey.of d p = FileKey.of d q ↔ d.file? p = some f := by
  have hkey : FileKey.of d q = .place f.1 := by rw [FileKey.of, file?_eq_some.1 hq]
  rw [hkey]
  constructor
  · intro hp
    rw [FileKey.of] at hp
    split at hp
    · next names e hresolve =>
      cases hp
      cases (find?_of_resolve hresolve).symm.trans (find?_of_resolve (file?_eq_some.1 hq))
      exact file?_eq_some.2 hresolve
    · cases hp
  · intro hp
    rw [FileKey.of, file?_eq_some.1 hp]

/-- The same file has the same content, in whatever way its path is written. -/
theorem read_of_key (hkey : FileKey.of d p = FileKey.of d q) (hq : d.read q = .ok content) :
    d.read p = .ok content := by
  obtain ⟨f, hf, hcontent⟩ := read_eq_ok.1 hq
  exact read_eq_ok.2 ⟨f, (file?_eq_some_iff_key hf).1 hkey, hcontent⟩

end CodeAtlas.Disk
