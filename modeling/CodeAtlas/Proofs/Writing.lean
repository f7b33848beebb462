import CodeAtlas.Proofs.Path

/-!
# Reading a file that was written

A file is written as an entry of a directory that is there, where no other directory stands
(`Disk.Target`); nothing but this is asked of a path. The file is then found in its place, and
all directories are where they were, though one of them may have got one entry more. So the
path leads to the file.

* `FileTree.get?_insert`, `FileTree.directory_of_put`: entries and directories;
* `Disk.write_eq_ok`: when writing succeeds, and what it makes;
* `Disk.read_of_write`: what is read behind it.
-/

namespace CodeAtlas

open List

variable {place : List String}

namespace FileTree

variable {t inner sub : FileTree} {n m : String} {names : List String} {content : Bytes}

theorem get?_cons (n m : String) (e : Entry) (rest : FileTree) :
    (cons n e rest).get? m = if n = m then some e else rest.get? m := by
  cases e <;> rfl

theorem insert_cons (n k : String) (e e' : Entry) (rest : FileTree) :
    (cons k e' rest).insert n e =
      if k = n then cons n e rest
      else if n < k then cons n e (cons k e' rest)
      else cons k e' (rest.insert n e) := by
  cases e' <;> rfl

/-- An entry is found under its name, and all others are where they were. -/
theorem get?_insert (t : FileTree) (n m : String) (e : Entry) :
    (t.insert n e).get? m = if n = m then some e else t.get? m := by
  have hstep : ∀ (k : String) (e' : Entry) (rest : FileTree),
      (rest.insert n e).get? m = (if n = m then some e else rest.get? m) →
      ((cons k e' rest).insert n e).get? m =
        if n = m then some e else (cons k e' rest).get? m := by
    intro k e' rest ih
    rw [insert_cons]
    split
    · next hk =>
      subst hk
      rw [get?_cons, get?_cons]
      split <;> rfl
    · next hk =>
      split
      · exact get?_cons ..
      · rw [get?_cons, get?_cons, ih]
        by_cases hkm : k = m
        · rw [if_pos hkm, if_pos hkm, if_neg fun hnm => hk (hkm.trans hnm.symm)]
        · rw [if_neg hkm, if_neg hkm]
  induction t with
  | empty => exact get?_cons ..
  | file k content rest ih => exact hstep k (.file content) rest ih
  | directory k inner rest _ ih => exact hstep k (.directory inner) rest ih

/-- Names that lead on through a directory. -/
theorem put_cons_directory (h : t.get? n = some (.directory sub)) (hnames : names ≠ [])
    (e : Entry) :
    t.put (n :: names) e = t.insert n (.directory (sub.put names e)) := by
  cases names with
  | nil => exact absurd rfl hnames
  | cons m names =>
    rw [put, h]
    simp

theorem find?_put (h : t.find? names = some (.directory inner)) (n : String) (e : Entry) :
    (t.put (names ++ [n]) e).find? (names ++ [n]) = some e := by
  induction names generalizing t with
  | nil => exact (t.get?_insert n n e).trans (if_pos rfl)
  | cons m names ih =>
    obtain ⟨sub, hget, hfind⟩ := exists_of_find?_cons_directory h
    rw [cons_append, put_cons_directory hget (by simp), find?_cons_directory, ih hfind]
    rw [get?_insert, if_pos rfl]

/-- A directory is not lost by an entry that is put where no directory stands. -/
theorem directory_of_put (h : t.find? names = some (.directory inner))
    (hfree : ∀ sub, inner.get? n ≠ some (.directory sub)) (e : Entry)
    (hplace : t.find? place = some (.directory sub)) :
    ∃ sub', (t.put (names ++ [n]) e).find? place = some (.directory sub') := by
  induction names generalizing t place with
  | nil =>
    obtain rfl : t = inner := by
      cases h
      rfl
    cases place with
    | nil => exact ⟨_, rfl⟩
    | cons k place =>
      obtain ⟨sub', hget, _⟩ := exists_of_find?_cons_directory hplace
      have hk : n ≠ k := fun hnk => hfree sub' (hnk ▸ hget)
      have hsame : (t.insert n e).get? k = t.get? k := (t.get?_insert n k e).trans (if_neg hk)
      exact ⟨sub, (find?_congr hsame place).trans hplace⟩
  | cons m names ih =>
    obtain ⟨next, hget, hfind⟩ := exists_of_find?_cons_directory h
    rw [cons_append, put_cons_directory hget (by simp)]
    cases place with
    | nil => exact ⟨_, rfl⟩
    | cons k place =>
      by_cases hk : m = k
      · -- The place is reached through the directory that leads to the entry.
        subst hk
        rw [find?_cons_directory hget] at hplace
        obtain ⟨sub', hsub'⟩ := ih hfind hplace
        refine ⟨sub', ?_⟩
        rw [find?_cons_directory, hsub']
        rw [get?_insert, if_pos rfl]
      · have hsame : (t.insert m (.directory (next.put (names ++ [n]) e))).get? k = t.get? k :=
          (t.get?_insert m k _).trans (if_neg hk)
        exact ⟨sub, (find?_congr hsame place).trans hplace⟩

end FileTree

namespace Disk

variable {d d' : Disk} {path : String} {content : Bytes}

/-- A file can be written at the path: in the directory at the end of `names`, under `name`. -/
structure Target (d : Disk) (path : String) (names : List String) (name : String)
    (inner : FileTree) : Prop where
  leads : ∃ before, pieces path = before ++ [name] ∧
    d.follow (d.start path) before = .ok names.reverse
  named : name ≠ "" ∧ name ≠ "." ∧ name ≠ ".."
  directory : d.root.find? names = some (.directory inner)
  free : ∀ sub, inner.get? name ≠ some (.directory sub)

/-- A file can be written at the path. -/
def Writable (d : Disk) (path : String) : Prop :=
  ∃ names name inner, d.Target path names name inner

theorem Target.path_ne_empty {names : List String} {name : String} {inner : FileTree}
    (h : d.Target path names name inner) : path ≠ "" := by
  rintro rfl
  obtain ⟨before, hpieces, _⟩ := h.leads
  have hone : [""] = before ++ [name] := hpieces
  cases before with
  | nil =>
    cases hone
    exact h.named.1 rfl
  | cons p before => simp at hone

/-- When a file is written, and where. -/
theorem write_eq_ok : d.write path content = .ok d' ↔
    ∃ names name inner, d.Target path names name inner ∧
      d' = { d with root := d.root.put (names ++ [name]) (.file content) } := by
  have hstart : (if Path.isAbsolute path then [] else d.here.reverse) = d.start path := rfl
  rw [write, hstart]
  constructor
  · intro h
    split at h
    · cases h
    · next name before hpieces =>
      split at h
      · cases h
      · next place hfollow =>
        split at h
        · cases h
        · cases h
        · next inner hinner =>
          split at h
          · cases h
          · next hname =>
            simp only [Bool.or_eq_true, beq_iff_eq, not_or] at hname
            obtain ⟨⟨hlast, hdot⟩, hup⟩ := hname
            -- The last piece is not empty, so that it is the name.
            have hreverse : (pieces path).reverse = name :: before := by
              rw [← hpieces]
              cases hlist : (pieces path).reverse with
              | nil => rfl
              | cons p rest =>
                have hp : p ≠ "" := by
                  rintro rfl
                  refine hlast ?_
                  rw [← head?_reverse, hlist]
                  rfl
                rw [dropWhile_cons_of_neg (by simpa using hp)]
            have hsplit : pieces path = before.reverse ++ [name] := by
              rw [← reverse_reverse (pieces path), hreverse, reverse_cons]
            have hempty : name ≠ "" := by
              rintro rfl
              exact hlast (by rw [hsplit, getLast?_concat])
            have hplace : d.follow (d.start path) before.reverse = .ok place.reverse.reverse := by
              rwa [reverse_reverse]
            split at h
            · cases h
            · next hfree =>
              cases h
              exact ⟨place.reverse, name, inner, ⟨⟨_, hsplit, hplace⟩, ⟨hempty, hdot, hup⟩, hinner,
                fun sub => hfree sub⟩, rfl⟩
  · rintro ⟨names, name, inner, ⟨⟨before, hpieces, hfollow⟩, ⟨hempty, hdot, hup⟩, hinner, hfree⟩,
      rfl⟩
    have hdrop : (pieces path).reverse.dropWhile (·.isEmpty) = name :: before.reverse := by
      rw [hpieces, reverse_append, reverse_singleton, singleton_append,
        dropWhile_cons_of_neg (by simpa using hempty)]
    have hlast : (pieces path).getLast? = some name := by rw [hpieces, getLast?_concat]
    rw [hdrop, hlast]
    simp only [reverse_reverse, hfollow, hinner]
    rw [if_neg (by simp [hempty, hdot, hup])]

/-- A path of which only directories are asked leads where it did before. -/
theorem follow_of_directories {ps q : List String} (h : d.follow place ps = .ok q)
    (hkept : ∀ names inner, d.root.find? names = some (.directory inner) →
      ∃ inner', d'.root.find? names = some (.directory inner')) : d'.follow place ps = .ok q := by
  induction ps generalizing place with
  | nil => exact h
  | cons p ps ih =>
    rw [follow] at h ⊢
    split at h
    · cases h
    · cases h
    · next inner hinner =>
      obtain ⟨inner', hinner'⟩ := hkept _ inner hinner
      rw [hinner']
      split at h
      · next hstay => exact (if_pos hstay).trans (ih h)
      · next hstay =>
        rw [if_neg hstay]
        split at h
        · next hup => exact (if_pos hup).trans (ih h)
        · next hup => exact (if_neg hup).trans (ih h)

/-- A file that was written is found at its path. -/
theorem resolve_of_write (h : d.write path content = .ok d') :
    ∃ names, d'.resolve path = .ok (names, .file content) := by
  obtain ⟨names, name, inner, htarget, rfl⟩ := write_eq_ok.1 h
  obtain ⟨before, hpieces, hfollow⟩ := htarget.leads
  obtain ⟨hempty, hdot, hup⟩ := htarget.named
  let root := d.root.put (names ++ [name]) (.file content)
  have hkept : ∀ place sub, d.root.find? place = some (.directory sub) →
      ∃ sub', root.find? place = some (.directory sub') := fun _ _ hplace =>
    FileTree.directory_of_put htarget.directory htarget.free (.file content) hplace
  obtain ⟨inner', hinner'⟩ := hkept names inner htarget.directory
  have hlast : Disk.follow ⟨root, d.here⟩ names.reverse [name] = .ok (name :: names.reverse) := by
    simp [follow, hinner', hempty, hdot, hup]
  refine ⟨names ++ [name], resolve_eq_ok.2 ⟨htarget.path_ne_empty, ?_, ?_⟩⟩
  · have hbefore : Disk.follow ⟨root, d.here⟩ (d.start path) before = .ok names.reverse :=
      follow_of_directories hfollow hkept
    rw [hpieces, follow_append]
    change (Disk.follow ⟨root, d.here⟩ (d.start path) before).bind _ = _
    rw [hbefore, reverse_append]
    exact hlast
  · exact FileTree.find?_put htarget.directory name (.file content)

theorem read_of_write (h : d.write path content = .ok d') : d'.read path = .ok content := by
  obtain ⟨names, hresolve⟩ := resolve_of_write h
  rw [read, hresolve]

theorem exists?_of_write (h : d.write path content = .ok d') : d'.exists? path := by
  obtain ⟨names, hresolve⟩ := resolve_of_write h
  rw [exists?, hresolve]

end Disk

end CodeAtlas
