import CodeAtlas.Proofs.Disk
import CodeAtlas.Proofs.SoundTree

/-!
# Paths in a directory

A path leads from directory to directory by those of its pieces that are neither empty nor
`.` (`Path.steps`).

A file in a directory has the path of the directory with one step more (`Path.steps_join`).
From its path the file is found there (`Disk.resolve_join`).
-/

namespace CodeAtlas

open List

variable {inner : FileTree} {names : List String} (p : String)

/-! ## Pieces -/

namespace Text

variable {p : Char → Bool}

theorem splitFrom_append {c : Char} (hc : p c) (piece s t : List Char) :
    splitFrom p piece (s ++ c :: t) = splitFrom p piece s ++ splitOn p t := by
  induction s generalizing piece with
  | nil => simp [splitFrom, splitOn, hc]
  | cons a s ih =>
    rw [cons_append, splitFrom, splitFrom]
    split
    · rw [ih, cons_append]
    · exact ih _

theorem splitOn_append {c : Char} (hc : p c) (s t : List Char) :
    splitOn p (s ++ c :: t) = splitOn p s ++ splitOn p t :=
  splitFrom_append hc [] s t

theorem splitFrom_of_forall {s : List Char} (h : ∀ c ∈ s, p c = false) (piece : List Char) :
    splitFrom p piece s = [piece.reverse ++ s] := by
  induction s generalizing piece with
  | nil => simp [splitFrom]
  | cons c s ih =>
    have hs : ∀ c ∈ s, p c = false := fun a ha => h a (mem_cons_of_mem _ ha)
    simp [splitFrom, h c mem_cons_self, ih hs]

end Text

namespace Disk

/-- What stands before a slash and what stands behind it have pieces of their own. -/
theorem pieces_append (q : String) : pieces (p ++ "/" ++ q) = pieces p ++ pieces q := by
  have hsplit : (p ++ "/" ++ q).toList = p.toList ++ '/' :: q.toList := by simp
  rw [pieces, hsplit, Text.splitOn_append (by rfl), map_append]
  rfl

theorem pieces_of_isEntryName {n : String} (hn : FileTree.isEntryName n) :
    pieces n = [n] := by
  have hslash : ∀ c ∈ n.toList, (c == '/') = false := by
    intro c hc
    refine beq_eq_false_iff_ne.2 ?_
    rintro rfl
    exact (FileTree.isEntryName_iff.1 hn).2.2.2 hc
  rw [pieces, Text.splitOn, Text.splitFrom_of_forall hslash]
  simp

end Disk

namespace Path

open FileTree Disk

variable {dir n path : String}

/-- The piece leads on to another entry. -/
def leads (piece : String) : Bool :=
  piece != "" && piece != "."

/-- The pieces of a path that lead on. -/
def steps (path : String) : List String :=
  (pieces path).filter leads

theorem leads_of_isEntryName (hn : isEntryName n) : leads n := by
  obtain ⟨hempty, hdot, _⟩ := isEntryName_iff.1 hn
  simp [leads, hempty, hdot]

theorem steps_of_isEntryName (hn : isEntryName n) : steps n = [n] := by
  rw [steps, pieces_of_isEntryName hn, filter_cons_of_pos (leads_of_isEntryName hn),
    filter_nil]

/-- The parts of a path are its steps, but for a `.` at its start. -/
theorem parts_cases (path : String) : parts path = steps path ∨ parts path = "." :: steps path := by
  have hpieces : (Text.splitOn (· == '/') path.toList).map String.ofList = pieces path := rfl
  rw [steps, parts, hpieces]
  cases pieces path with
  | nil => exact .inl rfl
  | cons first rest =>
    dsimp only
    by_cases hempty : first = ""
    · rw [if_pos (beq_iff_eq.2 hempty), filter_cons_of_neg (by simp [leads, hempty])]
      exact .inl rfl
    · rw [if_neg (by simpa using hempty)]
      by_cases hdot : first = "."
      · rw [hdot]
        exact .inr rfl
      · rw [filter_cons_of_pos (by simp [leads, hempty, hdot])]
        exact .inl rfl

theorem fileName?_of_getLast? (hn : isEntryName n) (h : (parts path).getLast? = some n) :
    fileName? path = some n := by
  obtain ⟨_, hdot, hup, _⟩ := isEntryName_iff.1 hn
  simp [fileName?, h, hdot, hup]

theorem fileName?_of_isEntryName (hn : isEntryName n) : fileName? n = some n := by
  refine fileName?_of_getLast? hn ?_
  rcases parts_cases n with h | h <;> rw [h, steps_of_isEntryName hn] <;> rfl

/-! ## A file in a directory -/

theorem steps_append (q : String) : steps (p ++ "/" ++ q) = steps p ++ steps q := by
  rw [steps, pieces_append, filter_append, steps, steps]

theorem steps_append_slash : steps (p ++ "/") = steps p := by
  have h := steps_append p ""
  rwa [String.append_empty, (by decide : steps "" = []), append_nil] at h

section

variable (hdir : dir ≠ "") (hn : isEntryName n = true)

include hdir hn

/-- One slash stands between the two, be it that of the directory's path or another. -/
theorem exists_join_eq :
    ∃ lead, join dir n = lead ++ "/" ++ n ∧ (dir = lead ∨ dir = lead ++ "/") := by
  have habsolute : isAbsolute n = false := by
    refine Bool.eq_false_iff.2 fun h => (isEntryName_iff.1 hn).2.2.2 ?_
    exact mem_of_head? (beq_iff_eq.1 h)
  rw [join, habsolute, if_neg Bool.false_ne_true, if_neg (by simpa using hdir)]
  split
  · next hlast =>
    obtain ⟨lead, hlead⟩ := getLast?_eq_some_iff.1 (beq_iff_eq.1 hlast)
    have hslash : dir = String.ofList lead ++ "/" := by
      rw [← String.toList_inj]
      simpa using hlead
    exact ⟨String.ofList lead, by rw [← hslash], .inr hslash⟩
  · exact ⟨dir, rfl, .inl rfl⟩

theorem steps_join : steps (join dir n) = steps dir ++ [n] := by
  have hname := steps_of_isEntryName hn
  obtain ⟨lead, hjoin, rfl | rfl⟩ := exists_join_eq hdir hn
  · rw [hjoin, steps_append, hname]
  · rw [hjoin, steps_append, hname, steps_append_slash]

theorem isAbsolute_join : isAbsolute (join dir n) = isAbsolute dir := by
  have hhead : ∀ p q : String, p ≠ "" → isAbsolute (p ++ q) = isAbsolute p := by
    intro p q hp
    rw [isAbsolute, isAbsolute, String.toList_append]
    cases hlist : p.toList with
    | nil => exact absurd (String.toList_eq_nil_iff.1 hlist) hp
    | cons c s => rfl
  obtain ⟨lead, hjoin, rfl | rfl⟩ := exists_join_eq hdir hn
  · rw [hjoin, String.append_assoc, hhead _ _ hdir]
  · rw [hjoin, hhead _ _ hdir]

theorem join_ne_empty : join dir n ≠ "" := by
  obtain ⟨lead, hjoin, _⟩ := exists_join_eq hdir hn
  simp [hjoin]

/-- The last part of the path is the name of the file. -/
theorem getLast?_parts_join : (parts (join dir n)).getLast? = some n := by
  have hsteps := steps_join hdir hn
  rcases parts_cases (join dir n) with h | h
  · rw [h, hsteps, getLast?_concat]
  · rw [h, hsteps, ← cons_append, getLast?_concat]

end

end Path

/-! ## What paths lead to -/

namespace Disk

open FileTree

variable {d : Disk} {place ps qs q : List String} {path : String}

theorem follow_append :
    d.follow place (ps ++ qs) = (d.follow place ps).bind (d.follow · qs) := by
  induction ps generalizing place with
  | nil => rfl
  | cons p ps ih =>
    rw [cons_append, follow, follow]
    split
    · rfl
    · rfl
    · split
      · exact ih
      · split <;> exact ih

/-- A path that leads to a directory starts in one. -/
theorem directory_of_follow (h : d.follow place ps = .ok q)
    (hq : d.root.find? q.reverse = some (.directory inner)) :
    ∃ t, d.root.find? place.reverse = some (.directory t) := by
  cases ps with
  | nil =>
    cases h
    exact ⟨inner, hq⟩
  | cons p ps =>
    rw [follow] at h
    split at h
    · cases h
    · cases h
    · next t ht => exact ⟨t, ht⟩

/-- To a directory only those pieces lead that lead on. -/
theorem follow_filter_leads (hq : d.root.find? q.reverse = some (.directory inner)) :
    d.follow place (ps.filter Path.leads) = .ok q ↔ d.follow place ps = .ok q := by
  induction ps generalizing place with
  | nil => rfl
  | cons p ps ih =>
    cases hp : Path.leads p with
    | false =>
      have hstay : (p == "" || p == ".") := by
        simpa [Path.leads, Decidable.or_iff_not_imp_left] using hp
      rw [filter_cons_of_neg (Bool.eq_false_iff.1 hp), ih, follow, hstay]
      -- A piece that does not lead on still asks for a directory to stay in.
      constructor
      · intro h
        obtain ⟨t, ht⟩ := directory_of_follow h hq
        rw [ht]
        exact h
      · intro h
        split at h
        · cases h
        · cases h
        · exact h
    | true =>
      rw [filter_cons_of_pos hp, follow, follow]
      split
      · rfl
      · rfl
      · split
        · exact ih
        · split <;> exact ih

/-- Where the steps of a path start, last name first. -/
def start (d : Disk) (path : String) : List String :=
  if Path.isAbsolute path then [] else d.here.reverse

theorem resolve_eq_ok {e : Entry} :
    d.resolve path = .ok (names, e) ↔
      path ≠ "" ∧ d.follow (d.start path) (pieces path) = .ok names.reverse ∧
        d.root.find? names = some e := by
  have hstart : (if Path.isAbsolute path then [] else d.here.reverse) = d.start path := rfl
  rw [resolve]
  by_cases hpath : path = ""
  · simp [hpath]
  · rw [if_neg fun h => hpath (String.isEmpty_iff.1 h)]
    dsimp only
    rw [hstart]
    cases d.follow (d.start path) (pieces path) with
    | error fault => simp
    | ok q =>
      dsimp only
      constructor
      · intro h
        split at h
        · next hfind =>
          cases h
          exact ⟨hpath, by rw [reverse_reverse], hfind⟩
        · cases h
      · rintro ⟨_, hq, hfind⟩
        cases hq
        rw [reverse_reverse, hfind]

theorem resolve_eq_directory :
    d.resolve path = .ok (names, .directory inner) ↔
      path ≠ "" ∧ d.follow (d.start path) (Path.steps path) = .ok names.reverse ∧
        d.root.find? names = some (.directory inner) := by
  rw [resolve_eq_ok]
  refine and_congr_right fun _ => and_congr_left fun hfind => ?_
  rw [Path.steps, follow_filter_leads (by rwa [reverse_reverse])]

/-- A file in a directory is found by the path that is made of theirs. -/
theorem resolve_join {dir n : String} {e : Entry}
    (hdir : d.resolve dir = .ok (names, .directory inner)) (hn : isEntryName n)
    (he : inner.get? n = some e) : d.resolve (Path.join dir n) = .ok (names ++ [n], e) := by
  obtain ⟨hne, hfollow, hfind⟩ := resolve_eq_directory.1 hdir
  obtain ⟨lead, hjoin, hlead⟩ := Path.exists_join_eq hne hn
  have hsteps : Path.steps lead = Path.steps dir := by
    rcases hlead with rfl | rfl
    · rfl
    · exact (Path.steps_append_slash lead).symm
  have hreverse : d.root.find? names.reverse.reverse = some (.directory inner) := by
    rwa [reverse_reverse]
  -- What stands before the name leads to the directory, too.
  have hbefore : d.follow (d.start dir) (pieces lead) = .ok names.reverse := by
    rw [← hsteps, Path.steps, follow_filter_leads hreverse] at hfollow
    exact hfollow
  have hlast : d.follow names.reverse [n] = .ok (n :: names.reverse) := by
    obtain ⟨hempty, hdot, hup, _⟩ := isEntryName_iff.1 hn
    simp [follow, hfind, hempty, hdot, hup]
  refine resolve_eq_ok.2 ⟨Path.join_ne_empty hne hn, ?_, ?_⟩
  · rw [start, Path.isAbsolute_join hne hn, hjoin, pieces_append, pieces_of_isEntryName hn,
      follow_append, ← start, hbefore]
    simpa [Except.bind] using hlast
  · rw [find?_append hfind]
    exact he

end Disk

end CodeAtlas
