import CodeAtlas.Proofs.Selection

/-!
# Files with routes in a tree

Files with routes are looked for among all files that may be indexed, whatever their language.
So they are found in directories that are passed over for PHP, too, where no other file of PHP
is selected (`stored_routes_not_selected`). Any other file with routes is selected as a file of
PHP, since its name is that of one and not that of a test (`route_file_selected_iff`).
-/

namespace CodeAtlas

open FileTree List

/-- Files with routes are in PHP, and hold no tests. -/
theorem php_of_isRouteFile {path n : String} (h : isRouteFile path)
    (hname : Path.fileName? path = some n) :
    Language.ofPath? n = some .php ∧ Language.php.isTestFile n = false := by
  rw [isRouteFile, hname, Bool.and_eq_true] at h
  have htable : ∀ n ∈ ["web.php", "api.php", "console.php", "channels.php"],
      Language.ofPath? n = some .php ∧ Language.php.isTestFile n = false := by
    decide
  exact htable n (by simpa using h.2)

theorem Language.skipsDir_php {m : String} (hm : m ∉ commonSkips) :
    Language.php.skipsDir m = false ↔ m ≠ "storage" ∧ m ≠ "bootstrap" := by
  simp [skipsDir, hm]

section

variable {c : Config} {d : Disk} {root : String} {place : List String} {t : FileTree}

/-- A file with routes that a walk comes to is a source of PHP if none of its directories is
    passed over for PHP. (Those that are passed over for all languages are not entered.) -/
theorem source?_of_isRouteFile (hphp : c.isEnabled .php) {x : Walk.Found}
    (hreach : (Walk.filterOf c).reaches x.names) {dir n : String}
    {names dirs : List String} (hnames : x.names = dirs ++ [n])
    (hlies : Walk.LiesIn d root x.path dir names n) (hroute : isRouteFile x.path) :
    Walk.source? c x = some ⟨x.path, .php⟩ ↔ ∀ m ∈ dirs, m ≠ "storage" ∧ m ≠ "bootstrap" := by
  obtain ⟨hlanguage, htest⟩ := php_of_isRouteFile hroute hlies.fileName?
  have henabled : Language.php ∈ c.languages := by simpa [Config.isEnabled] using hphp
  rw [Walk.source?_eq_some_iff hnames hlies.fileName? hlies.language]
  simp only [hlanguage, henabled, htest, or_true, true_and]
  refine forall₂_congr fun m hm => Language.skipsDir_php fun hskip => ?_
  rw [hnames] at hreach
  exact (Walk.Filter.reaches_iff.1 hreach).2 m hm (mem_append_left _ hskip)

/-- A file is selected if it is a source: no other file has its path. -/
theorem mem_sources_iff (hroot : d.resolve root = .ok (place, .directory t))
    (ht : t.isSound) {found : List Walk.Found}
    (hreached : ∀ x ∈ found, Walk.Reached (Walk.filterOf c) t root [] x) {x : Walk.Found}
    (hx : x ∈ found) {l : Language} :
    (⟨x.path, l⟩ : SourceFile) ∈ found.filterMap (Walk.source? c) ↔
      Walk.source? c x = some ⟨x.path, l⟩ := by
  refine ⟨fun h => ?_, fun h => mem_filterMap.2 ⟨x, hx, h⟩⟩
  obtain ⟨y, hy, hsource⟩ := mem_filterMap.1 h
  have hpath : y.path = x.path := (source?_eq_some hsource).1.symm
  obtain ⟨hxpath, -, ⟨_, hxfind, -⟩, -⟩ := (hreached x hx).exists_liesIn hroot ht
  obtain ⟨hypath, -, ⟨_, hyfind, -⟩, -⟩ := (hreached y hy).exists_liesIn hroot ht
  have hnames : y.names = x.names := Walk.pathTo_inj (Disk.resolve_eq_ok.1 hroot).1 ht hyfind
    hxfind (hypath.symm.trans (hpath.trans hxpath))
  rw [← hsource, Walk.source?, Walk.source?, hpath, hnames]

end

/-- The files with routes under a directory are files of its tree. Each of them is selected as a
    file of PHP if and only if none of the directories that lead to it from the root is passed
    over for PHP. -/
theorem route_file_selected_iff (c : Config) (d : Disk) (root : String) (place : List String)
    (t : FileTree) (hsound : d.root.isSound = true)
    (hroot : d.resolve root = .ok (place, .directory t)) (hphp : c.isEnabled .php = true) :
    ∃ sources routes, Walk.sources? c d root = some sources ∧
      Walk.routeFiles? c d root = some routes ∧
      (∀ path ∈ routes, ∃ dirs n content, path = Walk.pathTo root (dirs ++ [n]) ∧
        t.find? (dirs ++ [n]) = some (.file content)) ∧
      ∀ dirs n content, t.find? (dirs ++ [n]) = some (.file content) →
        Walk.pathTo root (dirs ++ [n]) ∈ routes →
        ((⟨Walk.pathTo root (dirs ++ [n]), .php⟩ : SourceFile) ∈ sources ↔
          ∀ m ∈ dirs, m ≠ "storage" ∧ m ≠ "bootstrap") := by
  have ht : t.isSound = true := isSound_of_find? hsound (Disk.find?_of_resolve hroot)
  obtain ⟨found, hfound, hreached⟩ := Walk.exists_files? hroot ht c
  refine ⟨found.filterMap (Walk.source? c), (found.map Walk.Found.path).filter isRouteFile,
    by rw [Walk.sources?, hfound, Option.map_some],
    by rw [Walk.routeFiles?, hfound, Option.map_some], fun path hpath => ?_,
    fun dirs n content hfind hpath => ?_⟩
  · obtain ⟨x, hx, rfl⟩ := mem_map.1 (mem_filter.1 hpath).1
    obtain ⟨hpath, -, ⟨content, hfind, -⟩, dirs, n, hnames, -⟩ :=
      (hreached x hx).exists_liesIn hroot ht
    rw [hnames] at hpath hfind
    exact ⟨dirs, n, content, hpath, hfind⟩
  · obtain ⟨hpath, hroute⟩ := mem_filter.1 hpath
    obtain ⟨x, hx, hpath⟩ := mem_map.1 hpath
    obtain ⟨hxpath, hreach, ⟨_, hxfind, -⟩, dirs', n', hnames, hlies⟩ :=
      (hreached x hx).exists_liesIn hroot ht
    -- Its path tells the names that lead to a file, so that the file found is the one given.
    have hsame : x.names = dirs ++ [n] := Walk.pathTo_inj (Disk.resolve_eq_ok.1 hroot).1 ht hxfind
      hfind (hxpath.symm.trans hpath)
    obtain ⟨rfl, ⟨⟩⟩ := append_inj' (hsame.symm.trans hnames) rfl
    rw [← hpath] at hroute ⊢
    rw [mem_sources_iff hroot ht hreached hx,
      source?_of_isRouteFile hphp hreach hnames hlies hroute]

/-- A project with routes of its own and routes in a directory for storage. -/
def stored : Disk where
  root := .directory "p"
    (.directory "routes" (.file "web.php" [] .empty)
      (.directory "storage" (.directory "routes" (.file "web.php" [] .empty) .empty) .empty))
    .empty

/-- The routes of the project itself are selected, those in storage are not. -/
theorem route_file_selected_stored :
    ∃ sources routes, Walk.sources? {} stored "p" = some sources ∧
      Walk.routeFiles? {} stored "p" = some routes ∧
      "p/routes/web.php" ∈ routes ∧ (⟨"p/routes/web.php", .php⟩ : SourceFile) ∈ sources ∧
      "p/storage/routes/web.php" ∈ routes ∧
      (⟨"p/storage/routes/web.php", .php⟩ : SourceFile) ∉ sources := by
  obtain ⟨sources, routes, hsources, hroutes, -, hselected⟩ :=
    route_file_selected_iff {} stored "p" ["p"] _ (by decide) rfl (by decide)
  have hmem : ∀ path ∈ ["p/routes/web.php", "p/storage/routes/web.php"], path ∈ routes := by
    have hrun : Walk.routeFiles? {} stored "p" =
        some ["p/routes/web.php", "p/storage/routes/web.php"] := by decide +kernel
    cases hroutes.symm.trans hrun
    exact fun _ h => h
  have hown := hselected ["routes"] "web.php" [] rfl (hmem _ (by decide))
  have hstored := hselected ["storage", "routes"] "web.php" [] rfl (hmem _ (by decide))
  exact ⟨sources, routes, hsources, hroutes, hmem _ (by decide), hown.2 (by decide),
    hmem _ (by decide), fun h => absurd (hstored.1 h) (by decide)⟩

/-- Files with routes are found in a directory that is passed over for PHP. -/
theorem stored_routes_not_selected :
    Config.isEnabled {} .php = true ∧
      "p/storage/routes/web.php" ∈ (Walk.routeFiles? {} stored "p").getD [] ∧
      Walk.sources? {} stored "p" = some [⟨"p/routes/web.php", .php⟩] := by
  decide +kernel

end CodeAtlas
