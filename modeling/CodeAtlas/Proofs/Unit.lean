import CodeAtlas.Proofs.Php.Namespace
import CodeAtlas.Proofs.Python.Declared
import CodeAtlas.Proofs.Visit

/-!
# Units and their languages

A unit that is read from a file is in the language of the file
(`Run.language_fileOutline?`), and that of a package is in Go. So it can be told from a
unit what it was read from.

* `unit_mem_batches`: what a unit may be read from;
* `exists_php_of_mem_batches`: units in PHP;
* `exists_package_of_mem_batches`: units in Go.
-/

namespace CodeAtlas

variable {job : Job} {roots : List String}

theorem Python.language_outline (path : String) (text : List Char) :
    (outline path text).language = .python := by
  obtain ⟨_, _, _, _, h, -⟩ := outline_eq path text
  rw [h]

variable {o : Outline}

theorem Go.language_outline? {directory : String} {contents : List (String × Bytes)}
    {exportedOnly : Bool} (h : outline? directory contents exportedOnly = some o) :
    o.language = .go := by
  rw [outline?] at h
  split at h
  · cases h
  · cases h
    rw [packageOutline]
    split <;> rfl

/-- A unit is in the language of its file. -/
theorem Run.language_fileOutline? {d : Disk} {f : SourceFile} (h : fileOutline? d f = some o) :
    o.language = f.language ∧ f.language ≠ .go := by
  rw [fileOutline?] at h
  split at h
  · cases h
  · split at h
    · next hphp => exact ⟨((Php.isNamed_of_outline? h).1).trans hphp.symm, by simp [hphp]⟩
    · next hpython =>
      cases h
      exact ⟨(Python.language_outline ..).trans hpython.symm, by simp [hpython]⟩
    · next hmarkdown =>
      obtain ⟨text, _, rfl⟩ := Option.map_eq_some_iff.1 h
      exact ⟨hmarkdown.symm, by simp [hmarkdown]⟩
    · cases h

/-- A unit is read from a file, or from the files of a package. -/
theorem unit_mem_batches (ho : .unit o ∈ batches job roots) :
    (∃ f, Run.fileOutline? job.disk f = some o) ∨
      ∃ files f, .package files f ∈ readVisits job roots ∧
        Go.outline? (Run.directoryOf f.path) (Visit.contents job.disk (Visit.members files f))
          job.config.exportedOnly = some o := by
  obtain ⟨v, hv, hunit⟩ := List.mem_filterMap.1 ho
  cases v with
  | file f =>
    obtain ⟨o', ho', heq⟩ := Option.map_eq_some_iff.1 hunit
    cases heq
    exact .inl ⟨f, ho'⟩
  | package files f =>
    obtain ⟨o', ho', heq⟩ := Option.map_eq_some_iff.1 hunit
    cases heq
    exact .inr ⟨files, f, hv, ho'⟩
  | routes path =>
    obtain ⟨rs, _, heq⟩ := Option.map_eq_some_iff.1 hunit
    cases heq

/-- Routes are read from a file. -/
theorem routes_mem_batches {rs : List Route} (hrs : .routes rs ∈ batches job roots) :
    ∃ path, Visit.routesOf? job.disk path = some rs := by
  obtain ⟨v, _, hroutes⟩ := List.mem_filterMap.1 hrs
  cases v with
  | file f =>
    obtain ⟨o, _, heq⟩ := Option.map_eq_some_iff.1 hroutes
    cases heq
  | package files f =>
    obtain ⟨o, _, heq⟩ := Option.map_eq_some_iff.1 hroutes
    cases heq
  | routes path =>
    obtain ⟨rs', hrs', heq⟩ := Option.map_eq_some_iff.1 hroutes
    cases heq
    exact ⟨path, hrs'⟩

/-- A unit in PHP is read from a PHP file. -/
theorem exists_php_of_mem_batches (ho : .unit o ∈ batches job roots) (hphp : o.language = .php) :
    ∃ path source, Php.outline? path source = some o := by
  rcases unit_mem_batches ho with ⟨f, hf⟩ | ⟨files, f, _, hpackage⟩
  · have hlanguage := (Run.language_fileOutline? hf).1
    rw [Run.fileOutline?, ← hlanguage, hphp] at hf
    split at hf
    · cases hf
    · exact ⟨_, _, hf⟩
  · rw [Go.language_outline? hpackage] at hphp
    cases hphp

/-- A unit in Go is that of a package. -/
theorem exists_package_of_mem_batches (ho : .unit o ∈ batches job roots) (hgo : o.language = .go) :
    ∃ files f, .package files f ∈ readVisits job roots ∧
      Go.outline? (Run.directoryOf f.path) (Visit.contents job.disk (Visit.members files f))
        job.config.exportedOnly = some o := by
  rcases unit_mem_batches ho with ⟨f, hf⟩ | hpackage
  · obtain ⟨hlanguage, hne⟩ := Run.language_fileOutline? hf
    exact absurd (hlanguage.symm.trans hgo) hne
  · exact hpackage

end CodeAtlas
