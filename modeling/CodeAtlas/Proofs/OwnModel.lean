import CodeAtlas.Proofs.Origin

/-!
# Which class is told of a model

A model is found by the full name of its class, but its chunk by file, line and short
name. Two classes may agree in these and differ in their namespaces, and a file that is
read twice lists each of its classes twice. Then the last of the chunks is told of the
model, whichever class declares it.

* `isTarget_iff`: without such a chunk, a model goes to that of its own class;
* `isTarget_of_collides`: with one, no model goes to the first of the two;
* `own_model_iff`: so every class is told of its own model, and of no other, exactly if
  no chunk of a model is followed by one that collides with it.
-/

namespace CodeAtlas

open List

variable {x : Listed} {i : Nat} {g : ClassGraph} {m : Model}

variable {job : Job} {roots : List String} {report : Report}

/-- What a report should have for a listed chunk: of a class, whether it is known as a
    model, and what its own declaration says as one. -/
structure OwnModel (g : ClassGraph) (x : Listed) (c : Chunk) : Prop where
  enriched : EnrichedTo x.chunk c
  orm_iff : x.chunk.kind = .class → ((c.metaAt? "orm").isSome ↔ (x.model? g).isSome)
  told : ∀ m, x.model? g = some m →
    c.metaAt? "orm" = some m.summary ∧
      c.metaAt? "relations" = (m.addTo x.chunk).metaAt? "relations"

/-- No chunk of a model is followed by that of a class with its file, line and name. -/
def Undisputed (g : ClassGraph) (xs : List Listed) : Prop :=
  xs.Pairwise fun x y => (x.model? g).isSome → ¬ x.chunk.collides y.chunk

/-- No chunk says anything of a model before one is entered. -/
theorem metaAt?_orm_of_mem_listed (hx : x ∈ listed job roots) : x.chunk.metaAt? "orm" = none := by
  have hmem : x.chunk ∈ collected job roots := map_chunk_listed ▸ mem_map_of_mem hx
  rw [Chunk.metaAt?, Json.member?_eq_none]
  exact fun m hm heq => absurd (heq ▸ (tidy_of_mem_collected hmem).each m hm) (by decide)

/-! ## Where a model goes -/

instance (a b : Chunk) : Decidable (a.collides b) :=
  inferInstanceAs (Decidable (_ ∧ _ ∧ _ ∧ _))

instance (g : ClassGraph) (xs : List Listed) : Decidable (Undisputed g xs) :=
  inferInstanceAs (Decidable (xs.Pairwise _))

theorem Chunk.collides.trans {a b c : Chunk} (hab : a.collides b) (hbc : b.collides c) :
    a.collides c :=
  ⟨hbc.1, hbc.2.1.trans hab.2.1, hbc.2.2.1.trans hab.2.2.1, hbc.2.2.2.trans hab.2.2.2⟩

/-- Where the model of a listed chunk goes. -/
theorem isTarget_iff_last (hx : x ∈ listed job roots) (hm : x.model? g = some m) :
    Run.isTarget ((listed job roots).map Listed.chunk) i m ↔
      (∃ y, (listed job roots)[i]? = some y ∧ x.chunk.collides y.chunk) ∧
        ∀ k z, i < k → (listed job roots)[k]? = some z → ¬ x.chunk.collides z.chunk := by
  have hsuits := (suits_of_model? hx hm).2
  rw [Run.isTarget, Run.isLast_map, Run.isLast_iff]
  simp only [Function.comp_apply, hsuits, Bool.eq_false_iff, ne_eq]

/-- A model goes to the chunk of its own class, if no other claims its place later. -/
theorem isTarget_iff (h : Undisputed g (listed job roots)) {j : Nat}
    (hx : (listed job roots)[j]? = some x) (hm : x.model? g = some m) :
    Run.isTarget ((listed job roots).map Listed.chunk) i m ↔ i = j := by
  have hmem := mem_of_getElem? hx
  have hself : x.chunk.collides x.chunk := ⟨(suits_of_model? hmem hm).1, rfl, rfl, rfl⟩
  have hsome : (x.model? g).isSome := by rw [hm]; rfl
  have hlater : ∀ k z, j < k → (listed job roots)[k]? = some z → ¬ x.chunk.collides z.chunk := by
    intro k z hk hz
    obtain ⟨hj, rfl⟩ := List.getElem?_eq_some_iff.1 hx
    obtain ⟨hk', rfl⟩ := List.getElem?_eq_some_iff.1 hz
    exact pairwise_iff_getElem.1 h j k hj hk' hk hsome
  rw [isTarget_iff_last hmem hm]
  constructor
  · rintro ⟨⟨y, hy, hcollides⟩, hlast⟩
    rcases Nat.lt_trichotomy i j with hij | hij | hij
    · -- The chunk of the class itself comes later, and would have been taken.
      exact absurd hself (hlast j x hij hx)
    · exact hij
    · -- The place would be disputed.
      exact absurd hcollides (hlater i y hij hy)
  · rintro rfl
    exact ⟨⟨x, hx, hself⟩, hlater⟩

/-- No model goes to a chunk that a later one collides with. -/
theorem isTarget_of_collides {k : Nat} {y z : Listed} (hx : (listed job roots)[i]? = some x)
    (hy : (listed job roots)[k]? = some y) (hik : i < k) (hcollides : x.chunk.collides y.chunk)
    (hz : z ∈ listed job roots) (hm : z.model? g = some m) :
    Run.isTarget ((listed job roots).map Listed.chunk) i m = false := by
  rw [Bool.eq_false_iff, ne_eq, isTarget_iff_last hz hm]
  rintro ⟨⟨x', hx', hzx⟩, hlast⟩
  obtain rfl : x = x' := Option.some.inj (hx.symm.trans hx')
  exact hlast k y hik hy (hzx.trans hcollides)

/-! ## The report -/

theorem Chunk.samePlace_addAll (c : Chunk) (models : List Model) :
    c.samePlace (Run.addAll c models) := by
  have hbare : c.bare = (Run.addAll c models).bare :=
    (foldl_keeps (fun c m => m.bare_addTo c) models c).symm
  have hfile : c.bare.filePath = _ := congrArg filePath hbare
  have hline : c.bare.startLine = _ := congrArg startLine hbare
  exact samePlace_iff.2 ⟨hfile, hline⟩

theorem chunks_finish :
    (finalRun job roots).finish.chunks =
      sortChunks ((graphOf job roots).models.foldl Run.enter (collected job roots)) := rfl

theorem ownModel_addAll (hx : x ∈ listed job roots) :
    OwnModel g x (Run.addAll x.chunk (x.model? g).toList) := by
  cases hm : x.model? g with
  | none =>
    refine ⟨.inl rfl, fun hk => ?_, fun m hm' => ?_⟩
    · rw [hm]
      exact ⟨fun h => absurd h (by simp [Run.addAll, metaAt?_orm_of_mem_listed hx]), nofun⟩
    · cases hm.symm.trans hm'
  | some m =>
    have hk := (suits_of_model? hx hm).1
    have hmem : x.chunk ∈ collected job roots := map_chunk_listed ▸ mem_map_of_mem hx
    refine ⟨.inr ⟨hk, ?_⟩, fun _ => ?_, fun m' hm' => ?_⟩
    · rw [Run.withoutModel_addAll, (tidy_of_mem_collected hmem).withoutModel]
    · rw [hm]
      exact ⟨fun _ => rfl, fun _ => congrArg Option.isSome (m.metaAt?_orm_addTo x.chunk)⟩
    · cases hm.symm.trans hm'
      exact ⟨m.metaAt?_orm_addTo x.chunk, rfl⟩

/-- Each chunk gets its own model, if no chunk of a model is followed by one that
    collides with it. -/
theorem filter_isTarget (h : Undisputed g (listed job roots))
    (hx : (listed job roots)[i]? = some x) :
    ((listed job roots).filterMap (·.model? g)).filter
      (Run.isTarget ((listed job roots).map Listed.chunk) i) = (x.model? g).toList := by
  rw [filter_filterMap_eq fun j y m hy hm => isTarget_iff h hy hm, hx]
  rfl

/-- A chunk of a model gets no model at all, if one that collides with it follows. -/
theorem filter_isTarget_of_collides {k : Nat} {y : Listed} (hx : (listed job roots)[i]? = some x)
    (hy : (listed job roots)[k]? = some y) (hik : i < k) (hcollides : x.chunk.collides y.chunk) :
    ((listed job roots).filterMap (·.model? g)).filter
      (Run.isTarget ((listed job roots).map Listed.chunk) i) = [] := by
  refine filter_eq_nil_iff.2 fun m hm => ?_
  obtain ⟨z, hz, hm⟩ := mem_filterMap.1 hm
  rw [isTarget_of_collides hx hy hik hcollides hz hm]
  decide

/-- Every class in the report is told of the model that it declares and of no other,
    exactly if no chunk of a model is followed by that of a class with the same file,
    line and short name. -/
theorem own_model_iff (h : index job roots = .ok report) :
    List.Forall₂ (OwnModel (graphOf job roots)) (arrange Listed.chunk (listed job roots))
        report.chunks ↔
      Undisputed (graphOf job roots) (listed job roots) := by
  obtain ⟨_, rfl⟩ := index_eq_ok h
  rw [chunks_finish, models_eq, ← map_chunk_listed, forall₂_arrange, Run.forall₂_foldl_enter]
  · constructor
    · intro hown
      -- A chunk of a model that another follows gets no model, not even its own.
      refine pairwise_iff_getElem.2 fun i k hi hk hik hmodel hcollides => ?_
      have hx := getElem?_eq_getElem hi
      obtain ⟨m, hm⟩ := Option.isSome_iff_exists.1 hmodel
      have hmem := getElem_mem hi
      have htold := (hown i _ hx).told m hm
      rw [filter_isTarget_of_collides hx (getElem?_eq_getElem hk) hik hcollides] at htold
      have hnone := metaAt?_orm_of_mem_listed hmem
      cases hnone.symm.trans htold.1
    · intro hund i x hx
      rw [filter_isTarget hund hx]
      exact ownModel_addAll (mem_of_getElem? hx)
  · exact (Run.forall₂_foldl_enter _).2 fun i x _ => Chunk.samePlace_addAll _ _

/-- A tree with one file, that has a model and another class on one line. -/
def neighbours : Job where
  config := {}
  disk := {
    root := .file "m.php" (bytesOf "<?php\nclass P extends Model { } class Q { }\n") .empty }

/-- Classes that share a line are told apart by their names. -/
theorem own_model_neighbours :
    ∃ report, index neighbours ["m.php"] = .ok report ∧
      List.Forall₂ (OwnModel (graphOf neighbours ["m.php"]))
        (arrange Listed.chunk (listed neighbours ["m.php"])) report.chunks := by
  have h : index neighbours ["m.php"] = .ok (finalRun neighbours ["m.php"]).finish :=
    index_of_uncancelled (by decide) rfl
  exact ⟨_, h, (own_model_iff h).2 (by decide +kernel)⟩

/-- A tree with one file, that has two classes of one name on one line. -/
def namesakes : Job where
  config := {}
  disk := {
    root := .file "m.php"
      (bytesOf ("<?php\nnamespace A \x7b class P extends Model \x7b \x7d \x7d " ++
        "namespace B \x7b class P \x7b \x7d \x7d\n")) .empty }

/-- Of two classes of one name on one line the second is told of the model that the
    first declares. -/
theorem namesake_told_of_model :
    (["m.php"].flatMap (selected namesakes)).map (·.path) = ["m.php"] ∧
      ((graphOf namesakes ["m.php"]).map fun e =>
        (e.type.qualifiedName, (graphOf namesakes ["m.php"]).isModel e)) =
          [("A\\P", true), ("B\\P", false)] ∧
      ∃ report, index namesakes ["m.php"] = .ok report ∧
        (report.chunks.map fun c => (c.package, c.name, (c.metaAt? "orm").isSome)) =
          [("A", "P", false), ("B", "P", true)] := by
  refine ⟨by decide +kernel, by decide +kernel, _, index_of_uncancelled (by decide) rfl, ?_⟩
  -- The chunks stand on one line, so they are sorted as they are.
  have hsorted : ((graphOf namesakes ["m.php"]).models.foldl Run.enter
      (collected namesakes ["m.php"])).Pairwise (fun a b => a.atOrBefore b = true) := by
    decide +kernel
  rw [chunks_finish, sortChunks, mergeSort_of_pairwise hsorted]
  decide +kernel

end CodeAtlas
