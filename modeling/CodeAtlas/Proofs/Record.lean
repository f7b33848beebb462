import Mathlib.Data.List.Nodup
import CodeAtlas.Chunk.Record
import CodeAtlas.Proofs.Json.Ordered

/-!
# Chunks in writing

A chunk is written as an object whose members are its fields, in a fixed order and some of them
left out. So none is given twice (`givenOnce_toJson`), and each is found under its name. From
the object the chunk is made again (`ofJson?_toJson`), and it is made from the written text if
its values are plain and not nested too deep (`read_compress`).
-/

namespace CodeAtlas

open Json List

theorem ChunkKind.ofWord?_word (k : ChunkKind) : ofWord? k.word = some k := by
  cases k <;> rfl

namespace Json

theorem member?_append (key : String) (xs ys : List (String × Json)) :
    member? key (xs ++ ys) = (member? key xs).or (member? key ys) := by
  induction xs with
  | nil => rfl
  | cons x xs ih =>
    obtain ⟨k, v⟩ := x
    simp only [cons_append, member?]
    split
    · rfl
    · exact ih

/-- Members whose keys are some of the names, in their order, are given once. -/
theorem givenOnce_of_sublist {names : List String} (hnames : names.Nodup) {members : Fields}
    (h : (members.map Prod.fst).Sublist names) : givenOnce names members := by
  rw [givenOnce, all_eq_true]
  intro name _
  have hcount : (members.map Prod.fst).count name ≤ 1 :=
    Nat.le_trans (h.count_le name) (nodup_iff_count_le_one.1 hnames name)
  rw [List.count, countP_map] at hcount
  exact decide_eq_true hcount

/-- The members of an object. -/
def membersOf : Json → List (String × Json)
  | .obj members => members
  | _ => []

end Json

namespace Chunk

variable {α : Type} {a : Option α}

theorem member?_optField (key name : String) (toJson : α → Json) (a : Option α) :
    member? key (optField name toJson a) = if name = key then a.map toJson else none := by
  cases a with
  | none => simp [optField, member?]
  | some a => simp [optField, member?]

theorem sublist_optField (name : String) (toJson : α → Json) (a : Option α) :
    ((optField name toJson a).map Prod.fst).Sublist [name] := by
  cases a with
  | none => exact nil_sublist _
  | some a => exact List.Sublist.refl _

variable (c : Chunk)

/-- The metadata, if there are any. -/
def metadata? : Option (List (String × Json)) :=
  if c.metadata.isEmpty then none else some c.metadata

theorem toJson_eq : c.toJson = .obj (
    [("kind", .str c.kind.word), ("name", .str c.name), ("package", .str c.package),
      ("language", .str c.language), ("file_path", .str c.filePath),
      ("start_line", .nat c.startLine), ("end_line", .nat c.endLine)] ++
    optField "selection_start" .nat c.selectionStart ++
    optField "selection_end" .nat c.selectionEnd ++ optField "parent" .str c.parent ++
    [("signature", .str c.signature), ("docstring", .str c.docstring), ("code", .str c.code)] ++
    optField "metadata" .obj c.metadata?) := by
  have hmeta : optField "metadata" .obj c.metadata? =
      if c.metadata.isEmpty then [] else [("metadata", .obj c.metadata)] := by
    rw [metadata?]
    split <;> rfl
  rw [hmeta]
  rfl

theorem givenOnce_toJson : givenOnce fieldNames c.toJson.membersOf := by
  refine givenOnce_of_sublist (by decide) ?_
  rw [toJson_eq, membersOf]
  simp only [map_append]
  exact ((((((List.Sublist.refl _).append (sublist_optField ..)).append
    (sublist_optField ..)).append (sublist_optField ..)).append (List.Sublist.refl _)).append
      (sublist_optField ..))

/-- The fields that are always written. -/
theorem required_toJson :
    required (asWord? ChunkKind.ofWord?) "kind" c.toJson.membersOf = some c.kind ∧
      required asString? "name" c.toJson.membersOf = some c.name ∧
      required asString? "package" c.toJson.membersOf = some c.package ∧
      required asString? "language" c.toJson.membersOf = some c.language ∧
      required asString? "file_path" c.toJson.membersOf = some c.filePath ∧
      required asNat? "start_line" c.toJson.membersOf = some c.startLine ∧
      required asNat? "end_line" c.toJson.membersOf = some c.endLine ∧
      required asString? "signature" c.toJson.membersOf = some c.signature ∧
      required asString? "docstring" c.toJson.membersOf = some c.docstring ∧
      required asString? "code" c.toJson.membersOf = some c.code := by
  simp [toJson_eq, membersOf, required, member?_append, member?_optField, member?, asWord?,
    asString?, asNat?, ChunkKind.ofWord?_word]

theorem withDefault_of_member {read : Json → Option α} {f : α → Json} {key : String} {fs : Fields}
    (hmember : member? key fs = a.map f) (hread : ∀ a, asOption? read (f a) = some (some a)) :
    withDefault none (asOption? read) key fs = some a := by
  rw [withDefault, hmember]
  cases a with
  | none => rfl
  | some a => exact hread a

theorem withDefault_toJson :
    withDefault none (asOption? asNat?) "selection_start" c.toJson.membersOf =
        some c.selectionStart ∧
      withDefault none (asOption? asNat?) "selection_end" c.toJson.membersOf = some c.selectionEnd ∧
      withDefault none (asOption? asString?) "parent" c.toJson.membersOf = some c.parent := by
  refine ⟨withDefault_of_member (f := .nat) ?_ fun _ => rfl,
    withDefault_of_member (f := .nat) ?_ fun _ => rfl,
    withDefault_of_member (f := .str) ?_ fun _ => rfl⟩ <;>
  simp [toJson_eq, membersOf, member?_append, member?_optField, member?]

theorem withDefault_metadata (h : asMap? (.obj c.metadata) = some c.metadata) :
    withDefault [] asMap? "metadata" c.toJson.membersOf = some c.metadata := by
  have hmember : member? "metadata" c.toJson.membersOf = c.metadata?.map .obj := by
    simp [toJson_eq, membersOf, member?_append, member?_optField, member?]
  rw [withDefault, hmember, metadata?]
  by_cases hempty : c.metadata = []
  · rw [hempty]
    rfl
  · simp [hempty, h]

theorem ofJson?_toJson (h : asMap? (.obj c.metadata) = some c.metadata) :
    ofJson? c.toJson = some c := by
  have hfields : fields? fieldNames c.toJson = some c.toJson.membersOf :=
    if_pos c.givenOnce_toJson
  obtain ⟨hkind, hname, hpackage, hlanguage, hfile, hstart, hstop, hsignature, hdoc, hcode⟩ :=
    c.required_toJson
  obtain ⟨hselection, hend, hparent⟩ := c.withDefault_toJson
  -- One field after another: a reader of one is not looked at before those ahead of it are read.
  rw [ofJson?, bind_of_eq_some hfields, bind_of_eq_some hkind, bind_of_eq_some hname,
    bind_of_eq_some hpackage, bind_of_eq_some hlanguage, bind_of_eq_some hfile,
    bind_of_eq_some hstart, bind_of_eq_some hstop, bind_of_eq_some hselection,
    bind_of_eq_some hend, bind_of_eq_some hparent, bind_of_eq_some hsignature,
    bind_of_eq_some hdoc, bind_of_eq_some hcode, bind_of_eq_some (c.withDefault_metadata h)]
  rfl

variable {c}

/-- The numbers of the chunk have 64 bits, and its metadata is a map of plain values. -/
structure Plain (c : Chunk) : Prop where
  startLine : c.startLine < wordLimit
  endLine : c.endLine < wordLimit
  selectionStart : ∀ n ∈ c.selectionStart, n < wordLimit
  selectionEnd : ∀ n ∈ c.selectionEnd, n < wordLimit
  metadata : (Json.obj c.metadata).Plain

theorem plain_of_mem_optField {name : String} {toJson : α → Json} (h : ∀ x ∈ a, (toJson x).Plain)
    {m : String × Json} (hm : m ∈ optField name toJson a) : m.2.Plain := by
  rcases a with _ | x
  · cases hm
  · rw [mem_singleton.1 hm]
    exact h x rfl

/-- The values of all fields are plain. -/
theorem Plain.of_mem_membersOf (h : c.Plain) : ∀ m ∈ c.toJson.membersOf, m.2.Plain := by
  have hmeta : ∀ x ∈ c.metadata?, (Json.obj x).Plain := by
    intro x hx
    rw [metadata?] at hx
    split at hx
    · cases hx
    · exact Option.some.inj hx ▸ h.metadata
  intro m hm
  rw [toJson_eq, membersOf] at hm
  simp only [mem_append] at hm
  rcases hm with ((((hm | hm) | hm) | hm) | hm) | hm
  · simp only [mem_cons, not_mem_nil, or_false] at hm
    rcases hm with rfl | rfl | rfl | rfl | rfl | rfl | rfl
    all_goals first | exact .str _ | exact .nat h.startLine | exact .nat h.endLine
  · exact plain_of_mem_optField (fun n hn => .nat (h.selectionStart n hn)) hm
  · exact plain_of_mem_optField (fun n hn => .nat (h.selectionEnd n hn)) hm
  · exact plain_of_mem_optField (fun s _ => .str s) hm
  · simp only [mem_cons, not_mem_nil, or_false] at hm
    rcases hm with rfl | rfl | rfl <;> exact .str _
  · exact plain_of_mem_optField hmeta hm

/-- What a chunk is written as is read as the chunk, unless it is nested too deep. -/
theorem Plain.read_compress (h : c.Plain) :
    (Json.read? c.toJson.compress).bind ofJson? =
      if c.toJson.depth < depthLimit then some c else none := by
  have hread : readChars? (write .compact 0 c.toJson) =
      if c.toJson.depth < depthLimit then some c.toJson else none :=
    readChars?_write h.of_mem_membersOf .compact
  rw [Json.read?, compress, String.toList_ofList, compressChars_eq 0, hread]
  split
  · exact ofJson?_toJson c (asMap?_of_plain h.metadata)
  · rfl

theorem Plain.newline_not_mem (h : c.Plain) : '\n' ∉ c.toJson.compress.toList := by
  rw [compress, String.toList_ofList]
  exact newline_not_mem_object h.of_mem_membersOf

end Chunk

end CodeAtlas
