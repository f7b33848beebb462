import CodeAtlas.Proofs.Php.Fluent
import CodeAtlas.Proofs.Php.Namespace
import CodeAtlas.Proofs.Placement

/-!
# Where the symbols of PHP files stand

What is declared at a node stands on its lines, and its name is inside of it. A route stands where
the call is that registers it.

* `placed_of_typeOf?`: a type and its members;
* `placed_of_outline?`: the outline of a file;
* `Route.standsAt_of_ofFile?`: the routes of a file, by induction on its tree.
-/

namespace CodeAtlas.Php

open Grammar List Option

variable {s : Sited Kind} {P : String → Nat → Prop} {source : Source} {path : String} {n : Nat}

/-! ## Declarations -/

/-- The members of a type are nodes of its body. -/
theorem onLines_of_mem_membersOf {t : ParseTree Kind} (ht : OnLines n t)
    {p : ParseTree Kind → Bool} {m : Sited Kind} (hm : m ∈ membersOf p (t.part? .body)) :
    OnLines n m.tree := by
  cases hbody : t.part? .body with
  | none =>
    rw [hbody] at hm
    cases hm
  | some body =>
    rw [hbody] at hm
    have hbody := ht.of_mem (ParseTree.mem_of_part? hbody).1
    exact hbody.of_mem (Sited.tree_mem_parts (mem_filter.1 hm).1)

section

variable (hpath : ∀ k ≤ n + 1, P path k) (hs : OnLines (n + 1) s.tree)

include hpath hs

theorem standsIn_callableOf :
    StandsIn P (callableOf source path s).filePath (callableOf source path s).span :=
  hs.standsIn_part? hpath .name

theorem standsIn_of_mem_propertiesOf {p : Property} (hp : p ∈ propertiesOf source path s) :
    StandsIn P p.filePath p.span := by
  obtain ⟨element, helement, hp⟩ := mem_filterMap.1 hp
  obtain ⟨var, hvar, hp⟩ := bind_eq_some_iff.1 hp
  cases hp
  have hinside := hs.nested.inside.of_mem_nodes (mem_filter.1 helement).1
  exact hs.standsIn hpath (hinside.of_mem_nodes (mem_of_find?_eq_some hvar))

theorem standsIn_of_mem_constantsOf {b : Binding} (hb : b ∈ constantsOf source path s) :
    StandsIn P b.filePath b.span := by
  obtain ⟨element, helement, hb⟩ := mem_filterMap.1 hb
  obtain ⟨name, hname, hb⟩ := bind_eq_some_iff.1 hb
  cases hb
  have hinside := hs.nested.inside.of_mem_nodes (mem_filter.1 helement).1
  exact hs.standsIn hpath (hinside.of_mem_nodes (mem_of_head? hname))

theorem standsIn_of_enumCaseOf?
    {b : Binding} (hb : enumCaseOf? source path s = some b) : StandsIn P b.filePath b.span := by
  obtain ⟨name, hname, hb⟩ := bind_eq_some_iff.1 hb
  cases hb
  exact hs.standsIn hpath (hs.nested.inside.of_mem (ParseTree.mem_of_part? hname).1)

/-- A type stands on the lines of its declaration, and its members within. -/
theorem placed_of_typeOf? {namespaceName : String} {kind : TypeKind} {t : TypeDef}
    (ht : typeOf? source path namespaceName kind s = some t) : t.Placed P := by
  obtain ⟨name, hname, ht⟩ := bind_eq_some_iff.1 ht
  cases ht
  constructor
  · exact hs.standsIn hpath (hs.nested.inside.of_mem (ParseTree.mem_of_part? hname).1)
  · simp
  · refine forall_mem_map.2 fun m hm => ?_
    exact standsIn_callableOf hpath (onLines_of_mem_membersOf hs hm)
  · intro p hp
    obtain ⟨m, hm, hp⟩ := mem_flatMap.1 hp
    exact standsIn_of_mem_propertiesOf hpath (onLines_of_mem_membersOf hs hm) hp
  · intro b hb
    obtain ⟨m, hm, hb⟩ := mem_flatMap.1 hb
    have hlines := onLines_of_mem_membersOf hs hm
    split at hb
    · exact standsIn_of_mem_constantsOf hpath hlines hb
    · exact standsIn_of_enumCaseOf? hpath hlines (mem_toList.1 hb)

/-! ## Outlines -/

end

/-- All that the outline of a file lists stands in the file. (It has as many lines as characters,
    and one, at most.) -/
theorem placed_of_outline? (hpath : ∀ k ≤ source.length + 1, P (Path.slashed path) k) {o : Outline}
    (h : outline? path source = some o) : o.Placed P := by
  obtain ⟨file, hfile, rfl⟩ := map_eq_some_iff.1 h
  obtain ⟨imports, ho⟩ := exists_outlineOf_eq hfile path
  rw [ho]
  constructor
  case doc => rintro ⟨⟩
  case functions =>
    intro f hf
    obtain ⟨d, hd, hf⟩ := mem_flatMap.1 hf
    rw [Declaration.eq_of_mem_functions hf]
    exact standsIn_callableOf hpath (Declaration.onLines hfile hd)
  case types =>
    intro t ht
    obtain ⟨d, hd, ht⟩ := mem_flatMap.1 ht
    obtain ⟨kind, -, ht⟩ := Declaration.typeOf?_eq ht
    exact placed_of_typeOf? hpath (Declaration.onLines hfile hd) ht
  case constants =>
    intro b hb
    obtain ⟨d, hd, hb⟩ := mem_flatMap.1 hb
    exact standsIn_of_mem_constantsOf hpath (Declaration.onLines hfile hd)
      (Declaration.mem_constantsOf hb)
  all_goals exact fun _ h => absurd h not_mem_nil

end CodeAtlas.Php

/-! ## Routes -/

namespace CodeAtlas.Route

open Grammar Php List Option

variable {r : Route} {source : Source} {path : String} {n : Nat}

/-- The route stands in the file at a path, on the first `n` lines, which are counted from
    one. -/
structure StandsAt (path : String) (n : Nat) (r : Route) : Prop where
  file : r.filePath = path
  first : 1 ≤ r.line
  line_le : r.line ≤ n
  endLine_le : r.endLine ≤ n

theorem StandsAt.addChained (h : r.StandsAt path n) (call : ParseTree Kind) :
    (addChained source r call).StandsAt path n := by
  rw [Route.addChained]
  split
  · exact h
  · split
    · exact { h with }
    · split
      · exact { h with }
      · exact h

theorem StandsAt.of_mem_register {site : CallSite} {base : Route} (h : base.StandsAt path n)
    (hr : r ∈ register site base) : r.StandsAt path n := by
  rw [eq_of_mem_register hr]
  exact { h with }

/-- A route stands from the line on which its call starts to the end of the calls that are
    chained behind it. -/
theorem standsAt_of_mem_ofCall {chain : List (ParseTree Kind)} {call : ParseTree Kind}
    (hchain : ∀ t ∈ chain, t.endLine ≤ n) (hfirst : 1 ≤ call.startLine) (hlast : call.endLine ≤ n)
    (hr : r ∈ ofCall source path chain call) : r.StandsAt path n := by
  rw [ofCall] at hr
  split at hr
  · next middleware site _ hsite =>
    have hcall : site.line = call.startLine := by
      simp only [callSite?, bind_eq_bind, bind_eq_some_iff] at hsite
      obtain ⟨subject, _, name, _, hsite⟩ := hsite
      split at hsite
      · cases hsite
        rfl
      · cases hsite
    have hwhole : (chain.getLast?.getD call).endLine ≤ n := by
      cases houter : chain.getLast? with
      | none => exact hlast
      | some outer => exact hchain outer (mem_of_getLast? houter)
    have hline : site.line ≤ n := hcall ▸ Nat.le_trans call.startLine_le_endLine hlast
    refine StandsAt.of_mem_register ?_ hr
    exact List.foldlRecOn (motive := StandsAt path n) chain _
      ⟨rfl, hcall ▸ hfirst, hline, hwhole⟩ fun r hr call _ => hr.addChained call
  · cases hr

mutual

theorem standsAt_of_mem_inTree {chain : List (ParseTree Kind)} :
    ∀ t : ParseTree Kind, (∀ c ∈ chain, c.endLine ≤ n) → 1 ≤ t.startLine → t.endLine ≤ n →
      (∀ p ∈ t.parts, OnLines n p) → ∀ r ∈ inTree source path chain t, r.StandsAt path n
  | .sign .., _, _, _, _, r, hr => by cases hr
  | .node kind _ extent parts, hchain, hfirst, hlast, hparts, r, hr => by
    rw [inTree] at hr
    rcases mem_append.1 hr with hr | hr
    · exact standsAt_of_mem_ofCall hchain hfirst hlast hr
    · refine standsAt_of_mem_inTrees parts ?_ hparts r hr
      split
      · exact forall_mem_cons.2 ⟨hlast, hchain⟩
      · simp

theorem standsAt_of_mem_inTrees {chain : List (ParseTree Kind)} :
    ∀ ts : List (ParseTree Kind), (∀ c ∈ chain, c.endLine ≤ n) → (∀ t ∈ ts, OnLines n t) →
      ∀ r ∈ inTrees source path chain ts, r.StandsAt path n
  | [], _, _, r, hr => by cases hr
  | t :: ts, hchain, hts, r, hr => by
    obtain ⟨ht, hrest⟩ := forall_mem_cons.1 hts
    rw [inTrees] at hr
    rcases mem_append.1 hr with hr | hr
    · exact standsAt_of_mem_inTree t hchain ht.first ht.last (fun p hp => ht.of_mem hp) r hr
    · exact standsAt_of_mem_inTrees ts (by simp) hrest r hr

end

/-- The routes of a file stand in it. -/
theorem standsAt_of_ofFile? {rs : List Route} (h : ofFile? path source = some rs) :
    ∀ r ∈ rs, r.StandsAt (Path.slashed path) (source.length + 1) := by
  obtain ⟨file, hfile, rfl⟩ := map_eq_some_iff.1 h
  have hparts := onLines_of_parse? hfile
  have hfirst : 1 ≤ file.startLine := by
    rw [ParseTree.startLine, extent_of_parse? hfile]
    exact line_extentOf fun t ht => (hparts t ht).first
  exact standsAt_of_mem_inTree file (by simp) hfirst (endLine_of_parse? hfile) hparts

end CodeAtlas.Route
