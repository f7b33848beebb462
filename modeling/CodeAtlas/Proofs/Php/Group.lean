import CodeAtlas.Proofs.Php.Likeness

/-!
# Groups of routes

A group such as `Route::middleware('auth')->group(function () {…})` registers the routes of the
statements in its block, and nothing of the group passes on to them. So the groups of a file may
be opened, down to any depth (`opened`): their statements then stand among those around them, and
the routes of the file stay the same. The statements of a group register the same routes as they
do in a file of their own, on the lines where they stand.

* `inTree_of_quiet`: trees in which no call registers a route;
* `inTree_of_body?`: the routes of a group are those in its block;
* `body?_of_group?`: a chain of calls that registers nothing, with a closure as its last
  argument, is a group;
* `inTrees_opened`: opening groups, by induction on the depth;
* `groups_are_transparent`: the statements of a group and those around it.
-/

namespace CodeAtlas.Route

open Grammar Php List Option Bool

variable {source : Source} {path : String} {t : ParseTree Kind} {ts body : List (ParseTree Kind)}

/-- The call is one that registers routes on a router. -/
def registers (call : CallSite) : Bool :=
  verbs.contains call.name || call.name == "match" || call.name == "resource" ||
    call.name == "apiResource"

/-- The tree is not a call on a router that registers routes. -/
def mute (source : Source) (t : ParseTree Kind) : Bool :=
  (lead? source t).isNone || (callSite? source t).all (!registers ·)

mutual

/-- No call in the tree registers routes. -/
def quiet (source : Source) : ParseTree Kind → Bool
  | .sign .. => true
  | .node k r extent parts => mute source (.node k r extent parts) && quietAll source parts

/-- No call in the trees registers routes. -/
def quietAll (source : Source) : List (ParseTree Kind) → Bool
  | [] => true
  | t :: ts => quiet source t && quietAll source ts

end

mutual

/-- The parts of the last block in a tree, if no call outside of the block registers routes. -/
def body? (source : Source) : ParseTree Kind → Option (List (ParseTree Kind))
  | .sign .. => none
  | .node k r extent parts =>
    if k = .block then some parts
    else if mute source (.node k r extent parts) then bodyAmong? source parts
    else none

/-- The parts of the last block in some trees, if no call outside of the block registers
    routes. -/
def bodyAmong? (source : Source) : List (ParseTree Kind) → Option (List (ParseTree Kind))
  | [] => none
  | t :: ts =>
    (bodyAmong? source ts).elim (if quietAll source ts then body? source t else none)
      fun body => if quiet source t then some body else none

end

/-- Some statements, with the groups among them opened down to a depth. -/
def opened (source : Source) : Nat → List (ParseTree Kind) → List (ParseTree Kind)
  | 0, ts => ts
  | depth + 1, ts => ts.flatMap fun t => (body? source t).elim [t] (opened source depth)

theorem ofCall_of_mute (h : mute source t) (chain : List (ParseTree Kind)) :
    ofCall source path chain t = [] := by
  rw [ofCall]
  split
  · next call hlead hcall =>
    rw [mute, hlead, hcall, Option.isNone_some, Bool.false_or, Option.all_some] at h
    simp only [registers, Bool.not_eq_true', Bool.or_eq_false_iff] at h
    simp only [register, h, Bool.or_self, Bool.false_eq_true, if_false]
  · rfl

mutual

theorem inTree_of_quiet : ∀ {t : ParseTree Kind}, quiet source t →
    ∀ chain, inTree source path chain t = []
  | .sign .., _, _ => rfl
  | .node .., h, _ => by
    rw [quiet, and_eq_true] at h
    rw [inTree, ofCall_of_mute h.1, inTrees_of_quiet h.2, append_nil]

theorem inTrees_of_quiet : ∀ {ts : List (ParseTree Kind)}, quietAll source ts →
    ∀ chain, inTrees source path chain ts = []
  | [], _, _ => rfl
  | t :: ts, h, _ => by
    rw [quietAll, and_eq_true] at h
    rw [inTrees, inTree_of_quiet h.1, inTrees_of_quiet h.2, append_nil]

end

mutual

theorem inTree_of_body? : ∀ {t : ParseTree Kind}, body? source t = some body →
    ∀ chain, inTree source path chain t = inTrees source path [] body
  | .sign .., h, _ => by cases h
  | .node k r extent parts, h, chain => by
    rw [body?] at h
    split at h
    · next hblock =>
      cases h
      subst hblock
      rw [inTree, ofCall, lead?_eq_none rfl (.inl rfl)]
      rfl
    · split at h
      · next hmute =>
        rw [inTree, ofCall_of_mute hmute, inTrees_of_bodyAmong? h, nil_append]
      · cases h

theorem inTrees_of_bodyAmong? : ∀ {ts : List (ParseTree Kind)}, bodyAmong? source ts = some body →
    ∀ chain, inTrees source path chain ts = inTrees source path [] body
  | [], h, _ => by cases h
  | t :: ts, h, _ => by
    rw [bodyAmong?] at h
    cases hrest : bodyAmong? source ts with
    | none =>
      rw [hrest, elim_none] at h
      split at h
      · next hquiet => rw [inTrees, inTree_of_body? h, inTrees_of_quiet hquiet, append_nil]
      · cases h
    | some body =>
      rw [hrest, elim_some] at h
      split at h
      · next hquiet =>
        cases h
        rw [inTrees, inTree_of_quiet hquiet, inTrees_of_bodyAmong? hrest, nil_append]
      · cases h

end

/-- Opening groups leaves the routes of a file as they are. -/
theorem inTrees_opened (depth : Nat) (ts : List (ParseTree Kind)) :
    inTrees source path [] (opened source depth ts) = inTrees source path [] ts := by
  induction depth generalizing ts with
  | zero => rfl
  | succ depth ih =>
    rw [opened, inTrees_eq, inTrees_eq, flatMap_assoc]
    refine flatMap_congr fun t _ => ?_
    cases hbody : body? source t with
    | none => exact append_nil _
    | some body => rw [elim_some, ← inTrees_eq, ih, inTree_of_body? hbody]

/-! ## The statement of a group -/

theorem quietAll_append (ts us : List (ParseTree Kind)) :
    quietAll source (ts ++ us) = (quietAll source ts && quietAll source us) := by
  induction ts with
  | nil => rfl
  | cons t ts ih => rw [cons_append, quietAll, quietAll, ih, Bool.and_assoc]

theorem bodyAmong?_append (ts us : List (ParseTree Kind)) :
    bodyAmong? source (ts ++ us) =
      (bodyAmong? source us).elim (if quietAll source us then bodyAmong? source ts else none)
        fun body => if quietAll source ts then some body else none := by
  induction ts with
  | nil => cases h : bodyAmong? source us <;> simp [bodyAmong?, quietAll, h]
  | cons t ts ih =>
    rw [cons_append, bodyAmong?, bodyAmong?, ih, quietAll_append, quietAll]
    cases bodyAmong? source us <;> cases quietAll source us <;> cases quietAll source ts <;>
      simp

/-- A chain of calls that registers nothing has the routes in its operands only. -/
theorem Fluent.body? {calls : List CallSite} (h : Fluent source t calls)
    (hcalls : calls.any registers = false) :
    body? source t = bodyAmong? source (operands t) ∧
      quiet source t = quietAll source (operands t) := by
  have hmute : ∀ {t : ParseTree Kind} {call : CallSite}, callSite? source t = some call →
      registers call = false → mute source t := by
    intro t call hcall hfalse
    rw [mute, hcall, Option.all_some, hfalse, Bool.not_false, Bool.or_true]
  induction h with
  | root _ _ hcall =>
    rw [any_cons, Bool.or_eq_false_iff] at hcalls
    simp [Route.body?, quiet, operands, ParseTree.parts, hmute hcall hcalls.1]
  | call _ hcall ih =>
    rw [any_append, any_cons, Bool.or_eq_false_iff, Bool.or_eq_false_iff] at hcalls
    obtain ⟨hbody, hquiet⟩ := ih hcalls.1
    rw [operands, bodyAmong?_append, quietAll_append, ← hbody, ← hquiet, Route.body?,
      if_neg (by decide), quiet, hmute hcall hcalls.2.1, if_pos rfl, bodyAmong?, quietAll,
      Bool.true_and]
    exact ⟨rfl, rfl⟩

/-- The last node among some trees, if no call in those before it registers routes. -/
def lastNode? (source : Source) (ts : List (ParseTree Kind)) : Option (ParseTree Kind) :=
  if quietAll source (ts.filter ParseTree.isNode).dropLast then
    (ts.filter ParseTree.isNode).getLast?
  else none

/-- The parts of the block at the end of some trees, within nodes of the kinds given. -/
def blockIn? (source : Source) : List Kind → List (ParseTree Kind) → Option (List (ParseTree Kind))
  | [], ts => ((lastNode? source ts).filter (·.isKind .block)).map ParseTree.parts
  | k :: ks, ts => ((lastNode? source ts).filter (·.isKind k)).bind (blockIn? source ks ·.parts)

/-- The parts of the block in a statement that is a chain of calls, none of which registers
    routes, with a closure as its last argument. -/
def group? (source : Source) (s : ParseTree Kind) : Option (List (ParseTree Kind)) := do
  let t ← lastNode? source s.parts
  let calls ← fluent? source t
  if s.isKind .expressionStatement ∧ calls.any registers = false then
    blockIn? source [.args, .arg, .closure] (operands t)
  else none

/-- Signs have no part in the block of a group. -/
theorem bodyAmong?_filter_isNode (ts : List (ParseTree Kind)) :
    bodyAmong? source (ts.filter ParseTree.isNode) = bodyAmong? source ts ∧
      quietAll source (ts.filter ParseTree.isNode) = quietAll source ts := by
  induction ts with
  | nil => exact ⟨rfl, rfl⟩
  | cons t ts ih =>
    cases t with
    | sign =>
      rw [filter_cons_of_neg (by simp [ParseTree.isNode]), ih.1, ih.2, bodyAmong?, quietAll, quiet]
      cases bodyAmong? source ts <;> simp [body?]
    | node =>
      rw [filter_cons_of_pos rfl, bodyAmong?, bodyAmong?, quietAll, quietAll, ih.1, ih.2]
      exact ⟨rfl, rfl⟩

theorem bodyAmong?_of_lastNode? (h : lastNode? source ts = some t)
    (hbody : body? source t = some body) : bodyAmong? source ts = some body := by
  rw [lastNode?] at h
  split at h
  · next hquiet =>
    have hnodes := dropLast_append_getLast? t h
    rw [← (bodyAmong?_filter_isNode ts).1, ← hnodes, bodyAmong?_append, bodyAmong?, bodyAmong?,
      quietAll, hbody]
    simp [hquiet, quietAll]
  · cases h

/-- Around the block of a group, what is no call is opened. -/
theorem body?_of_isKind {k : Kind} (ht : t.isKind k)
    (hk : k ≠ .block ∧ k ≠ .scopedCall ∧ k ≠ .memberCall) :
    body? source t = bodyAmong? source t.parts := by
  cases t with
  | sign => cases ht
  | node k' r extent parts =>
    cases of_decide_eq_true ht
    obtain ⟨hblock, hscoped, hmember⟩ := hk
    have hlead : lead? source (.node k r extent parts) = none :=
      lead?_eq_none (decide_eq_false (Ne.symm hscoped)) (.inl (decide_eq_false (Ne.symm hmember)))
    rw [body?, if_neg hblock, if_pos (by rw [mute, hlead]; rfl)]
    rfl

theorem bodyAmong?_of_blockIn? {ks : List Kind}
    (hks : ∀ k ∈ ks, k ≠ .block ∧ k ≠ .scopedCall ∧ k ≠ .memberCall)
    (h : blockIn? source ks ts = some body) : bodyAmong? source ts = some body := by
  induction ks generalizing ts with
  | nil =>
    obtain ⟨t, ht, rfl⟩ := map_eq_some_iff.1 h
    obtain ⟨ht, hkind⟩ := filter_eq_some_iff.1 ht
    refine bodyAmong?_of_lastNode? ht ?_
    cases t with
    | sign => cases hkind
    | node =>
      cases of_decide_eq_true hkind
      rw [body?, if_pos rfl]
      rfl
  | cons k ks ih =>
    obtain ⟨t, ht, h⟩ := bind_eq_some_iff.1 h
    obtain ⟨ht, hkind⟩ := filter_eq_some_iff.1 ht
    refine bodyAmong?_of_lastNode? ht ?_
    rw [body?_of_isKind hkind (hks k mem_cons_self)]
    exact ih (fun k hk => hks k (mem_cons_of_mem _ hk)) h

/-- The block of a group is found by the form of its statement. -/
theorem body?_of_group? {s : ParseTree Kind} (h : group? source s = some body) :
    body? source s = some body := by
  obtain ⟨t, ht, h⟩ := bind_eq_some_iff.1 h
  obtain ⟨calls, hcalls, h⟩ := bind_eq_some_iff.1 h
  split at h
  · next hform =>
    rw [body?_of_isKind hform.1 (by decide)]
    refine bodyAmong?_of_lastNode? ht ?_
    rw [((fluent_of_fluent? hcalls).body? hform.2).1]
    exact bodyAmong?_of_blockIn? (by decide) h
  · cases h

/-! ## Statements in a file of their own -/

/-- Statements that stand further down in another file register the same routes there. -/
theorem inTrees_of_like {alone : Source} {n : Nat} {ts' : List (ParseTree Kind)}
    (h : Comparison.likeAll ⟨alone, source, n, false⟩ ts ts') :
    inTrees source path [] ts' = (inTrees alone path [] ts).map (moved n id) := by
  have hpaired := Comparison.sitesInAll_of_alike (Comparison.forall₂_of_likeAll h) .nil
  rw [inTrees_eq_flatMap, inTrees_eq_flatMap, map_flatMap]
  generalize sitesInAll [] ts = sites at hpaired
  generalize sitesInAll [] ts' = sites' at hpaired
  induction hpaired with
  | nil => rfl
  | cons hsite _ ih =>
    rw [flatMap_cons, ih, Comparison.ofCall_of_paired _ id hsite]
    · rfl
    · exact fun hchain h => ((Comparison.getLast?_of_alike hchain h).kept.text rfl).symm

theorem inTrees_filter_quiet (ts : List (ParseTree Kind)) :
    inTrees source path [] (ts.filter (!quiet source ·)) = inTrees source path [] ts := by
  induction ts with
  | nil => rfl
  | cons t ts ih =>
    rw [filter_cons]
    cases hquiet : quiet source t with
    | true =>
      rw [inTrees, inTree_of_quiet hquiet, ← ih]
      rfl
    | false =>
      rw [inTrees, ← ih]
      rfl

theorem inTree_of_parse? {file : ParseTree Kind} (h : parse? source = some file) :
    inTree source path [] file = inTrees source path [] file.parts := by
  have hkind : file.isKind .file := by
    rw [parse?, Dialect.parse?] at h
    split at h
    · cases h
    · split at h
      · cases h
        rfl
      · cases h
  cases file with
  | sign => cases hkind
  | node =>
    cases of_decide_eq_true hkind
    rw [inTree, ofCall, lead?_eq_none rfl (.inl rfl)]
    rfl

/-- The routes of a file are those of the statements around a group and, in its place, those
    that the statements of the group register in a file of their own, so many lines further
    down. Groups may stand in groups, and every chain of calls that registers nothing itself
    is one if its last argument is a closure. -/
theorem groups_are_transparent (path : String) {source alone : Source}
    {file file' : ParseTree Kind} {depth offset : Nat} {before body after : List (ParseTree Kind)}
    (hfile : parse? source = some file) (halone : parse? alone = some file')
    (hopened : opened source depth file.parts = before ++ body ++ after)
    (hbody : Comparison.likeAll ⟨alone, source, offset, false⟩
      (file'.parts.filter (!quiet alone ·)) (body.filter (!quiet source ·)) = true) :
    (∀ s inner, group? source s = some inner → body? source s = some inner) ∧
    ∃ rs, ofFile? path alone = some rs ∧ ofFile? path source = some
      (inTrees source (Path.slashed path) [] before ++ rs.map (moved offset id) ++
        inTrees source (Path.slashed path) [] after) := by
  refine ⟨fun _ _ => body?_of_group?, _, by rw [ofFile?, halone, map_some], ?_⟩
  rw [ofFile?, hfile, map_some, inTree_of_parse? hfile, inTree_of_parse? halone,
    ← inTrees_opened depth, hopened, ← inTrees_filter_quiet file'.parts, ← inTrees_of_like hbody,
    inTrees_filter_quiet]
  simp only [inTrees_eq, flatMap_append]

/-- A route in a group in a group, between two others. -/
def nestedGroups : Source :=
  [ "<?php\nRoute::get('/', 'Home@index');\nRoute::group(['prefix' => 'a'], function () \x7b\n"
  , "Route::middleware('m')->name('n')->group(function () \x7b\nRoute::get('/b', 'B@b');\n"
  , "\x7d);\n\x7d);\nRoute::get('/c', 'C@c');\n" ].flatMap Source.ofString

/-- The route alone. -/
def routeAlone : Source :=
  Source.ofString "<?php\nRoute::get('/b', 'B@b');\n"

/-- What a route takes from the calls around it, with its address and its line. -/
def gist (r : Route) : String × Nat × List String × Option String :=
  (r.uri, r.line, r.middleware, r.name)

theorem groups_are_transparent_nestedGroups :
    ∃ file s inner before body after rs all, parse? nestedGroups = some file ∧
      s ∈ file.parts ∧ group? nestedGroups s = some inner ∧ body? nestedGroups s = some inner ∧
      opened nestedGroups 2 file.parts = before ++ body ++ after ∧
      body.map ParseTree.startLine = [5] ∧
      ofFile? "web.php" routeAlone = some rs ∧ rs.map gist = [("/b", 2, [], none)] ∧
      ofFile? "web.php" nestedGroups = some all ∧
      all = inTrees nestedGroups (Path.slashed "web.php") [] before ++ rs.map (moved 3 id) ++
        inTrees nestedGroups (Path.slashed "web.php") [] after ∧
      all.map gist = [("/", 2, [], none), ("/b", 5, [], none), ("/c", 8, [], none)] := by
  obtain ⟨file, hfile, h⟩ : ∃ file, parse? nestedGroups = some file ∧
      (parse? routeAlone).map (fun file' =>
        let body := ((opened nestedGroups 2 file.parts).drop 4).take 1
        Comparison.likeAll ⟨routeAlone, nestedGroups, 3, false⟩
          (file'.parts.filter (!quiet routeAlone ·)) (body.filter (!quiet nestedGroups ·)) &&
        body.map ParseTree.startLine == [5] &&
        file.parts.any fun s => (group? nestedGroups s).isSome) = some true :=
    bind_eq_some_iff.1 (by decide +kernel)
  obtain ⟨file', hfile', h⟩ := map_eq_some_iff.1 h
  obtain ⟨h, hgroup⟩ := and_eq_true_iff.1 h
  obtain ⟨hlike, hline⟩ := and_eq_true_iff.1 h
  obtain ⟨s, hs, hgroup⟩ := any_eq_true.1 hgroup
  obtain ⟨inner, hinner⟩ := isSome_iff_exists.1 hgroup
  generalize hopened : opened nestedGroups 2 file.parts = ts at hlike hline
  have hparts : ts = ts.take 4 ++ (ts.drop 4).take 1 ++ (ts.drop 4).drop 1 := by
    rw [append_assoc, take_append_drop, take_append_drop]
  rw [hparts] at hopened
  obtain ⟨hbody, rs, hrs, hroutes⟩ := groups_are_transparent "web.php" hfile hfile' hopened hlike
  have halone : (ofFile? "web.php" routeAlone).map (List.map gist) =
      some [("/b", 2, [], none)] := by decide +kernel
  have hall : (ofFile? "web.php" nestedGroups).map (List.map gist) =
      some [("/", 2, [], none), ("/b", 5, [], none), ("/c", 8, [], none)] := by decide +kernel
  rw [hrs, map_some, some_inj] at halone
  rw [hroutes, map_some, some_inj] at hall
  exact ⟨file, s, inner, _, _, _, rs, _, hfile, hs, hinner, hbody s inner hinner, hopened,
    eq_of_beq hline, hrs, halone, hroutes, rfl, hall⟩

end CodeAtlas.Route
