import Mathlib.Data.List.Forall2
import CodeAtlas.Php.Route

/-!
# Chains of calls on a router

A chain such as `Route::middleware('auth')->get('/', 'Home@index')->name('home')` is a tree
whose first part is the chain without its last call. What a route takes from its chain comes
from two sides: from the calls before it by way of `lead?`, and from those behind it by way of
`addChained`. Put together, these are all other calls of the chain, in the order in which they
are written.

* `sitesIn`: the nodes of a tree, each with the calls chained behind it, and
  `inTree_eq_flatMap`, the routes of a tree as those of its nodes;
* `foldl_addChained`: what the calls behind a route say of it;
* `Fluent.chainMiddleware`: what those before it say;
* `Fluent.inTree`: the routes of a chain, by induction on it. Behind those of its calls come
  only those in the `operands` of the calls.
-/

namespace CodeAtlas.Route

open Grammar Php List Option

variable {call : CallSite} {object t : ParseTree Kind} {chain : List (ParseTree Kind)}
  {before behind : List CallSite}

variable {source : Source} {path : String}

/-! ## The nodes of a tree -/

mutual

/-- The nodes in a tree, an outer one before those inside, and before each the calls chained
    behind it. `chain` holds the calls chained behind the tree. -/
def sitesIn (chain : List (ParseTree Kind)) :
    ParseTree Kind → List (List (ParseTree Kind) × ParseTree Kind)
  | .sign .. => []
  | .node kind r extent parts =>
    let t := ParseTree.node kind r extent parts
    (chain, t) :: sitesInAll (if kind = .memberCall then t :: chain else []) parts

/-- The nodes in some trees. `chain` holds the calls chained behind the first of them. -/
def sitesInAll (chain : List (ParseTree Kind)) :
    List (ParseTree Kind) → List (List (ParseTree Kind) × ParseTree Kind)
  | [] => []
  | t :: ts => sitesIn chain t ++ sitesInAll [] ts

end

mutual

/-- The routes of a tree are those that its nodes register, one after the other. -/
theorem inTree_eq_flatMap (chain : List (ParseTree Kind)) :
    ∀ t : ParseTree Kind, inTree source path chain t =
      (sitesIn chain t).flatMap fun site => ofCall source path site.1 site.2
  | .sign .. => rfl
  | .node _ _ _ parts => by
    rw [inTree, sitesIn, flatMap_cons, inTrees_eq_flatMap _ parts]

theorem inTrees_eq_flatMap (chain : List (ParseTree Kind)) :
    ∀ ts : List (ParseTree Kind), inTrees source path chain ts =
      (sitesInAll chain ts).flatMap fun site => ofCall source path site.1 site.2
  | [] => rfl
  | t :: ts => by
    rw [inTrees, sitesInAll, flatMap_append, inTree_eq_flatMap chain t,
      inTrees_eq_flatMap [] ts]

end

theorem inTrees_eq (ts : List (ParseTree Kind)) :
    inTrees source path [] ts = ts.flatMap (inTree source path []) := by
  induction ts with
  | nil => rfl
  | cons t ts ih => rw [inTrees, ih, flatMap_cons]

mutual

/-- The nodes inside of a node of a tree follow it. -/
theorem exists_sitesIn_eq {chain behind : List (ParseTree Kind)} {t : ParseTree Kind} :
    ∀ s : ParseTree Kind, (behind, t) ∈ sitesIn chain s →
      ∃ before after, sitesIn chain s = before ++ sitesIn behind t ++ after
  | .sign .., h => by cases h
  | .node kind r extent parts, h => by
    rw [sitesIn] at h
    rcases mem_cons.1 h with h | h
    · cases h
      exact ⟨[], [], by simp⟩
    · obtain ⟨before, after, heq⟩ := exists_sitesInAll_eq parts h
      exact ⟨(chain, .node kind r extent parts) :: before, after, by rw [sitesIn, heq]; rfl⟩

theorem exists_sitesInAll_eq {chain behind : List (ParseTree Kind)} {t : ParseTree Kind} :
    ∀ ss : List (ParseTree Kind), (behind, t) ∈ sitesInAll chain ss →
      ∃ before after, sitesInAll chain ss = before ++ sitesIn behind t ++ after
  | [], h => by cases h
  | s :: ss, h => by
    rw [sitesInAll] at h
    rcases mem_append.1 h with h | h
    · obtain ⟨before, after, heq⟩ := exists_sitesIn_eq s h
      exact ⟨before, after ++ sitesInAll [] ss, by simp [sitesInAll, heq]⟩
    · obtain ⟨before, after, heq⟩ := exists_sitesInAll_eq ss h
      exact ⟨sitesIn chain s ++ before, after, by simp [sitesInAll, heq]⟩

end

/-! ## What a chain says of a route -/

/-- The middleware that the calls named so name, in their order. -/
def middlewareIn (calls : List CallSite) : List String :=
  (calls.filter (·.name == "middleware")).flatMap fun call => middlewareOf call.args

/-- The name that the last call named so gives. -/
def nameIn? (calls : List CallSite) : Option String :=
  (calls.filter (·.name == "name")).getLast?.bind fun call => call.args.head?.bind Literal.string?

theorem middlewareIn_append (calls more : List CallSite) :
    middlewareIn (calls ++ more) = middlewareIn calls ++ middlewareIn more := by
  rw [middlewareIn, filter_append, flatMap_append]
  rfl

theorem middlewareIn_singleton (call : CallSite) :
    middlewareIn [call] = if call.name == "middleware" then middlewareOf call.args else [] := by
  cases hname : call.name == "middleware" <;> simp [middlewareIn, hname]

theorem nameIn?_concat (calls : List CallSite) (call : CallSite) :
    nameIn? (calls ++ [call]) =
      if call.name == "name" then call.args.head?.bind Literal.string? else nameIn? calls := by
  cases hname : call.name == "name" <;> simp [nameIn?, filter_append, hname]

theorem addChained_of_callSite? (h : callSite? source t = some call) (r : Route) :
    addChained source r t =
      { r with
        name := if call.name == "name" then call.args.head?.bind Literal.string? else r.name
        middleware := r.middleware ++ middlewareIn [call] } := by
  rw [addChained, h, middlewareIn_singleton]
  by_cases hname : call.name == "name"
  · have hother : (call.name == "middleware") = false := by
      rw [eq_of_beq hname]
      rfl
    simp [hname, hother]
  · by_cases hmiddleware : call.name == "middleware" <;> simp [hname, hmiddleware]

theorem foldl_addChained {calls : List CallSite}
    (h : List.Forall₂ (fun t call => callSite? source t = some call) chain calls) {r : Route}
    (before : List CallSite) (hname : r.name = nameIn? before) :
    chain.foldl (addChained source) r =
      { r with
        name := nameIn? (before ++ calls)
        middleware := r.middleware ++ middlewareIn calls } := by
  induction h generalizing r before with
  | nil =>
    rw [append_nil, ← hname]
    simp [middlewareIn]
  | @cons t call chain calls hcall _ ih =>
    rw [foldl_cons, addChained_of_callSite? hcall]
    rw [ih (before ++ [call]) (by rw [nameIn?_concat, hname])]
    rw [← singleton_append (l := calls), middlewareIn_append, append_assoc,
      append_assoc]

/-- What the routes have in common that the call at the position `j` of a chain of calls
    registers. The chain is the tree `whole`. -/
def common (source : Source) (path : String) (whole : ParseTree Kind) (calls : List CallSite)
    (j : Nat) (call : CallSite) : Route :=
  { method := "", uri := "", controller := "", action := "", filePath := path
    line := call.line, endLine := whole.endLine, code := whole.text source
    name := nameIn? (calls.drop (j + 1)), middleware := middlewareIn (calls.eraseIdx j) }

theorem ofCall_eq_register
    (hchain : List.Forall₂ (fun t call => callSite? source t = some call) chain behind)
    (hlead : lead? source t = some (middlewareIn before)) (hcall : callSite? source t = some call) :
    ofCall source path chain t = register call
      (common source path (chain.getLast?.getD t) (before ++ call :: behind) before.length
        call) := by
  rw [ofCall, hlead, hcall]
  dsimp only
  rw [foldl_addChained hchain [] rfl, common, eraseIdx_append_of_length_le (Nat.le_refl _),
    Nat.sub_self, middlewareIn_append, ← drop_drop, drop_left]
  rfl

/-- A call gives its routes a verb, an address and a handler, and leaves them what they have in
    common. -/
theorem eq_of_mem_register {base r : Route} (hr : r ∈ register call base) :
    r = { base with
      method := r.method, uri := r.uri, controller := r.controller, action := r.action } := by
  rw [register] at hr
  split at hr
  · rw [mem_singleton.1 hr]
  · split at hr
    · obtain ⟨verb, _, rfl⟩ := mem_map.1 hr
      rfl
    · split at hr
      · obtain ⟨action, _, rfl⟩ := mem_map.1 hr
        rfl
      · cases hr

/-- The middleware of a chain is that of the chain without its last call, and then what this
    one names. -/
theorem chainMiddleware_cons (kind : Kind) (r : Option Role) (extent : Extent)
    (object : ParseTree Kind) (parts : List (ParseTree Kind)) :
    chainMiddleware source (.node kind r extent (object :: parts)) =
      (if kind = .memberCall && (object.isKind .memberCall || object.isKind .scopedCall) then
        chainMiddleware source object else []) ++
      middlewareIn (callSite? source (.node kind r extent (object :: parts))).toList := by
  rw [chainMiddleware]
  cases callSite? source (.node kind r extent (object :: parts)) with
  | none => simp [middlewareIn]
  | some call =>
    rw [toList_some, middlewareIn_singleton]
    split <;> rfl

/-! ## What a call is addressed to -/

/-- The call is one on the class that routes are registered on. -/
def isRoot (source : Source) (t : ParseTree Kind) : Bool :=
  (callSite? source t).isSome && t.isKind .scopedCall &&
    (subject? t).any fun scope => isFacade (scope.text source)

theorem receiver_of_callSite? (h : callSite? source t = some call) :
    ∃ subject, subject? t = some subject ∧
      call.receiver = if t.isKind .memberCall || t.isKind .nullsafeCall then
          receiverOf source subject
        else if t.isKind .scopedCall then .static (subject.text source)
        else .bare := by
  obtain ⟨subject, hsubject, h⟩ := bind_eq_some_iff.1 h
  obtain ⟨name, -, h⟩ := bind_eq_some_iff.1 h
  split at h
  · cases h
    exact ⟨subject, hsubject, rfl⟩
  · cases h

theorem isKind_of_isKind {k k' : Kind} (h : t.isKind k) (hne : k' ≠ k) : t.isKind k' = false := by
  cases t with
  | sign => rfl
  | node kind =>
    cases of_decide_eq_true h
    exact decide_eq_false hne

theorem lead?_eq_none {call : ParseTree Kind} (hscoped : call.isKind .scopedCall = false)
    (h : call.isKind .memberCall = false ∨ subject? call = none) : lead? source call = none := by
  rw [lead?]
  rcases h with h | h <;> simp [hscoped, h]

theorem lead?_of_scopedCall {call : ParseTree Kind} (hkind : call.isKind .scopedCall) :
    lead? source call =
      if (subject? call).any fun scope => isFacade (scope.text source) then some [] else none := by
  rw [lead?, hkind]
  cases subject? call <;> rfl

theorem lead?_of_variable {call : ParseTree Kind} (hkind : call.isKind .memberCall)
    (hobject : subject? call = some object) (hvariable : object.isKind .variable) :
    lead? source call =
      if routers.contains (String.ofList ((object.text source).toList.dropWhile (· == '$'))) then
        some []
      else none := by
  rw [lead?, hobject, hkind, isKind_of_isKind hkind (show Kind.scopedCall ≠ _ by decide)]
  simp [hvariable]

/-- A call of a member of something that is no variable is addressed to a router if its chain
    starts with a call on the class that routes are registered on. -/
theorem lead?_of_memberCall {call : ParseTree Kind} (hkind : call.isKind .memberCall)
    (hobject : subject? call = some object) (hvariable : object.isKind .variable = false) :
    lead? source call =
      if isRoot source (innermostCall object) then some (chainMiddleware source object)
      else none := by
  rw [lead?, hobject]
  simp only [bind_eq_bind, bind_some, hkind, hvariable, if_true, if_false,
    isKind_of_isKind hkind (show Kind.scopedCall ≠ _ by decide), Bool.false_eq_true]
  obtain hfirst | ⟨first, hfirst⟩ := eq_none_or_eq_some (callSite? source
    (innermostCall object))
  · simp [isRoot, hfirst]
  obtain ⟨subject, hsubject, hreceiver⟩ := receiver_of_callSite? hfirst
  by_cases hscoped : (innermostCall object).isKind .scopedCall
  · simp [isRoot, hfirst, hreceiver, hsubject, hscoped,
      isKind_of_isKind hscoped (show Kind.memberCall ≠ _ by decide),
      isKind_of_isKind hscoped (show Kind.nullsafeCall ≠ _ by decide)]
  · rw [if_neg (by simp [isRoot, hscoped]), hfirst, bind_some]
    split
    · -- Neither a member of a variable nor a function is called on a class.
      next scope hstatic =>
      rw [hreceiver, receiverOf] at hstatic
      split at hstatic
      · split at hstatic
        · dsimp only at hstatic
          split at hstatic <;> cases hstatic
        · cases hstatic
      · cases hstatic
    · rfl

/-! ## Chains -/

/-- The calls of a chain on the class that routes are registered on, from the first to the last;
    none if the tree is no such chain. -/
def fluent? (source : Source) : ParseTree Kind → Option (List CallSite)
  | .node .scopedCall r extent parts => do
    let scope ← subject? (.node .scopedCall r extent parts)
    let call ← callSite? source (.node .scopedCall r extent parts)
    if isFacade (scope.text source) then some [call] else none
  | .node .memberCall r extent (object :: parts) => do
    let before ← fluent? source object
    let call ← callSite? source (.node .memberCall r extent (object :: parts))
    return before ++ [call]
  | _ => none

/-- What the calls of a chain hold beside the calls before them: the class that the chain
    starts with, and the names and arguments of the calls. -/
def operands : ParseTree Kind → List (ParseTree Kind)
  | .node .memberCall _ _ (object :: parts) => operands object ++ parts
  | t => t.parts

/-- A chain is a call on that class, or a chain with one more call behind it. -/
inductive Fluent (source : Source) : ParseTree Kind → List CallSite → Prop
  | root {r extent parts scope call}
    (hscope : subject? (.node .scopedCall r extent parts) = some scope)
    (hfacade : isFacade (scope.text source))
    (hcall : callSite? source (.node .scopedCall r extent parts) = some call) :
    Fluent source (.node .scopedCall r extent parts) [call]
  | call {r extent object parts before call} (hobject : Fluent source object before)
    (hcall : callSite? source (.node .memberCall r extent (object :: parts)) = some call) :
    Fluent source (.node .memberCall r extent (object :: parts)) (before ++ [call])

variable {calls : List CallSite}

theorem fluent_of_fluent? (h : fluent? source t = some calls) : Fluent source t calls := by
  fun_induction fluent? source t generalizing calls with
  | case1 r extent parts =>
    obtain ⟨scope, hscope, h⟩ := bind_eq_some_iff.1 h
    obtain ⟨call, hcall, h⟩ := bind_eq_some_iff.1 h
    split at h
    · next hfacade =>
      cases h
      exact .root hscope hfacade hcall
    · cases h
  | case2 r extent object parts ih =>
    obtain ⟨before, hbefore, h⟩ := bind_eq_some_iff.1 h
    obtain ⟨call, hcall, h⟩ := bind_eq_some_iff.1 h
    cases h
    exact .call (ih hbefore) hcall
  | case3 => cases h

namespace Fluent

theorem isKind (h : Fluent source t calls) : t.isKind .memberCall ∨ t.isKind .scopedCall := by
  cases h with
  | root => exact .inr rfl
  | call => exact .inl rfl

/-- A chain starts with a call on the class that routes are registered on. -/
theorem isRoot (h : Fluent source t calls) : isRoot source (innermostCall t) := by
  induction h with
  | @root r extent parts scope call hscope hfacade hcall =>
    have hroot : Route.isRoot source (.node .scopedCall r extent parts) := by
      simp [Route.isRoot, hcall, hscope, hfacade, ParseTree.isKind]
    cases parts <;> exact hroot
  | @call r extent object parts before call hobject hcall ih =>
    have hcall : isCall object := by
      rcases hobject.isKind with hkind | hkind <;> simp [isCall, callKinds, hkind]
    rwa [innermostCall, if_pos (by simp [hcall])]

/-- The calls of a chain name their middleware in the order in which they are written. -/
theorem chainMiddleware (h : Fluent source t calls) :
    chainMiddleware source t = middlewareIn calls := by
  induction h with
  | @root r extent parts scope call hscope hfacade hcall =>
    cases parts with
    | nil => cases hcall
    | cons object parts =>
      rw [chainMiddleware_cons, hcall]
      rfl
  | call hobject hcall ih =>
    have hkind := Bool.or_eq_true_iff.2 hobject.isKind
    rw [chainMiddleware_cons, hcall, middlewareIn_append, ← ih, if_pos (by simp [hkind])]
    rfl

theorem lead? (h : Fluent source object before) (r : Option Role) (extent : Extent)
    (parts : List (ParseTree Kind)) :
    lead? source (.node .memberCall r extent (object :: parts)) = some (middlewareIn before) := by
  have hsubject : subject? (.node .memberCall r extent (object :: parts)) = some object := by
    cases h <;> rfl
  have hvariable : object.isKind .variable = false := by
    cases h <;> rfl
  rw [lead?_of_memberCall rfl hsubject hvariable, if_pos h.isRoot, h.chainMiddleware]

/-- The routes that the calls of a chain register come from the last call to the first, and
    then those in their operands. `behind` are the calls chained behind the tree. -/
theorem inTree (path : String) (h : Fluent source t calls)
    (hchain : List.Forall₂ (fun t call => callSite? source t = some call) chain behind) :
    inTree source path chain t =
      (calls.mapIdx fun j call => register call
        (common source path (chain.getLast?.getD t) (calls ++ behind) j call)).reverse.flatten ++
      inTrees source path [] (operands t) := by
  -- Along the chain, the calls behind the tree grow by the one that is taken off.
  induction h generalizing chain behind with
  | @root r extent parts scope call hscope hfacade hcall =>
    have hlead : Route.lead? source (.node .scopedCall r extent parts) =
        some (middlewareIn []) := by
      rw [lead?_of_scopedCall rfl, hscope, any_some, if_pos hfacade]
      rfl
    rw [Route.inTree, ofCall_eq_register hchain hlead hcall]
    simp [operands, ParseTree.parts]
  | call hobject hcall ih =>
    rw [Route.inTree, ofCall_eq_register hchain (hobject.lead? ..) hcall, if_pos rfl, inTrees,
      ih (.cons hcall hchain)]
    simp [getLast?_cons, operands, inTrees_eq]

end Fluent

/-- A route of a chain has the middleware that all other calls of the chain name, in the order
    in which they are written, the name that the last call behind it gives, and the text of the
    whole chain as its code. Of the calls of a chain, the last one registers its routes
    first; what else there is in the chain are the routes in its operands. -/
theorem fluent_chains_in_order (path : String) {source : Source} {file t : ParseTree Kind}
    {calls : List CallSite} (hfile : parse? source = some file) (ht : ([], t) ∈ sitesIn [] file)
    (hcalls : fluent? source t = some calls) :
    let routesAt := fun j call =>
      register call (common source (Path.slashed path) t calls j call)
    (∃ before after, ofFile? path source =
      some (before ++ (calls.mapIdx routesAt).reverse.flatten ++
        inTrees source (Path.slashed path) [] (operands t) ++ after)) ∧
    ∀ j call, calls[j]? = some call → ∀ r ∈ routesAt j call,
      r.middleware = middlewareIn (calls.eraseIdx j) ∧
      r.name = nameIn? (calls.drop (j + 1)) ∧
      r.code = t.text source := by
  constructor
  · obtain ⟨before, after, hsites⟩ := exists_sitesIn_eq file ht
    have hinside := (fluent_of_fluent? hcalls).inTree (Path.slashed path) .nil
    have hroutes : ofFile? path source = some (inTree source (Path.slashed path) [] file) := by
      rw [ofFile?, hfile, map_some]
    rw [inTree_eq_flatMap, hsites, flatMap_append, flatMap_append,
      ← inTree_eq_flatMap, hinside, append_nil, ← append_assoc] at hroutes
    exact ⟨_, _, hroutes⟩
  · intro j call _ r hr
    rw [eq_of_mem_register hr]
    exact ⟨rfl, rfl, rfl⟩

/-- Two calls before and behind the route name middleware, and two give it a name. -/
def guardedHome : Source :=
  [ "<?php\nRoute::middleware('a')\n  ->get('/', 'Home@index')"
  , "->middleware(['b', 'c'])->name('draft')\n  ->name('home');\n" ].flatMap Source.ofString

theorem fluent_chains_in_order_guardedHome :
    ∃ file t calls rs r, parse? guardedHome = some file ∧ ([], t) ∈ sitesIn [] file ∧
      fluent? guardedHome t = some calls ∧
      calls.map CallSite.name = ["middleware", "get", "middleware", "name", "name"] ∧
      ofFile? "web.php" guardedHome = some rs ∧ r ∈ rs ∧
      r.middleware = ["a", "b", "c"] ∧ r.name = some "home" ∧ r.code = t.text guardedHome := by
  obtain ⟨file, hfile, hsite⟩ : ∃ file, parse? guardedHome = some file ∧
      ((sitesIn [] file).find? fun site => (fluent? guardedHome site.2).isSome).bind (fun site =>
        (fluent? guardedHome site.2).map fun calls =>
          (site.1.length, calls.map CallSite.name, middlewareIn (calls.eraseIdx 1),
            nameIn? (calls.drop 2))) =
        some (0, ["middleware", "get", "middleware", "name", "name"], ["a", "b", "c"],
          some "home") :=
    map_eq_some_iff.1 (by decide +kernel)
  obtain ⟨⟨behind, t⟩, ht, hsite⟩ := bind_eq_some_iff.1 hsite
  obtain ⟨calls, hcalls, htold⟩ := map_eq_some_iff.1 hsite
  simp only [Prod.mk.injEq] at htold
  obtain ⟨hbehind, hnames, hmiddleware, hname⟩ := htold
  cases length_eq_zero_iff.1 hbehind
  have hmem := mem_of_find?_eq_some ht
  obtain ⟨⟨before, after, hroutes⟩, hall⟩ :=
    fluent_chains_in_order "web.php" hfile hmem hcalls
  obtain ⟨call, hcall, hget⟩ : ∃ call, calls[1]? = some call ∧ call.name = "get" := by
    refine map_eq_some_iff.1 ?_
    rw [← getElem?_map, hnames]
    rfl
  obtain ⟨r, hr⟩ : ∃ r, r ∈ register call (common guardedHome (Path.slashed "web.php") t calls 1
      call) := by
    simp [register, hget, verbs]
  obtain ⟨hm, hn, hcode⟩ := hall 1 call hcall r hr
  refine ⟨file, t, calls, _, r, hfile, hmem, hcalls, hnames, hroutes, ?_, hm.trans hmiddleware,
    hn.trans hname, hcode⟩
  have hmemIdx : register call (common guardedHome (Path.slashed "web.php") t calls 1 call) ∈
      calls.mapIdx fun j call =>
        register call (common guardedHome (Path.slashed "web.php") t calls j call) := by
    refine mem_of_getElem? (i := 1) ?_
    rw [getElem?_mapIdx, hcall]
    rfl
  simp only [mem_append, mem_flatten, mem_reverse]
  exact .inl (.inl (.inr ⟨_, hmemIdx, hr⟩))

end CodeAtlas.Route
