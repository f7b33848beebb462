import CodeAtlas.Proofs.List
import CodeAtlas.Proofs.Php.Fluent

/-!
# Files that register alike

Two files are compared tree by tree (`Comparison.like`). Their trees have the same kinds and
parts, and in the second file they stand a number of lines further down. If nothing may be
respelled, they also have the same text. Otherwise a chain that starts at the class routes are
registered on may start at a variable that holds a router in the second file, and only names,
variables and strings keep their text.

Such trees agree in all that the routes of a file are read from, with one exception: a call
chained behind a respelled one is no longer addressed to a router (`lead?_of_alike`), since a
router is recognised in a variable only directly in front of a call.

* `Alike.literalOf`: values, by induction on the trees;
* `Alike.callSite?`, `Alike.chainMiddleware`, `Alike.innermostCall`: calls and their chains;
* `ofCall_of_alike`, `Alike.sitesIn`: the routes of a call, and the calls of a tree;
* `respelled_receivers`: the routes of a file.
-/

namespace CodeAtlas.Route

open Grammar Php List
open ParseTree (isKind isNode isSign nodes)

/-- The route as it is registered a number of lines further down, in a chain with another
    text. -/
def moved (n : Nat) (text : String → String) (r : Route) : Route :=
  { r with line := r.line + n, endLine := r.endLine + n, code := text r.code }

/-- Two files that are compared tree by tree. -/
structure Comparison where
  old : Source
  new : Source
  /-- The number of lines by which the trees of the second file stand further down. -/
  offset : Nat
  /-- Whether chains may start at a variable in the second file. -/
  respells : Bool

namespace Comparison

variable (c : Comparison) {extent' : Extent} {r : Option Role}

/-- Such a tree has the same text in both files. -/
def keepsText (t : ParseTree Kind) : Bool :=
  !c.respells || [.name, .qualifiedName, .variable, .string].any t.isKind ||
    t.isKind .encapsed && t.parts.all fun p => !p.isNode || p.isKind .content

/-- The trees have the same role, and the second stands so many lines further down. Both or none
    name the class that routes are registered on, or are the word `class`. -/
def keeps (t t' : ParseTree Kind) : Bool :=
  t'.role == t.role && t'.startLine == t.startLine + c.offset &&
    t'.endLine == t.endLine + c.offset && isFacade (t'.text c.new) == isFacade (t.text c.old) &&
    isClassWord c.new t' == isClassWord c.old t &&
    (!c.keepsText t || t'.text c.new == t.text c.old)

/-- A chain may start at the place `object` in the second file, as it does at `scope` in the
    first. -/
def respelled (scope object : Extent) : Bool :=
  c.respells && isFacade (c.old.excerpt scope.start.byte scope.stop.byte) &&
    routers.contains (String.ofList
      ((c.new.excerpt object.start.byte object.stop.byte).toList.dropWhile (· == '$')))

mutual

/-- The tree of the second file says the same as that of the first. -/
def like : ParseTree Kind → ParseTree Kind → Bool
  | .sign s r extent, .sign s' r' extent' =>
    c.keeps (.sign s r extent) (.sign s' r' extent') &&
      (s == s' || c.respells && s == "::" && s' == "->")
  | .node k r extent parts, .node k' r' extent' parts' =>
    c.keeps (.node k r extent parts) (.node k' r' extent' parts') &&
      if k = k' then likeAll parts parts'
      else k == .scopedCall && k' == .memberCall && likeBehind parts parts'
  | _, _ => false

/-- The trees of the second file say the same as those of the first, one by one. -/
def likeAll : List (ParseTree Kind) → List (ParseTree Kind) → Bool
  | [], [] => true
  | t :: ts, t' :: ts' => like t t' && likeAll ts ts'
  | _, _ => false

/-- The trees say the same apart from the first, where a chain starts. -/
def likeBehind : List (ParseTree Kind) → List (ParseTree Kind) → Bool
  | .node .name none scope [] :: ts, .node .variable none object [] :: ts' =>
    c.respelled scope object && likeAll ts ts'
  | _, _ => false

end

/-- The tree of the second file says the same as that of the first. -/
def Alike (t t' : ParseTree Kind) : Prop := c.like t t' = true

/-- What a tree of the second file has in common with that of the first. -/
structure Kept (t t' : ParseTree Kind) : Prop where
  role : t'.role = t.role
  startLine : t'.startLine = t.startLine + c.offset
  endLine : t'.endLine = t.endLine + c.offset
  isFacade : isFacade (t'.text c.new) = isFacade (t.text c.old)
  isClassWord : isClassWord c.new t' = isClassWord c.old t
  text : c.keepsText t = true → t'.text c.new = t.text c.old

/-- What two trees that say the same look like. -/
inductive Shape : ParseTree Kind → ParseTree Kind → Prop
  | sign {s s' : String} {r : Option Role} {extent extent' : Extent}
    (harrow : (s' == "=>") = (s == "=>")) : Shape (.sign s r extent) (.sign s' r extent')
  | same {k : Kind} {r : Option Role} {extent extent' : Extent}
    {parts parts' : List (ParseTree Kind)} (hparts : Forall₂ c.Alike parts parts') :
    Shape (.node k r extent parts) (.node k r extent' parts')
  | respelled {r : Option Role} {extent extent' scope object : Extent}
    {parts parts' : List (ParseTree Kind)} (hroot : c.respelled scope object = true)
    (hparts : Forall₂ c.Alike parts parts') :
    Shape (.node .scopedCall r extent (.node .name none scope [] :: parts))
      (.node .memberCall r extent' (.node .variable none object [] :: parts'))

variable {c} {t t' : ParseTree Kind} {ts ts' chain chain' : List (ParseTree Kind)}

theorem forall₂_of_likeAll (h : c.likeAll ts ts') : Forall₂ c.Alike ts ts' := by
  induction ts generalizing ts' with
  | nil =>
    cases ts' with
    | nil => exact .nil
    | cons => simp [likeAll] at h
  | cons t ts ih =>
    cases ts' with
    | nil => simp [likeAll] at h
    | cons t' ts' =>
      rw [likeAll, Bool.and_eq_true] at h
      exact .cons h.1 (ih h.2)

theorem likeBehind_cases (h : c.likeBehind ts ts') : ∃ scope us object us',
    ts = .node .name none scope [] :: us ∧ ts' = .node .variable none object [] :: us' ∧
      c.respelled scope object ∧ c.likeAll us us' := by
  unfold likeBehind at h
  split at h
  · exact ⟨_, _, _, _, rfl, rfl, Bool.and_eq_true_iff.1 h⟩
  · cases h

section

variable (h : c.Alike t t')

include h

theorem Alike.kept : c.Kept t t' := by
  have hkeeps : c.keeps t t' := by
    cases t <;> cases t' <;> simp only [Alike, like, Bool.and_eq_true, Bool.false_eq_true] at h
    · exact h.1
    · exact h.1
  simp only [keeps, Bool.and_eq_true, Bool.or_eq_true, beq_iff_eq] at hkeeps
  obtain ⟨⟨⟨⟨⟨hrole, hstart⟩, hend⟩, hfacade⟩, hword⟩, htext⟩ := hkeeps
  exact ⟨hrole, hstart, hend, hfacade, hword, fun hk => htext.resolve_left (by simp [hk])⟩

theorem Alike.shape : c.Shape t t' := by
  have hrole := h.kept.role
  cases t with
  | sign s r extent =>
    cases t' with
    | node => simp [Alike, like] at h
    | sign s' r' extent' =>
      cases hrole
      simp only [Alike, like, Bool.and_eq_true, Bool.or_eq_true, beq_iff_eq] at h
      obtain ⟨-, rfl | ⟨⟨-, rfl⟩, rfl⟩⟩ := h
      · exact .sign rfl
      · exact .sign rfl
  | node k r extent parts =>
    cases t' with
    | sign => simp [Alike, like] at h
    | node k' r' extent' parts' =>
      cases hrole
      simp only [Alike, like, Bool.and_eq_true] at h
      obtain ⟨-, h⟩ := h
      split at h
      · next hkind =>
        subst hkind
        exact .same (forall₂_of_likeAll h)
      · simp only [Bool.and_eq_true, beq_iff_eq] at h
        obtain ⟨⟨rfl, rfl⟩, h⟩ := h
        obtain ⟨scope, ts, object, ts', rfl, rfl, hroot, hts⟩ := likeBehind_cases h
        exact .respelled hroot (forall₂_of_likeAll hts)

/-! ## What trees alike have in common -/

theorem Alike.isNode : t'.isNode = t.isNode := by
  cases h.shape <;> rfl

theorem Alike.isCall : isCall t' = isCall t := by
  cases h.shape <;> rfl

theorem Alike.isKind {k : Kind} (hscoped : k ≠ .scopedCall)
    (hmember : k ≠ .memberCall) : t'.isKind k = t.isKind k := by
  cases h.shape with
  | sign => rfl
  | same => rfl
  | respelled => simp [isKind, hscoped, hmember]

theorem Alike.isComment : isComment t' = isComment t :=
  h.isKind (by decide) (by decide)

theorem Alike.isName : isName t' = isName t := by
  rw [Php.isName, Php.isName, h.isKind (by decide) (by decide), h.isKind (by decide) (by decide)]

theorem Alike.text (hk : [.name, .qualifiedName, .variable, .string].any t.isKind) :
    t'.text c.new = t.text c.old :=
  h.kept.text (by rw [keepsText, hk, Bool.or_true, Bool.true_or])

theorem Alike.text_of_isName (hname : Php.isName t) : t'.text c.new = t.text c.old := by
  refine h.text ?_
  rcases Bool.or_eq_true_iff.1 hname with hk | hk <;> simp [hk]

end

theorem forall₂_filter_isNode (h : Forall₂ c.Alike ts ts') :
    Forall₂ c.Alike (ts.filter isNode) (ts'.filter isNode) :=
  rel_filter (fun _ _ ht => by simp [ht.isNode]) h

theorem any_of_alike {p : ParseTree Kind → Bool} (hp : ∀ {t t'}, c.Alike t t' → p t' = p t)
    (h : Forall₂ c.Alike ts ts') : ts'.any p = ts.any p := by
  induction h with
  | nil => rfl
  | cons ht _ ih => rw [any_cons, any_cons, hp ht, ih]

theorem find?_role (h : Forall₂ c.Alike ts ts') (r : Role) :
    Option.Rel c.Alike (ts.find? (·.role == some r)) (ts'.find? (·.role == some r)) := by
  induction h with
  | nil => exact .none
  | cons ht _ ih =>
    rw [find?_cons, find?_cons, ht.kept.role]
    split
    · exact .some ht
    · exact ih

theorem Alike.part? (h : c.Alike t t') (r : Role) :
    Option.Rel c.Alike (t.part? r) (t'.part? r) := by
  cases h.shape with
  | sign => exact .none
  | same hparts => exact find?_role hparts r
  | respelled _ hparts => exact find?_role hparts r

/-! ## Values -/

/-- A class is named alike by its constant `class`. -/
theorem literalOf_classConstant {extent : Extent} (h : Forall₂ c.Alike ts ts') :
    literalOf c.new (.node .classConstant r extent' ts') =
      literalOf c.old (.node .classConstant r extent ts) := by
  have hnodes : Forall₂ c.Alike (ParseTree.node .classConstant r extent ts).nodes
      (ParseTree.node .classConstant r extent' ts').nodes := forall₂_filter_isNode h
  rw [literalOf, literalOf]
  generalize (ParseTree.node .classConstant r extent ts).nodes = nodes at hnodes
  generalize (ParseTree.node .classConstant r extent' ts').nodes = nodes' at hnodes
  cases hnodes with
  | nil => rfl
  | cons hfirst hrest =>
    cases hrest with
    | nil => rfl
    | cons hsecond hrest =>
      cases hrest with
      | cons => rfl
      | nil =>
        dsimp only
        rw [hsecond.kept.isClassWord, hfirst.isName]
        split
        · next hclass => rw [hfirst.text_of_isName (Bool.and_eq_true_iff.1 hclass).2]
        · rfl

mutual

theorem Alike.literalOf : ∀ {t t' : ParseTree Kind}, c.Alike t t' →
    literalOf c.new t' = literalOf c.old t
  | .sign .., _, h => by
    cases h.shape
    rfl
  | .node k r extent parts, _, h => by
    cases h.shape with
    | respelled => rfl
    | same hparts =>
      cases k with
      | string => exact congrArg (stringLiteral _ _) (h.text rfl)
      | name => exact congrArg Literal.name (h.text rfl)
      | qualifiedName => exact congrArg Literal.qualifiedName (h.text rfl)
      | encapsed =>
        have hall := any_of_alike (p := fun p => !(!p.isNode || p.isKind .content))
          (fun ht => by rw [ht.isNode, ht.isKind (by decide) (by decide)]) hparts
        rw [Php.literalOf, Php.literalOf, all_eq_not_any_not, hall, ← all_eq_not_any_not]
        split
        · next hcontent =>
          refine congrArg (stringLiteral _ _) (h.kept.text ?_)
          rw [keepsText, ParseTree.parts, hcontent, Bool.and_true]
          exact Bool.or_true _
        · rfl
      | array => rw [Php.literalOf, Php.literalOf, elementsOf_of_alike hparts]
      | paren => rw [Php.literalOf, Php.literalOf, literalsOf_of_alike hparts]
      | classConstant => exact literalOf_classConstant hparts
      | _ => rfl

theorem literalsOf_of_alike : ∀ {ts ts' : List (ParseTree Kind)}, Forall₂ c.Alike ts ts' →
    literalsOf c.new ts' = literalsOf c.old ts
  | [], _, .nil => rfl
  | t :: ts, _, .cons ht hts => by
    rw [literalsOf, literalsOf, ht.isNode, ht.isComment, ht.literalOf,
      literalsOf_of_alike hts]

theorem elementsOf_of_alike : ∀ {ts ts' : List (ParseTree Kind)}, Forall₂ c.Alike ts ts' →
    elementsOf c.new ts' = elementsOf c.old ts
  | [], _, .nil => rfl
  | .sign .. :: ts, _, .cons ht hts => by
    cases ht.shape
    rw [elementsOf, elementsOf, elementsOf_of_alike hts]
  | .node k r extent parts :: ts, _, .cons ht hts => by
    cases ht.shape with
    | respelled => rfl
    | same hparts =>
      cases k with
      | comment => rw [elementsOf, elementsOf, elementsOf_of_alike hts]
      | element =>
        have harrow : ∀ {t t' : ParseTree Kind}, c.Alike t t' → t'.isSign "=>" = t.isSign "=>" := by
          intro t t' ht
          cases ht.shape with
          | sign harrow => simpa [isSign, BEq.comm] using harrow
          | same => rfl
          | respelled => rfl
        rw [elementsOf, elementsOf, elementsOf_of_alike hts, any_of_alike harrow hparts,
          any_of_alike (fun ht => ht.isKind (by decide) (by decide)) hparts,
          literalsOf_of_alike hparts]
      | _ => rfl

end

theorem Alike.argument (h : c.Alike t t') :
    (if t.isKind .arg then (literalsOf c.old t.parts).getLast?.getD .unknown else .unknown) =
      if t'.isKind .arg then (literalsOf c.new t'.parts).getLast?.getD .unknown else .unknown := by
  cases h.shape with
  | sign => rfl
  | respelled => rfl
  | same hparts =>
    rw [ParseTree.parts, ParseTree.parts, literalsOf_of_alike hparts]
    rfl

theorem Alike.argumentsOf (h : c.Alike t t') : argumentsOf c.old t = argumentsOf c.new t' := by
  have hall : ∀ {ts ts' : List (ParseTree Kind)}, Forall₂ c.Alike ts ts' → _ = _ :=
    fun hts => forall₂_eq_eq_eq ▸ rel_map (P := Eq) (fun _ _ ht => Alike.argument ht)
      (rel_filter (p := (!Php.isComment ·)) (q := (!Php.isComment ·))
        (fun _ _ ht => by simp [Alike.isComment ht]) (forall₂_filter_isNode hts))
  cases h.shape with
  | sign => rfl
  | same hparts => exact hall hparts
  | respelled _ hparts => exact congrArg (Literal.unknown :: ·) (hall hparts)

/-! ## Calls -/

/-- The calls say the same of a route. -/
structure SameCall (c : Comparison) (call call' : CallSite) : Prop where
  name : call'.name = call.name
  args : call'.args = call.args
  line : call'.line = call.line + c.offset

theorem Alike.subject? (h : c.Alike t t') : subject? t = none ∧ subject? t' = none ∨
    ∃ scope object, subject? t = some scope ∧ subject? t' = some object := by
  cases h.shape with
  | sign => exact .inl ⟨rfl, rfl⟩
  | respelled => exact .inr ⟨_, _, rfl, rfl⟩
  | same hparts =>
    refine (rel_cases (rel_head? (forall₂_filter_isNode hparts))).imp_right ?_
    rintro ⟨scope, object, hscope, hobject, -⟩
    exact ⟨scope, object, hscope, hobject⟩

theorem Alike.calleeOf? (h : c.Alike t t') : Option.Rel c.Alike (calleeOf? t) (calleeOf? t') := by
  rw [Php.calleeOf?, Php.calleeOf?, h.isKind (by decide) (by decide)]
  split
  · next hkind =>
    cases h.shape with
    | sign => cases hkind
    | same hparts => exact rel_head? (forall₂_filter_isNode hparts)
    | respelled => cases hkind
  · exact h.part? .name

theorem Alike.callSite? (h : c.Alike t t') :
    Option.Rel c.SameCall (callSite? c.old t) (callSite? c.new t') := by
  have hargs : ((t'.part? .arguments).map (Php.argumentsOf c.new)).getD [] =
      ((t.part? .arguments).map (Php.argumentsOf c.old)).getD [] := by
    obtain ⟨hnone, hnone'⟩ | ⟨args, args', hargs, hargs', halike⟩ := rel_cases (h.part? .arguments)
    · rw [hnone, hnone']
      rfl
    · rw [hargs, hargs']
      exact halike.argumentsOf.symm
  rw [Php.callSite?, Php.callSite?]
  obtain ⟨hs, hs'⟩ | ⟨subject, subject', hs, hs'⟩ := h.subject?
  · rw [hs, hs']
    exact .none
  obtain ⟨hn, hn'⟩ | ⟨name, name', hn, hn', hname⟩ := rel_cases h.calleeOf?
  · rw [hs, hs', hn, hn']
    exact .none
  rw [hs, hs', hn, hn', hargs]
  simp only [Option.bind_eq_bind, Option.bind_some, h.isCall, hname.isName]
  split
  · next hcall =>
    have hnamed := (Bool.and_eq_true_iff.1 hcall).2
    exact .some ⟨hname.text_of_isName hnamed, rfl, h.kept.startLine⟩
  · exact .none

theorem Alike.middlewareIn (h : c.Alike t t') :
    Route.middlewareIn (Php.callSite? c.new t').toList =
      Route.middlewareIn (Php.callSite? c.old t).toList := by
  obtain ⟨hnone, hnone'⟩ | ⟨call, call', hcall, hcall', hsame⟩ := rel_cases h.callSite?
  · rw [hnone, hnone']
  · rw [hcall, hcall', Option.toList_some, Option.toList_some, middlewareIn_singleton,
      middlewareIn_singleton, hsame.name, hsame.args]

/-- The calls of a chain name the same middleware. -/
theorem Alike.chainMiddleware : ∀ {t t' : ParseTree Kind}, c.Alike t t' →
    Route.chainMiddleware c.new t' = Route.chainMiddleware c.old t
  | .sign .., _, h => by
    cases h.shape
    rfl
  | .node k r extent [], _, h => by
    cases h.shape with
    | same hparts =>
      cases hparts
      rfl
  | .node k r extent (object :: parts), _, h => by
    have hown := h.middlewareIn
    cases h.shape with
    | same hparts =>
      cases hparts with
      | cons hobject _ =>
        have hchained : ∀ {t t'}, c.Alike t t' → (t'.isKind .memberCall || t'.isKind .scopedCall) =
            (t.isKind .memberCall || t.isKind .scopedCall) := fun h => by
          cases h.shape <;> rfl
        rw [chainMiddleware_cons, chainMiddleware_cons, hown, hchained hobject,
          hobject.chainMiddleware]
    | respelled =>
      rw [chainMiddleware_cons, chainMiddleware_cons, hown]
      rfl

/-- The first calls of two chains say the same. -/
theorem Alike.innermostCall : ∀ {t t' : ParseTree Kind}, c.Alike t t' →
    c.Alike (Php.innermostCall t) (Php.innermostCall t')
  | .sign .., _, h => by
    cases h.shape
    exact h
  | .node k r extent [], _, h => by
    cases h.shape with
    | same hparts =>
      cases hparts
      exact h
  | .node k r extent (object :: parts), _, h => by
    cases h.shape with
    | same hparts =>
      cases hparts with
      | cons hobject _ =>
        rw [Php.innermostCall, Php.innermostCall, hobject.isCall]
        split
        · exact hobject.innermostCall
        · exact h
    | respelled => exact h

/-! ## Routes -/

/-- The call belongs to a chain that starts at the class routes are registered on in the first
    file and at a variable in the second. -/
def lost (t t' : ParseTree Kind) : Bool :=
  t.isKind .memberCall && (subject? t).any (fun s => (innermostCall s).isKind .scopedCall) &&
    (subject? t').any fun s => (innermostCall s).isKind .memberCall

theorem lost_of_scopedCall (h : t.isKind .scopedCall) : lost t t' = false := by
  rw [lost, isKind_of_isKind h (show Kind.memberCall ≠ _ by decide)]
  rfl

theorem any_isFacade {k : Kind} (extent : Extent) (h : Forall₂ c.Alike ts ts') :
    ((subject? (.node k r extent' ts')).any fun scope => isFacade (scope.text c.new)) =
      (subject? (.node k r extent ts)).any fun scope => isFacade (scope.text c.old) := by
  rw [subject?, subject?]
  obtain ⟨hs, hs'⟩ | ⟨scope, scope', hs, hs', hscope⟩ :=
    rel_cases (rel_head? (forall₂_filter_isNode h))
  · rw [nodes, nodes, ParseTree.parts, ParseTree.parts, hs, hs',
      Option.any_none, Option.any_none]
  · rw [nodes, nodes, ParseTree.parts, ParseTree.parts, hs, hs',
      Option.any_some, Option.any_some, hscope.kept.isFacade]

/-- If a chain starts at the same kind of call in both files, it does so at a router in both or
    in none. -/
theorem isRoot_of_alike (h : c.Alike t t') :
    isRoot c.new t' = (isRoot c.old t && !(c.respells && t'.isKind .memberCall)) := by
  have hsite : (callSite? c.new t').isSome = (callSite? c.old t).isSome := by
    obtain ⟨hnone, hnone'⟩ | ⟨call, call', hcall, hcall', -⟩ := rel_cases h.callSite?
    · rw [hnone, hnone']
    · rw [hcall, hcall']
      rfl
  rw [isRoot, isRoot, hsite]
  cases h.shape with
  | sign => simp [isKind]
  | respelled hroot =>
    simp only [respelled, Bool.and_eq_true] at hroot
    simp [isKind, hroot.1.1]
  | @same k _ extent _ _ _ hparts =>
    by_cases hscoped : k = .scopedCall
    · subst hscoped
      rw [any_isFacade extent hparts]
      simp [isKind]
    · simp [isKind, Ne.symm hscoped]

theorem innermostCall_of_variable (h : t.isKind .variable) : innermostCall t = t := by
  cases t with
  | sign => rfl
  | node k r extent parts =>
    cases of_decide_eq_true h
    cases parts <;> rfl

theorem lead?_of_alike_subject {object object' : ParseTree Kind}
    (ht : t.isKind .memberCall) (ht' : t'.isKind .memberCall)
    (hs : subject? t = some object) (hs' : subject? t' = some object')
    (h : c.Alike object object') :
    lead? c.new t' = if c.respells && lost t t' then none else lead? c.old t := by
  have hlost : lost t t' = ((innermostCall object).isKind .scopedCall &&
      (innermostCall object').isKind .memberCall) := by
    rw [lost, ht, hs, hs']
    rfl
  have hvariable := h.isKind (k := .variable) (by decide) (by decide)
  rw [hlost]
  cases hv : object.isKind .variable with
  | true =>
    rw [lead?_of_variable ht hs hv, lead?_of_variable ht' hs' (hvariable.trans hv),
      h.text (by simp [hv]), innermostCall_of_variable hv,
      isKind_of_isKind hv (show Kind.scopedCall ≠ _ by decide), Bool.false_and, Bool.and_false]
    rfl
  | false =>
    rw [lead?_of_memberCall ht hs hv, lead?_of_memberCall ht' hs' (hvariable.trans hv),
      isRoot_of_alike h.innermostCall, h.chainMiddleware]
    cases hroot : isRoot c.old (innermostCall object) with
    | false => simp
    | true =>
      rw [isRoot, Bool.and_eq_true, Bool.and_eq_true] at hroot
      rw [hroot.1.2]
      cases c.respells <;> cases (innermostCall object').isKind .memberCall <;> rfl

/-- A call is addressed to a router in both files, unless its chain starts at a variable in the
    second one. -/
theorem lead?_of_alike (h : c.Alike t t') :
    lead? c.new t' = if c.respells && lost t t' then none else lead? c.old t := by
  cases h.shape with
  | sign => rw [lead?_eq_none rfl (.inl rfl), lead?_eq_none rfl (.inl rfl), ite_self]
  | respelled hroot =>
    simp only [respelled, Bool.and_eq_true] at hroot
    rw [lead?_of_variable rfl rfl rfl, lost_of_scopedCall rfl, Bool.and_false]
    exact (if_pos hroot.2).trans (if_pos hroot.1.2).symm
  | @same k r extent extent' parts parts' hparts =>
    -- Whether a node is a call of some kind does not depend on its parts.
    cases hscoped : (ParseTree.node k r extent parts).isKind .scopedCall with
    | true =>
      rw [lead?_of_scopedCall hscoped, lead?_of_scopedCall (by exact hscoped),
        any_isFacade extent hparts, lost_of_scopedCall hscoped, Bool.and_false,
        if_neg Bool.false_ne_true]
    | false =>
      have hsubject : Option.Rel c.Alike (subject? (.node k r extent parts))
          (subject? (.node k r extent' parts')) := rel_head? (forall₂_filter_isNode hparts)
      cases hmember : (ParseTree.node k r extent parts).isKind .memberCall with
      | false =>
        rw [lead?_eq_none hscoped (.inl hmember), lead?_eq_none (by exact hscoped)
          (.inl (by exact hmember)), ite_self]
      | true =>
        obtain ⟨hs, hs'⟩ | ⟨object, object', hs, hs', hobject⟩ := rel_cases hsubject
        · rw [lead?_eq_none hscoped (.inr hs), lead?_eq_none (by exact hscoped) (.inr hs'),
            ite_self]
        · exact lead?_of_alike_subject hmember (by exact hmember) hs hs' hobject

theorem addChained_of_alike (text : String → String) (h : c.Alike t t') (r : Route) :
    addChained c.new (r.moved c.offset text) t' = (addChained c.old r t).moved c.offset text := by
  rw [addChained, addChained]
  obtain ⟨hnone, hnone'⟩ | ⟨call, call', hcall, hcall', hsame⟩ := rel_cases h.callSite?
  · rw [hnone, hnone']
  · rw [hcall, hcall']
    dsimp only
    rw [hsame.name, hsame.args]
    split
    · rfl
    · split <;> rfl

theorem foldl_addChained_of_alike (text : String → String) (h : Forall₂ c.Alike ts ts')
    (r : Route) : ts'.foldl (addChained c.new) (r.moved c.offset text) =
      (ts.foldl (addChained c.old) r).moved c.offset text := by
  induction h generalizing r with
  | nil => rfl
  | cons ht _ ih => rw [foldl_cons, foldl_cons, addChained_of_alike text ht, ih]

theorem register_of_sameCall (text : String → String) {call call' : CallSite}
    (h : c.SameCall call call') (base : Route) : register call' (base.moved c.offset text) =
      (register call base).map (moved c.offset text) := by
  rw [register, register, h.name, h.args]
  split
  · rfl
  · split
    · rw [map_map]
      rfl
    · split
      · rw [map_map]
        rfl
      · rfl

/-- The text of the chain that a tree belongs to. -/
def chainText (source : Source) (chain : List (ParseTree Kind)) (t : ParseTree Kind) : String :=
  (chain.getLast?.getD t).text source

theorem getLast?_of_alike (h : Forall₂ c.Alike ts ts') (ht : c.Alike t t') :
    c.Alike (ts.getLast?.getD t) (ts'.getLast?.getD t') := by
  induction h generalizing t t' with
  | nil => exact ht
  | cons hfirst _ ih =>
    rw [getLast?_cons, getLast?_cons]
    exact ih hfirst

/-- A call registers the same routes in both files, unless its chain starts at a variable in the
    second one; there it registers none. -/
theorem ofCall_of_alike (path : String) (h : c.Alike t t')
    (hchain : Forall₂ c.Alike chain chain') {text : String → String}
    (htext : text (chainText c.old chain t) = chainText c.new chain' t') :
    ofCall c.new path chain' t' = if c.respells && lost t t' then [] else
      (ofCall c.old path chain t).map (moved c.offset text) := by
  rw [ofCall, ofCall, lead?_of_alike h]
  cases c.respells && lost t t' with
  | true => rfl
  | false =>
    rw [if_neg Bool.false_ne_true]
    obtain ⟨hnone, hnone'⟩ | ⟨call, call', hcall, hcall', hsame⟩ := rel_cases h.callSite?
    · rw [hnone, hnone']
      cases lead? c.old t <;> rfl
    · rw [hcall, hcall']
      cases lead? c.old t with
      | none => rfl
      | some middleware =>
        dsimp only
        rw [hsame.line, (getLast?_of_alike hchain h).kept.endLine, ← chainText, ← htext,
          ← register_of_sameCall text hsame, ← foldl_addChained_of_alike text hchain]
        rfl

/-! ## Files -/

/-- Two nodes that say the same, in chains that do, or two that are no calls. -/
def Paired (c : Comparison) (site site' : List (ParseTree Kind) × ParseTree Kind) : Prop :=
  Forall₂ c.Alike site.1 site'.1 ∧ c.Alike site.2 site'.2 ∨
    isCall site.2 = false ∧ isCall site'.2 = false

mutual

/-- The nodes of two trees that say the same are paired one by one. -/
theorem Alike.sitesIn : ∀ {t t' : ParseTree Kind} {chain chain' : List (ParseTree Kind)},
    c.Alike t t' → Forall₂ c.Alike chain chain' →
      Forall₂ c.Paired (Route.sitesIn chain t) (Route.sitesIn chain' t')
  | .sign .., _, _, _, h, _ => by
    cases h.shape
    exact .nil
  | .node k r extent [], _, _, _, h, hchain => by
    cases h.shape with
    | same hparts =>
      cases hparts
      exact .cons (.inl ⟨hchain, h⟩) .nil
  | .node k r extent (part :: parts), _, _, _, h, hchain => by
    cases h.shape with
    | same hparts =>
      rw [Route.sitesIn, Route.sitesIn]
      refine .cons (.inl ⟨hchain, h⟩) (sitesInAll_of_alike hparts ?_)
      split
      · exact .cons h hchain
      · exact .nil
    | respelled _ hparts =>
      exact .cons (.inl ⟨hchain, h⟩) (.cons (.inr ⟨rfl, rfl⟩) (sitesInAll_of_alike hparts .nil))

theorem sitesInAll_of_alike : ∀ {ts ts' chain chain' : List (ParseTree Kind)},
    Forall₂ c.Alike ts ts' → Forall₂ c.Alike chain chain' →
      Forall₂ c.Paired (sitesInAll chain ts) (sitesInAll chain' ts')
  | [], _, _, _, .nil, _ => .nil
  | t :: ts, _, _, _, .cons ht hts, hchain => by
    rw [sitesInAll, sitesInAll]
    exact rel_append (ht.sitesIn hchain) (sitesInAll_of_alike hts .nil)

end

theorem ofCall_eq_nil {source : Source} {path : String} (h : isCall t = false) :
    ofCall source path chain t = [] := by
  simp only [isCall, callKinds, any_cons, Bool.or_eq_false_iff] at h
  rw [ofCall, lead?_eq_none h.2.2.1 (.inl h.1)]

theorem ofCall_of_paired (path : String) (text : String → String)
    {site site' : List (ParseTree Kind) × ParseTree Kind} (h : c.Paired site site')
    (htext : Forall₂ c.Alike site.1 site'.1 → c.Alike site.2 site'.2 →
      text (chainText c.old site.1 site.2) = chainText c.new site'.1 site'.2) :
    ofCall c.new path site'.1 site'.2 = if c.respells && lost site.2 site'.2 then [] else
      (ofCall c.old path site.1 site.2).map (moved c.offset text) := by
  rcases h with ⟨hchain, h⟩ | ⟨h, h'⟩
  · exact ofCall_of_alike path h hchain (htext hchain h)
  · rw [ofCall_eq_nil h, ofCall_eq_nil h', map_nil, ite_self]

end Comparison

/-- The route apart from the text of its chain. -/
def uncoded (r : Route) : Route := r.moved 0 fun _ => ""

/-- If chains start at a variable that holds a router instead of the class routes are registered
    on, a file loses the routes that calls chained behind another call of such a chain register,
    and no more. So it registers the same routes just if there are no such routes. -/
theorem respelled_receivers (path : String) {source source' : Source} {file file' : ParseTree Kind}
    (hfile : parse? source = some file) (hfile' : parse? source' = some file')
    (h : Comparison.like ⟨source, source', 0, true⟩ file file' = true) :
    let sites := (sitesIn [] file).zip (sitesIn [] file')
    let routesOf := fun site : List (ParseTree Kind) × ParseTree Kind =>
      (ofCall source (Path.slashed path) site.1 site.2).map uncoded
    ∃ rs rs', ofFile? path source = some rs ∧ ofFile? path source' = some rs' ∧
      rs'.map uncoded = sites.flatMap (fun p =>
        if Comparison.lost p.1.2 p.2.2 then [] else routesOf p.1) ∧
      (rs'.map uncoded = rs.map uncoded ↔
        ∀ p ∈ sites, Comparison.lost p.1.2 p.2.2 = true → routesOf p.1 = []) := by
  intro sites routesOf
  have hpaired := Comparison.Alike.sitesIn h .nil
  have hlength := hpaired.length_eq
  have hold : (inTree source (Path.slashed path) [] file).map uncoded =
      sites.flatMap fun p => routesOf p.1 := by
    rw [inTree_eq_flatMap, map_flatMap, ← map_fst_zip (Nat.le_of_eq hlength),
      flatMap_map]
  have hnew : (inTree source' (Path.slashed path) [] file').map uncoded =
      sites.flatMap fun p => if Comparison.lost p.1.2 p.2.2 then [] else routesOf p.1 := by
    rw [inTree_eq_flatMap, map_flatMap, ← map_snd_zip (Nat.le_of_eq hlength.symm),
      flatMap_map]
    refine flatMap_congr fun p hp => ?_
    rw [Comparison.ofCall_of_paired _ (fun _ => Comparison.chainText source' p.2.1 p.2.2)
      (forall₂_zip hpaired hp) fun _ _ => rfl, Bool.true_and]
    split
    · rfl
    · rw [map_map]
      rfl
  refine ⟨_, _, by rw [ofFile?, hfile, Option.map_some], by rw [ofFile?, hfile', Option.map_some],
    hnew, ?_⟩
  rw [hnew, hold]
  exact flatMap_unless_eq_iff (fun p => Comparison.lost p.1.2 p.2.2) (fun p => routesOf p.1) sites

/-- A chain of calls on something. -/
def chainOn (receiver calls : String) : Source :=
  ["<?php ", receiver, calls, ";\n"].flatMap Source.ofString

/-- Nothing is lost of a chain whose first call registers its route. -/
theorem respelled_receivers_first :
    let source := chainOn "Route::" "get('/', 'Home@index')->name('home')"
    let source' := chainOn "$router->" "get('/', 'Home@index')->name('home')"
    ∃ file file' rs rs', parse? source = some file ∧ parse? source' = some file' ∧
      Comparison.like ⟨source, source', 0, true⟩ file file' = true ∧
      ofFile? "web.php" source = some rs ∧ ofFile? "web.php" source' = some rs' ∧
      rs'.map uncoded = rs.map uncoded := by
  intro source source'
  obtain ⟨file, hfile, h⟩ : ∃ file, parse? source = some file ∧
      (parse? source').map (fun file' =>
        Comparison.like ⟨source, source', 0, true⟩ file file' &&
          ((sitesIn [] file).zip (sitesIn [] file')).all fun p => !Comparison.lost p.1.2 p.2.2 ||
            (ofCall source (Path.slashed "web.php") p.1.1 p.1.2).isEmpty) = some true :=
    Option.bind_eq_some_iff.1 (by decide +kernel)
  obtain ⟨file', hfile', h⟩ := Option.map_eq_some_iff.1 h
  obtain ⟨hlike, hlost⟩ := Bool.and_eq_true_iff.1 h
  obtain ⟨rs, rs', hrs, hrs', -, hiff⟩ := respelled_receivers "web.php" hfile hfile' hlike
  refine ⟨file, file', rs, rs', hfile, hfile', hlike, hrs, hrs', hiff.2 fun p hp hlostp => ?_⟩
  have hp := all_eq_true.1 hlost p hp
  rw [hlostp, Bool.not_true, Bool.false_or, List.isEmpty_iff] at hp
  exact map_eq_nil_iff.2 hp

/-- A route behind a call that names its middleware is lost. -/
theorem guarded_router_registers_none :
    let source := chainOn "Route::" "middleware('a')->get('/', 'Home@index')"
    let source' := chainOn "$router->" "middleware('a')->get('/', 'Home@index')"
    ((parse? source).bind fun file => (parse? source').map fun file' =>
      Comparison.like ⟨source, source', 0, true⟩ file file') = some true ∧
    (ofFile? "web.php" source).map (·.map fun r => (r.method, r.uri)) = some [("GET", "/")] ∧
    (ofFile? "web.php" source').map (·.map fun r => (r.method, r.uri)) = some [] := by
  decide +kernel

end CodeAtlas.Route
