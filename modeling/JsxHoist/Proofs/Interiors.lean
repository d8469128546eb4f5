import JsxHoist.Proofs.Changes
import JsxHoist.Proofs.Exhaustion

/-!
# The interior of a constant element

A walk does not enter the constant elements that it comes to. Nothing is missed by that, as long as
these have no type arguments: all that is inside such an element is **inert** (`Tree.Inert`), that
is, a literal, braces around one, an attribute or the opening tag. So the walk would find no site
there (`Tree.sitesOfParts_of_isConstantElement`), and a walk that does enter constant elements
(`Tree.hoistDeep`) comes to the same trees and the same scope. A module that is visited by this walk
(`Hoister.visitModuleBy`) becomes the same (`Hoister.interior_adds_nothing`).

Type arguments can hold anything that a type can, expressions in computed keys included, and are the
one part of a constant element that is not looked at when it is classified.
-/

namespace JsxHoist

/-- Can a node of the kind be an expression? Tags, attributes and braces cannot, nor can statements,
imports, holes and nodes without a name; of any other node only its name would tell. -/
def Kind.canBeExpression : Kind → Bool
  | identifier _ | string _ _ | number | boolean | element | other _ => true
  | opening _ _ | closing _ | attr _ | container => false
  | expressionStatement | importDeclaration _ | hole | untyped => false

namespace Tree

/-- The type arguments of an element: all that its opening tag has besides its name, which belongs
to the label, and its attributes. -/
def typeArguments (e : Tree) : List Tree :=
  (e.opening?.map parts).getD [] |>.filterMap fun p => if p.1 = .attr then none else some p.2

/-! ### Inert trees -/

/-- A node is **inert** when it is a literal, a pair of braces, an attribute or a self-closing
opening tag. -/
def Inert (u : Tree) : Prop :=
  u.isPrimitive ∨ u.label.kind = .container ∨ (∃ name, u.label.kind = .attr name) ∨
    ∃ tag, u.label.kind = .opening tag true

/-- Every node of the tree is inert. -/
def AllInert (t : Tree) : Prop :=
  ∀ ⦃slot p slot' u⦄, t.subtree? slot p = some (slot', u) → u.Inert

theorem parts_of_isPrimitive {t : Tree} (h : t.isPrimitive) : t.parts = [] := by
  obtain ⟨⟨kind, span, data⟩, ps⟩ := t
  cases ps with
  | nil => rfl
  | cons p ps => cases kind <;> exact absurd h Bool.false_ne_true

theorem words_of_isPrimitive {t : Tree} (h : t.isPrimitive) : t.label.kind.words = [] := by
  obtain ⟨⟨kind, span, data⟩, ps⟩ := t
  cases kind with
  | identifier | opening | closing | attr => exact absurd h Bool.false_ne_true
  | _ => rfl

namespace Inert

variable {u : Tree}

theorem not_isElement (h : u.Inert) : ¬ u.isElement := by
  intro helem
  rcases h with h | h | ⟨name, h⟩ | ⟨tag, h⟩
  · rw [(not_immutable_of_isElement helem).1] at h
    exact Bool.false_ne_true h
  all_goals simp [isElement, h] at helem

/-- Of the inert nodes, only literals can be expressions. -/
theorem isPrimitive_of_canBeExpression (h : u.Inert) (hu : u.label.kind.canBeExpression) :
    u.isPrimitive := by
  rcases h with h | h | ⟨name, h⟩ | ⟨tag, h⟩
  · exact h
  all_goals
    rw [h] at hu
    exact absurd hu Bool.false_ne_true

/-- Of the inert nodes, only opening tags and attributes use words. -/
theorem of_mem_words (h : u.Inert) {w : String} (hw : w ∈ u.label.kind.words) :
    (∃ tag, u.label.kind = .opening tag true ∧ w ∈ tag.words) ∨
      ∃ name, u.label.kind = .attr name ∧ w ∈ name.words := by
  rcases h with h | h | ⟨name, h⟩ | ⟨tag, h⟩
  · rw [words_of_isPrimitive h] at hw
    exact absurd hw List.not_mem_nil
  all_goals rw [h] at hw
  · exact absurd hw List.not_mem_nil
  · exact Or.inr ⟨name, h, hw⟩
  · exact Or.inl ⟨tag, h, hw⟩

end Inert

/-- All nodes are inert if the root is and those of the parts are. -/
theorem allInert_of_parts {t : Tree} (ht : t.Inert) (hparts : ∀ q ∈ t.parts, q.2.AllInert) :
    t.AllInert := by
  intro slot p slot' u hu
  cases p with
  | nil =>
    obtain rfl : t = u := (Prod.mk.inj (Option.some.inj hu)).2
    exact ht
  | cons k p =>
    obtain ⟨q, hq, hu⟩ := subtree?_cons_eq_some_iff.1 hu
    exact hparts q (List.mem_of_getElem? hq) hu

/-! ### The layers of a constant element -/

theorem allInert_of_isPrimitive {t : Tree} (h : t.isPrimitive) : t.AllInert := by
  refine allInert_of_parts (Or.inl h) fun q hq => ?_
  rw [parts_of_isPrimitive h] at hq
  exact absurd hq List.not_mem_nil

theorem allInert_of_isImmutableValue {t : Tree} (h : t.isImmutableValue) : t.AllInert := by
  unfold isImmutableValue at h
  split at h
  · exact allInert_of_isPrimitive rfl
  · next inner e =>
    refine allInert_of_parts (Or.inr (Or.inl rfl)) fun q hq => ?_
    obtain rfl : q = (inner, e) := List.mem_singleton.1 hq
    exact allInert_of_isPrimitive h
  · exact absurd h Bool.false_ne_true

theorem allInert_of_isImmutableAttribute {t : Tree} (h : t.isImmutableAttribute) :
    t.AllInert := by
  unfold isImmutableAttribute at h
  split at h
  · next name span data =>
    exact allInert_of_parts (Or.inr (Or.inr (Or.inl ⟨name, rfl⟩))) fun q hq =>
      absurd hq List.not_mem_nil
  · next name span data v =>
    refine allInert_of_parts (Or.inr (Or.inr (Or.inl ⟨name, rfl⟩))) fun q hq => ?_
    obtain rfl : q = (.attrValue, v) := List.mem_singleton.1 hq
    exact allInert_of_isImmutableValue h
  · exact absurd h Bool.false_ne_true

/-- Without type arguments, a part of the opening tag is an attribute. -/
theorem mem_attributes_of_typeArguments_eq_nil {l : Label} {o : Tree} (hl : l.kind = .element)
    (h : (node l [(.opening, o)]).typeArguments = []) {q : Slot × Tree} (hq : q ∈ o.parts) :
    q.2 ∈ o.attributes := by
  obtain ⟨kind, span, data⟩ := l
  obtain rfl : kind = .element := hl
  have hnone : (if q.1 = .attr then none else some q.2) = none :=
    List.filterMap_eq_nil_iff.1 h q hq
  have hslot : q.1 = .attr := by
    by_contra hne
    rw [if_neg hne] at hnone
    exact Option.some_ne_none q.2 hnone
  exact List.mem_filterMap.2 ⟨q, hq, if_pos hslot⟩

/-- **The interior of a constant element is inert**: every node below the root of one that has no
type arguments. -/
theorem inert_of_isConstantElement {e : Tree} (he : e.isConstantElement)
    (hargs : e.typeArguments = []) {slot slot' : Slot} {p : List Nat} {u : Tree} (hp : p ≠ [])
    (hu : e.subtree? slot p = some (slot', u)) : u.Inert := by
  obtain ⟨l, o, tag, rfl, hl, hkind, hall⟩ := isConstantElement_iff.1 he
  have hopening : o.AllInert := by
    refine allInert_of_parts (Or.inr (Or.inr (Or.inr ⟨tag, hkind⟩))) fun q hq => ?_
    have hattr := mem_attributes_of_typeArguments_eq_nil hl hargs hq
    exact allInert_of_isImmutableAttribute (List.all_eq_true.1 hall _ hattr)
  obtain ⟨k, p, rfl⟩ := List.exists_cons_of_ne_nil hp
  obtain ⟨q, hq, hu⟩ := subtree?_cons_eq_some_iff.1 hu
  obtain rfl : q = (.opening, o) := List.mem_singleton.1 (List.mem_of_getElem? hq)
  exact hopening hu

/-- There is no site inside a constant element. -/
theorem sitesOfParts_of_isConstantElement {e : Tree} (he : e.isConstantElement)
    (hargs : e.typeArguments = []) : sitesOfParts e.parts = [] := by
  refine List.eq_nil_iff_forall_not_mem.2 fun site hsite => ?_
  obtain ⟨k, p, slot, t, ht, hreach⟩ := exists_path_of_mem_sitesOfParts hsite
  have hsub : e.subtree? slot (k :: p) = some (site.slot, site.element) :=
    subtree?_cons_eq_some_iff.2 ⟨_, ht, subtree?_of_reach? hreach⟩
  have hinert := inert_of_isConstantElement he hargs (List.cons_ne_nil k p) hsub
  exact hinert.not_isElement
    (isElement_of_isConstantElement (isConstantElement_of_mem_sitesOfParts hsite))

/-- A walk over what is inside a constant element changes neither that nor the scope. -/
theorem hoistParts_of_isConstantElement {e : Tree} (he : e.isConstantElement)
    (hargs : e.typeArguments = []) (s : Scope) : hoistParts e.parts s = (e.parts, s) :=
  hoistParts_of_sitesOfParts_eq_nil (sitesOfParts_of_isConstantElement he hargs)

/-! ### The walk that enters constant elements -/

mutual

/-- Replaces the constant elements of a tree that stands in a slot, each after a walk over what is
inside it. -/
def hoistDeep (slot : Slot) : Tree → Scope → Tree × Scope
  | node l ps, s =>
    let (ps', s) := hoistPartsDeep ps s
    if (node l ps).isConstantElement then
      let (name, s) := s.bind (node l ps')
      (slot.reference name l.span, s)
    else (node l ps', s)

/-- The walk over the parts of a tree that enters constant elements. -/
def hoistPartsDeep : List (Slot × Tree) → Scope → List (Slot × Tree) × Scope
  | [], s => ([], s)
  | (slot, t) :: ps, s =>
    let (t, s) := t.hoistDeep slot s
    let (ps, s) := hoistPartsDeep ps s
    ((slot, t) :: ps, s)

end

theorem hoistPartsDeep_cons (slot : Slot) (t : Tree) (ps : List (Slot × Tree)) (s : Scope) :
    hoistPartsDeep ((slot, t) :: ps) s =
      ((slot, (t.hoistDeep slot s).1) :: (hoistPartsDeep ps (t.hoistDeep slot s).2).1,
        (hoistPartsDeep ps (t.hoistDeep slot s).2).2) := rfl

/-- The walk over a list of statements that enters constant elements. -/
def hoistItemsDeep : List Tree → Scope → List Tree × Scope
  | [], s => ([], s)
  | t :: ts, s =>
    let (t, s) := t.hoistDeep (.item "body") s
    let (ts, s) := hoistItemsDeep ts s
    (t :: ts, s)

theorem hoistItemsDeep_cons (t : Tree) (ts : List Tree) (s : Scope) :
    hoistItemsDeep (t :: ts) s =
      ((t.hoistDeep (.item "body") s).1 ::
          (hoistItemsDeep ts (t.hoistDeep (.item "body") s).2).1,
        (hoistItemsDeep ts (t.hoistDeep (.item "body") s).2).2) := rfl

mutual

/-- **Entering constant elements makes no difference** where these have no type arguments. -/
theorem hoistDeep_eq_hoist {slot : Slot} {s : Scope} : ∀ {t : Tree},
    (∀ site ∈ t.sites slot, site.element.typeArguments = []) →
    t.hoistDeep slot s = t.hoist slot s
  | node l ps, h => by
    by_cases hc : (node l ps).isConstantElement
    · rw [sites_of_isConstantElement hc] at h
      have hargs : (node l ps).typeArguments = [] := h _ (List.mem_singleton_self _)
      have hnone : sitesOfParts ps = [] := sitesOfParts_of_isConstantElement hc hargs
      have hparts : hoistPartsDeep ps s = (ps, s) := by
        rw [hoistPartsDeep_eq_hoistParts (by simp [hnone]), hoistParts_of_sitesOfParts_eq_nil hnone]
      rw [hoistDeep, hparts, hoist_of_isConstantElement hc]
      exact if_pos hc
    · rw [sites_node hc] at h
      rw [hoistDeep, hoistPartsDeep_eq_hoistParts h, hoist_node hc]
      exact if_neg hc

theorem hoistPartsDeep_eq_hoistParts {s : Scope} : ∀ {ps : List (Slot × Tree)},
    (∀ site ∈ sitesOfParts ps, site.element.typeArguments = []) →
    hoistPartsDeep ps s = hoistParts ps s
  | [], _ => rfl
  | (slot, t) :: ps, h => by
    rw [sitesOfParts_cons, List.forall_mem_append] at h
    rw [hoistPartsDeep_cons, hoistDeep_eq_hoist h.1, hoistPartsDeep_eq_hoistParts h.2,
      hoistParts_cons]

end

theorem hoistItemsDeep_eq_hoistItems {items : List Tree} {s : Scope}
    (h : ∀ site ∈ sitesOfItems items, site.element.typeArguments = []) :
    hoistItemsDeep items s = hoistItems items s := by
  induction items generalizing s with
  | nil => rfl
  | cons t ts ih =>
    have hsites : sitesOfItems (t :: ts) = t.sites (.item "body") ++ sitesOfItems ts := rfl
    rw [hsites, List.forall_mem_append] at h
    rw [hoistItemsDeep_cons, hoistDeep_eq_hoist h.1, ih h.2, hoistItems_cons]

end Tree

/-- The element `<input size={1} disabled />`. -/
def Tree.inputField : Tree :=
  .node { kind := .element }
    [(.opening, .node { kind := .opening (.plain { value := "input" }) true }
      [(.attr, .node { kind := .attr (.plain { value := "size" }) }
        [(.attrValue, .node { kind := .container }
          [(.single "expression", .node { kind := .number } [])])]),
      (.attr, .node { kind := .attr (.plain { value := "disabled" }) } [])])]

/-! ### Modules -/

namespace Hoister

/-- A walk that leaves the same of the items behind the anchor makes for the same visit. -/
theorem visitModuleBy_eq_visitModule {walk : List Tree → Scope → List Tree × Scope} {h : Hoister}
    {m : Module} (hwalk : ∀ i, anchor? h.options.importSource m.body = some i →
      walk (m.body.drop (i + 1)) (h.moduleScope m) = h.walk m i) :
    h.visitModuleBy walk m = h.visitModule m := by
  rw [visitModule, visitModuleBy, visitModuleBy]
  cases hi : anchor? h.options.importSource m.body with
  | none => rfl
  | some i => simp only [hwalk i hi, Hoister.walk]

/-- **Not entering a constant element misses nothing.**

* A walk over what is inside a constant element without type arguments changes neither that nor the
  scope, whatever the scope. Every expression in it is a string, number or boolean literal, and
  every word in it belongs to the name of the opening tag or of an attribute.
* On every module whose constant elements behind the anchor have no type arguments, the walk that
  enters these makes for the same visit: the same declarations, references and events, and the same
  hoister afterwards. -/
theorem interior_adds_nothing :
    (∀ e : Tree, e.isConstantElement → e.typeArguments = [] →
      (∀ s, Tree.hoistParts e.parts s = (e.parts, s)) ∧
      (∀ slot p slot' u, p ≠ [] → e.subtree? slot p = some (slot', u) →
        u.label.kind.canBeExpression → u.isPrimitive) ∧
      ∀ slot p slot' u w, p ≠ [] → e.subtree? slot p = some (slot', u) →
        w ∈ u.label.kind.words →
        (∃ tag, u.label.kind = .opening tag true ∧ w ∈ tag.words) ∨
          ∃ name, u.label.kind = .attr name ∧ w ∈ name.words) ∧
    ∀ (h : Hoister) (m : Module),
      (∀ i, anchor? h.options.importSource m.body = some i →
        ∀ site ∈ m.sitesAfter i, site.element.typeArguments = []) →
      h.visitModuleBy Tree.hoistItemsDeep m = h.visitModule m := by
  constructor
  · intro e he hargs
    refine ⟨Tree.hoistParts_of_isConstantElement he hargs, ?_, ?_⟩
    · intro slot p slot' u hp hu hexpr
      exact (Tree.inert_of_isConstantElement he hargs hp hu).isPrimitive_of_canBeExpression hexpr
    · intro slot p slot' u w hp hu hw
      exact (Tree.inert_of_isConstantElement he hargs hp hu).of_mem_words hw
  · intro h m hm
    exact visitModuleBy_eq_visitModule fun i hi => Tree.hoistItemsDeep_eq_hoistItems (hm i hi)

/-- The literal in the braces of an attribute, the name of the other attribute, and the line breaks
of the sample. -/
theorem interior_adds_nothing_sample :
    Tree.inputField.isConstantElement ∧ Tree.inputField.typeArguments = [] ∧
      (∀ s, Tree.hoistParts Tree.inputField.parts s = (Tree.inputField.parts, s)) ∧
      (∃ slot u, Tree.inputField.subtree? (.item "body") [0, 0, 0, 0] = some (slot, u) ∧
        u.label.kind.canBeExpression ∧ u.isPrimitive) ∧
      (∃ slot u, Tree.inputField.subtree? (.item "body") [0, 1] = some (slot, u) ∧
        "disabled" ∈ u.label.kind.words ∧
        ((∃ tag, u.label.kind = .opening tag true ∧ "disabled" ∈ tag.words) ∨
          ∃ name, u.label.kind = .attr name ∧ "disabled" ∈ name.words)) ∧
      anchor? "react" Module.sample.body = some 0 ∧
      (∀ site ∈ Module.sample.sitesAfter 0, site.element.typeArguments = []) ∧
      ({ options := {} } : Hoister).visitModuleBy Tree.hoistItemsDeep Module.sample =
        ({ options := {} } : Hoister).visitModule Module.sample := by
  obtain ⟨hinside, hmodules⟩ := interior_adds_nothing
  obtain ⟨hwalk, hexpr, hwords⟩ := hinside Tree.inputField rfl rfl
  have hsites : ∀ site ∈ Module.sample.sitesAfter 0, site.element.typeArguments = [] := by
    rw [Module.sitesAfter_sample]
    simp [Tree.lineBreak, Tree.typeArguments, Tree.opening?, Tree.parts]
  have hsample := hmodules { options := {} } Module.sample fun i hi => by
    obtain rfl : 0 = i := Option.some.inj (anchor?_sample.symm.trans hi)
    exact hsites
  have hliteral : Tree.inputField.subtree? (.item "body") [0, 0, 0, 0] =
      some (.single "expression", .node { kind := .number } []) := rfl
  have hattr : Tree.inputField.subtree? (.item "body") [0, 1] =
      some (.attr, .node { kind := .attr (.plain { value := "disabled" }) } []) := rfl
  refine ⟨rfl, rfl, hwalk, ⟨_, _, hliteral, rfl, ?_⟩, ⟨_, _, hattr, ?_, ?_⟩, anchor?_sample, hsites,
    hsample⟩
  · exact hexpr _ _ _ _ (List.cons_ne_nil _ _) hliteral rfl
  · exact List.mem_singleton_self _
  · exact hwords _ _ _ _ _ (List.cons_ne_nil _ _) hattr (List.mem_singleton_self _)

end Hoister

end JsxHoist
