import JsxHoist.Proofs.ModuleWalk

/-!
# Hoisting leaves nothing to hoist

A walk decides on an element before it enters it, and what it does inside could change the answer.
It does not: literals, immutable values and immutable attributes are as many after the walk as
before (`Tree.isPrimitive_hoist`, `Tree.isImmutableValue_hoist`, `Tree.isImmutableAttribute_hoist`),
since a reference is none of these and neither is the element that it replaces. So an element that
the walk enters does not become constant (`Tree.not_isConstantElement_hoist`), and one pass leaves
no constant element behind the anchor (`Hoister.exhausted_visitModule`).
-/

namespace JsxHoist

namespace Tree

/-! ### The classifier and references -/

theorem isConstantElement_iff {t : Tree} :
    t.isConstantElement ↔ ∃ (l : Label) (o : Tree) (tag : JsxName), t = node l [(.opening, o)] ∧
      l.kind = .element ∧ o.label.kind = .opening tag true ∧
      o.attributes.all isImmutableAttribute := by
  constructor
  · intro h
    unfold isConstantElement at h
    split at h
    · next span data o =>
      split at h
      · next tag hkind => exact ⟨⟨.element, span, data⟩, o, tag, rfl, rfl, hkind, h⟩
      · simp at h
    · simp at h
  · rintro ⟨⟨kind, span, data⟩, o, tag, rfl, rfl, hkind, hall⟩
    simp only [isConstantElement, hkind, hall]

/-- An element is no literal, no immutable value and no attribute. -/
theorem not_immutable_of_isElement {t : Tree} (h : t.isElement) :
    t.isPrimitive = false ∧ t.isImmutableValue = false ∧ t.isImmutableAttribute = false := by
  obtain ⟨⟨kind, span, data⟩, ps⟩ := t
  cases kind with
  | element => exact ⟨rfl, rfl, rfl⟩
  | _ => simp [isElement, label] at h

/-- A reference is no literal, no immutable value and no attribute. -/
theorem not_immutable_reference (slot : Slot) (name : String) (span : Option Span) :
    (slot.reference name span).isPrimitive = false ∧
      (slot.reference name span).isImmutableValue = false ∧
      (slot.reference name span).isImmutableAttribute = false := by
  cases slot <;> exact ⟨rfl, rfl, rfl⟩

/-! ### Stability of the classifier -/

theorem isPrimitive_hoist (slot : Slot) (t : Tree) (s : Scope) :
    (t.hoist slot s).1.isPrimitive = t.isPrimitive := by
  by_cases hc : t.isConstantElement
  · rw [hoist_of_isConstantElement hc, (not_immutable_reference _ _ _).1,
      (not_immutable_of_isElement (isElement_of_isConstantElement hc)).1]
  · obtain ⟨⟨kind, span, data⟩, ps⟩ := t
    rw [hoist_node hc]
    cases ps with
    | nil => rfl
    | cons p ps => cases kind <;> rfl

theorem isImmutableValue_hoist (slot : Slot) (t : Tree) (s : Scope) :
    (t.hoist slot s).1.isImmutableValue = t.isImmutableValue := by
  by_cases hc : t.isConstantElement
  · rw [hoist_of_isConstantElement hc, (not_immutable_reference _ _ _).2.1,
      (not_immutable_of_isElement (isElement_of_isConstantElement hc)).2.1]
  · obtain ⟨⟨kind, span, data⟩, ps⟩ := t
    rw [hoist_node hc]
    -- only braces look further down, at the one expression in them
    match ps with
    | [] => rfl
    | [(inner, e)] =>
      cases kind with
      | container => exact isPrimitive_hoist inner e s
      | _ => rfl
    | _ :: _ :: _ => cases kind <;> rfl

theorem isImmutableAttribute_hoist (slot : Slot) (t : Tree) (s : Scope) :
    (t.hoist slot s).1.isImmutableAttribute = t.isImmutableAttribute := by
  by_cases hc : t.isConstantElement
  · rw [hoist_of_isConstantElement hc, (not_immutable_reference _ _ _).2.2,
      (not_immutable_of_isElement (isElement_of_isConstantElement hc)).2.2]
  · obtain ⟨⟨kind, span, data⟩, ps⟩ := t
    rw [hoist_node hc]
    match ps with
    | [] => rfl
    | [(inner, v)] =>
      cases kind with
      | attr name =>
        cases inner with
        | attrValue => exact isImmutableValue_hoist .attrValue v s
        | _ => rfl
      | _ => rfl
    | (inner, _) :: _ :: _ => cases kind <;> cases inner <;> rfl

/-- A walk changes nothing about whether all attributes are immutable. -/
theorem all_attributes_hoistParts (l : Label) (ps : List (Slot × Tree)) (s : Scope) :
    (node l (hoistParts ps s).1).attributes.all isImmutableAttribute =
      (node l ps).attributes.all isImmutableAttribute := by
  induction ps generalizing s with
  | nil => rfl
  | cons p ps ih =>
    obtain ⟨slot, t⟩ := p
    simp only [attributes, parts, hoistParts_cons, List.filterMap_cons] at ih ⊢
    by_cases hslot : slot = .attr
    · simp [hslot, isImmutableAttribute_hoist, ih]
    · simp [hslot, ih]

/-- **A walk makes no element constant**: what it enters is not constant afterwards. -/
theorem not_isConstantElement_hoist {t : Tree} (hc : ¬ t.isConstantElement) (slot : Slot)
    (s : Scope) : ¬ (t.hoist slot s).1.isConstantElement := by
  rw [isConstantElement_iff]
  rintro ⟨l', o', tag, ht, hl, hkind, hall⟩
  obtain ⟨l, ps⟩ := t
  rw [hoist_node hc] at ht
  obtain ⟨rfl, hparts⟩ := Tree.node.inj ht
  -- a constant element is an opening tag and nothing else, and the walk keeps the number of parts
  obtain ⟨o, rfl, rfl⟩ : ∃ o, ps = [(.opening, o)] ∧ o' = (o.hoist .opening s).1 := by
    match ps, hparts with
    | [(slotₒ, o)], hparts =>
      obtain ⟨rfl, rfl⟩ : slotₒ = .opening ∧ (o.hoist slotₒ s).1 = o' := by simpa using hparts
      exact ⟨o, rfl, rfl⟩
    | [], hparts => simp at hparts
    | (_, _) :: (_, _) :: _, hparts => simp at hparts
  by_cases hco : o.isConstantElement
  · -- a reference in place of the opening tag is no opening tag
    rw [hoist_of_isConstantElement hco] at hkind
    simp [Slot.reference, mention, label] at hkind
  · rw [label_hoist hco] at hkind
    obtain ⟨lₒ, psₒ⟩ := o
    rw [hoist_node hco] at hall
    rw [all_attributes_hoistParts] at hall
    exact hc (isConstantElement_iff.2 ⟨l, node lₒ psₒ, tag, rfl, hl, hkind, hall⟩)

/-- A reference has no element in it. -/
theorem not_isElement_of_subtree?_reference {site : Site} {name : String} {p : List Nat}
    {slot : Slot} {u : Tree}
    (h : (site.reference name).subtree? site.slot p = some (slot, u)) : ¬ u.isElement := by
  rcases subtree?_reference h with ⟨rfl, -⟩ | hkind
  · exact Bool.false_ne_true
  · simp [isElement, hkind]

end Tree

/-! ### Modules -/

namespace Hoister

variable {h : Hoister} {m : Module} {i : Nat}

/-- **Elements behind the anchor are rewritten elements**: what the walk made, in the scope that it
had come to, of an element that it entered. -/
theorem exists_element_of_subtree?_tail {k : Nat} {t' u : Tree} {p : List Nat} {slot : Slot}
    (ht' : (h.tail m i)[k]? = some t') (hu : t'.subtree? (.item "body") p = some (slot, u))
    (helem : u.isElement) :
    ∃ t e before, (m.body.drop (i + 1))[k]? = some t ∧
      t.reach? (.item "body") p = some (slot, e) ∧ e.isElement ∧ ¬ e.isConstantElement ∧
      before <+: m.sitesAfter i ∧
      u = (e.hoist slot ((h.moduleScope m).bindAll (before.map Site.element)).2).1 := by
  obtain ⟨t, ht, hcases⟩ := Tree.subtree?_hoistItems ht' hu
  rcases hcases with ⟨e, before, hreach, hce, hpre, rfl⟩ | ⟨-, r, site, name, -, -, href⟩
  · refine ⟨t, e, before, ht, hreach, ?_, hce, hpre, rfl⟩
    rw [Tree.isElement, Tree.label_hoist hce] at helem
    exact helem
  · exact absurd helem (Tree.not_isElement_of_subtree?_reference href)

theorem not_isConstantElement_of_subtree?_tail {k : Nat} {t' u : Tree} {p : List Nat}
    {slot : Slot} (ht' : (h.tail m i)[k]? = some t')
    (hu : t'.subtree? (.item "body") p = some (slot, u)) : ¬ u.isConstantElement := by
  intro hc
  obtain ⟨-, e, before, -, -, -, hce, -, rfl⟩ :=
    exists_element_of_subtree?_tail ht' hu (Tree.isElement_of_isConstantElement hc)
  exact Tree.not_isConstantElement_hoist hce _ _ hc

/-- **One pass is enough.** In the outcome for a module with an anchor at `i`, the walk finds
nothing more to hoist in the rewritten items: no node of them, at any depth, is a constant element.
Each element in them is what the walk made of an element in the same place, which was not constant
either; for no walk turns an element that it enters into a constant one. -/
theorem exhausted_visitModule (hi : anchor? h.options.importSource m.body = some i) :
    ∃ (bs : List Binding) (tail : List Tree),
      (h.visitModule m).result =
        { m with
          body := m.body.take (i + 1) ++
            bs.map (Binding.declaration h.options.declarationKind) ++ tail } ∧
      tail.length = (m.body.drop (i + 1)).length ∧
      Tree.sitesOfItems tail = [] ∧
      (∀ (k : Nat) (t' u : Tree) (p : List Nat) (slot : Slot), tail[k]? = some t' →
        t'.subtree? (.item "body") p = some (slot, u) → ¬ u.isConstantElement ∧
        (u.isElement → ∃ t e before, (m.body.drop (i + 1))[k]? = some t ∧
          t.reach? (.item "body") p = some (slot, e) ∧ e.isElement ∧ ¬ e.isConstantElement ∧
          before <+: m.sitesAfter i ∧
          u = (e.hoist slot ((h.moduleScope m).bindAll (before.map Site.element)).2).1)) ∧
      ∀ (e : Tree) (slot : Slot) (s : Scope), ¬ e.isConstantElement →
        ¬ (e.hoist slot s).1.isConstantElement := by
  refine ⟨h.bindings m i, h.tail m i, result_visitModule hi, h.length_tail m i, ?_, ?_, ?_⟩
  · refine List.eq_nil_iff_forall_not_mem.2 fun site hsite => ?_
    obtain ⟨k, p, t, ht, hreach⟩ := Tree.exists_path_of_mem_sitesOfItems hsite
    exact not_isConstantElement_of_subtree?_tail ht (Tree.subtree?_of_reach? hreach)
      (Tree.isConstantElement_of_mem_sitesOfParts hsite)
  · intro k t' u p slot ht' hu
    exact ⟨not_isConstantElement_of_subtree?_tail ht' hu,
      exists_element_of_subtree?_tail ht' hu⟩
  · exact fun e slot s he => Tree.not_isConstantElement_hoist he slot s

/-- The line breaks of the sample are gone from its items, in braces and out of them. -/
theorem exhausted_visitModule_sample :
    anchor? "react" Module.sample.body = some 0 ∧ ∃ (bs : List Binding) (tail : List Tree),
      (({ options := {} } : Hoister).visitModule Module.sample).result =
        { Module.sample with
          body := Module.sample.body.take 1 ++ bs.map (Binding.declaration .var) ++ tail } ∧
      tail.length = 1 ∧ Tree.sitesOfItems tail = [] := by
  obtain ⟨bs, tail, hresult, hlen, hsites, -⟩ :=
    exhausted_visitModule (h := { options := {} }) anchor?_sample
  exact ⟨anchor?_sample, bs, tail, hresult, hlen, hsites⟩

end Hoister

end JsxHoist
