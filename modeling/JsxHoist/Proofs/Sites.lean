import JsxHoist.Tree.Hoisting

/-!
# Sites

The **sites** of a tree are the constant elements that a walk over it reaches, in visiting order. A
site is listed and not entered, and every other node is entered (`Tree.sites`).

Hoisting does three things in one pass, and this module takes them apart:

* `Tree.sites` collects, without a look at what is bound already;
* `Scope.bindAll` finds a name for each of a list of elements, without a look at any tree;
* `Tree.fill` puts a list of trees in place of the sites, without a look at elements or names.

`Tree.hoist_eq_fill` and `Tree.hoistItems_eq_fillItems` say that the pass is these three in turn, so
that what a walk does to the scope is a fact about lists of elements (`Scope.bindAll`), and what it
does to a tree is a fact about trees (`Tree.fill`).
-/

namespace JsxHoist

/-- A constant element that a walk reaches, with the slot that it stands in. -/
structure Site where
  slot : Slot
  element : Tree
deriving Inhabited

/-- What a walk leaves at a site whose element is bound to a name. -/
def Site.reference (site : Site) (name : String) : Tree :=
  site.slot.reference name site.element.span

/-- An expression in braces. -/
def Tree.inBraces (t : Tree) (span : Option Span) : Tree :=
  .node ⟨.container, span, []⟩ [(.single "expression", t)]

/-- A slot is **embedded** when it stands in the text of an element, where expressions need
braces. -/
def Slot.Embedded (slot : Slot) : Prop :=
  slot = .child ∨ slot = .attrValue

instance (slot : Slot) : Decidable slot.Embedded :=
  inferInstanceAs (Decidable (_ ∨ _))

/-- A reference is a bare name, or a name in braces. -/
theorem Slot.reference_eq (slot : Slot) (name : String) (span : Option Span) :
    slot.reference name span =
      if slot.Embedded then (Tree.mention name span).inBraces span
      else Tree.mention name span := by
  cases slot <;> rfl

/-- The names for a list of elements, bound one after the other. -/
def Scope.bindAll (s : Scope) : List Tree → List String × Scope
  | [] => ([], s)
  | e :: es => ((s.bind e).1 :: ((s.bind e).2.bindAll es).1, ((s.bind e).2.bindAll es).2)

namespace Scope

@[simp]
theorem bindAll_nil (s : Scope) : s.bindAll [] = ([], s) := rfl

@[simp]
theorem bindAll_cons (s : Scope) (e : Tree) (es : List Tree) :
    s.bindAll (e :: es) =
      ((s.bind e).1 :: ((s.bind e).2.bindAll es).1, ((s.bind e).2.bindAll es).2) := rfl

/-- Elements can be bound in portions. -/
theorem bindAll_append (s : Scope) (es fs : List Tree) :
    s.bindAll (es ++ fs) =
      ((s.bindAll es).1 ++ ((s.bindAll es).2.bindAll fs).1,
        ((s.bindAll es).2.bindAll fs).2) := by
  induction es generalizing s with
  | nil => rfl
  | cons e es ih => simp [ih]

@[simp]
theorem length_bindAll (s : Scope) (es : List Tree) : (s.bindAll es).1.length = es.length := by
  induction es generalizing s with
  | nil => rfl
  | cons e es ih => simp [ih]

end Scope

namespace Tree

/-- Is the tree an element? -/
def isElement (t : Tree) : Bool :=
  match t.label.kind with
  | .element => true
  | _ => false

theorem isElement_of_isConstantElement {t : Tree} (h : t.isConstantElement) : t.isElement := by
  unfold isConstantElement at h
  split at h
  · rfl
  · simp at h

/-! ### Collecting -/

mutual

/-- The sites of a tree that stands in a slot. -/
def sites (slot : Slot) : Tree → List Site
  | node l ps => if (node l ps).isConstantElement then [⟨slot, node l ps⟩] else sitesOfParts ps

/-- The sites in the parts of a tree, from left to right. -/
def sitesOfParts : List (Slot × Tree) → List Site
  | [] => []
  | (slot, t) :: ps => t.sites slot ++ sitesOfParts ps

end

theorem sites_of_isConstantElement {t : Tree} (h : t.isConstantElement) (slot : Slot) :
    t.sites slot = [⟨slot, t⟩] := by
  cases t with
  | node l ps => rw [sites, if_pos h]

theorem sites_node {l : Label} {ps : List (Slot × Tree)} (h : ¬ (node l ps).isConstantElement)
    (slot : Slot) : (node l ps).sites slot = sitesOfParts ps := by
  rw [sites, if_neg h]

@[simp]
theorem sitesOfParts_nil : sitesOfParts [] = [] := rfl

@[simp]
theorem sitesOfParts_cons (slot : Slot) (t : Tree) (ps : List (Slot × Tree)) :
    sitesOfParts ((slot, t) :: ps) = t.sites slot ++ sitesOfParts ps := rfl

theorem sitesOfParts_append (ps qs : List (Slot × Tree)) :
    sitesOfParts (ps ++ qs) = sitesOfParts ps ++ sitesOfParts qs := by
  induction ps with
  | nil => rfl
  | cons p ps ih =>
    obtain ⟨slot, t⟩ := p
    rw [List.cons_append, sitesOfParts_cons, sitesOfParts_cons, ih, List.append_assoc]

mutual

/-- Every site holds a constant element. -/
theorem isConstantElement_of_mem_sites {site : Site} {slot : Slot} :
    ∀ {t : Tree}, site ∈ t.sites slot → site.element.isConstantElement
  | node l ps, h => by
    by_cases hc : (node l ps).isConstantElement
    · rw [sites_of_isConstantElement hc, List.mem_singleton] at h
      rw [h]
      exact hc
    · rw [sites_node hc] at h
      exact isConstantElement_of_mem_sitesOfParts h

theorem isConstantElement_of_mem_sitesOfParts {site : Site} :
    ∀ {ps : List (Slot × Tree)}, site ∈ sitesOfParts ps → site.element.isConstantElement
  | [], h => by simp at h
  | (slot, t) :: ps, h => by
    rw [sitesOfParts_cons, List.mem_append] at h
    rcases h with h | h
    · exact isConstantElement_of_mem_sites h
    · exact isConstantElement_of_mem_sitesOfParts h

end

/-! ### Filling -/

mutual

/-- The tree with its sites, in order, replaced by the given trees. -/
def fill : Tree → List Tree → Tree
  | node l ps, us =>
    if (node l ps).isConstantElement then us.headD (node l ps) else node l (fillParts ps us)

/-- The parts with their sites, from left to right, replaced by the given trees. -/
def fillParts : List (Slot × Tree) → List Tree → List (Slot × Tree)
  | [], _ => []
  | (slot, t) :: ps, us =>
    (slot, t.fill (us.take (t.sites slot).length)) ::
      fillParts ps (us.drop (t.sites slot).length)

end

@[simp]
theorem fill_of_isConstantElement {t : Tree} (h : t.isConstantElement) (u : Tree)
    (us : List Tree) : t.fill (u :: us) = u := by
  cases t with
  | node l ps => rw [fill, if_pos h, List.headD_cons]

theorem fill_node {l : Label} {ps : List (Slot × Tree)} (h : ¬ (node l ps).isConstantElement)
    (us : List Tree) : (node l ps).fill us = node l (fillParts ps us) := by
  rw [fill, if_neg h]

@[simp]
theorem fillParts_nil (us : List Tree) : fillParts [] us = [] := rfl

/-- The first part takes as many trees as it has sites, and the rest is for the other parts. -/
theorem fillParts_cons {slot : Slot} {t : Tree} {us : List Tree}
    (h : us.length = (t.sites slot).length) (ps : List (Slot × Tree)) (vs : List Tree) :
    fillParts ((slot, t) :: ps) (us ++ vs) = (slot, t.fill us) :: fillParts ps vs := by
  rw [fillParts, ← h, List.take_left, List.drop_left]

/-- Trees for the sites of a list of parts are trees for the first part and trees for the rest. -/
theorem exists_split_of_length_eq {slot : Slot} {t : Tree} {ps : List (Slot × Tree)}
    {us : List Tree} (h : us.length = (sitesOfParts ((slot, t) :: ps)).length) :
    ∃ vs ws, us = vs ++ ws ∧ vs.length = (t.sites slot).length ∧
      ws.length = (sitesOfParts ps).length := by
  rw [sitesOfParts_cons, List.length_append] at h
  refine ⟨_, _, (List.take_append_drop (t.sites slot).length us).symm, ?_, ?_⟩
  · rw [List.length_take]
    omega
  · rw [List.length_drop]
    omega

/-! ### The pass taken apart -/

/-- What a walk leaves at its sites. -/
def references (s : Scope) (sites : List Site) : List Tree :=
  List.zipWith Site.reference sites (s.bindAll (sites.map Site.element)).1

@[simp]
theorem length_references (s : Scope) (sites : List Site) :
    (references s sites).length = sites.length := by
  simp [references]

theorem references_append (s : Scope) (ss rs : List Site) :
    references s (ss ++ rs) =
      references s ss ++ references (s.bindAll (ss.map Site.element)).2 rs := by
  rw [references, references, references, List.map_append, Scope.bindAll_append]
  exact List.zipWith_append (by simp)

mutual

/-- **Hoisting is collecting, naming and filling**: the walk binds the elements of the sites in
visiting order, and puts the references in their places. -/
theorem hoist_eq_fill (slot : Slot) (s : Scope) : ∀ t : Tree,
    t.hoist slot s =
      (t.fill (references s (t.sites slot)), (s.bindAll ((t.sites slot).map Site.element)).2)
  | node l ps => by
    by_cases hc : (node l ps).isConstantElement
    · rw [hoist_of_isConstantElement hc, sites_of_isConstantElement hc]
      simp [references, Site.reference, hc]
    · rw [hoist_node hc, sites_node hc, fill_node hc, hoistParts_eq_fillParts s ps]

/-- The walk over the parts of a tree, taken apart in the same way. -/
theorem hoistParts_eq_fillParts (s : Scope) : ∀ ps : List (Slot × Tree),
    hoistParts ps s =
      (fillParts ps (references s (sitesOfParts ps)),
        (s.bindAll ((sitesOfParts ps).map Site.element)).2)
  | [] => rfl
  | (slot, t) :: ps => by
    rw [hoistParts_cons, hoist_eq_fill slot s t, hoistParts_eq_fillParts _ ps, sitesOfParts_cons,
      references_append, fillParts_cons (by simp), List.map_append, Scope.bindAll_append]

end

/-- A walk keeps the label of every tree that it enters. -/
theorem label_hoist {t : Tree} (h : ¬ t.isConstantElement) (slot : Slot) (s : Scope) :
    (t.hoist slot s).1.label = t.label := by
  obtain ⟨l, ps⟩ := t
  rw [hoist_node h]
  rfl

/-! ### Statements of a module

The items of a module are the parts of a node of their own, each in the same slot. -/

/-- A list of statements as parts. -/
def body (items : List Tree) : List (Slot × Tree) :=
  items.map fun t => (.item "body", t)

/-- The sites in a list of statements. -/
def sitesOfItems (items : List Tree) : List Site :=
  sitesOfParts (body items)

/-- The statements with their sites, in order, replaced by the given trees. -/
def fillItems (items : List Tree) (us : List Tree) : List Tree :=
  (fillParts (body items) us).map Prod.snd

theorem hoistParts_body (items : List Tree) (s : Scope) :
    hoistParts (body items) s = (body (hoistItems items s).1, (hoistItems items s).2) := by
  induction items generalizing s with
  | nil => rfl
  | cons t ts ih =>
    rw [body, List.map_cons, hoistParts_cons, hoistItems_cons]
    simp only [body] at ih
    simp [body, ih]

@[simp]
theorem map_snd_body (items : List Tree) : (body items).map Prod.snd = items := by
  simp [body, Function.comp_def]

theorem fillParts_body (items us : List Tree) :
    fillParts (body items) us = body (fillItems items us) := by
  induction items generalizing us with
  | nil => rfl
  | cons t ts ih => exact congrArg _ (ih _)

/-- The walk over a list of statements, taken apart. -/
theorem hoistItems_eq_fillItems (items : List Tree) (s : Scope) :
    hoistItems items s =
      (fillItems items (references s (sitesOfItems items)),
        (s.bindAll ((sitesOfItems items).map Site.element)).2) := by
  have h := hoistParts_body items s
  rw [hoistParts_eq_fillParts] at h
  obtain ⟨hparts, hscope⟩ := Prod.mk.inj h
  rw [fillItems, sitesOfItems, hparts, hscope, map_snd_body]

end Tree

end JsxHoist
