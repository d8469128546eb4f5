import JsxHoist.Proofs.Scoping

/-!
# Component tags

A tag that starts with a lowercase letter names an element of the page. Any other tag refers to a
component, by the name that it begins with (`Tree.component?`). Hoisting moves such a tag together
with its element to the declarations behind the anchor, and does not look at the name.

* `Hoister.rescoped_visitModule`: the name refers to the same thing as before if and only if no node
  around the place that the element leaves binds it. What it referred to in a function, a parameter
  or a local variable, is lost.
* `Hoister.initializedAfter_visitModule`: the declaration of the element comes before that of the
  component if and only if the component is declared by `let`, `const` or `class` behind the anchor.
-/

namespace JsxHoist

/-! ### The name in a tag -/

namespace JsxName

/-- The word that a member path begins with. -/
def root? : JsxName → Option String
  | plain word => some word.value
  | member object _ _ _ => object.root?
  | namespaced .. => none

/-- The name of the variable that a tag refers to. A tag in a namespace, or one that is a single
word with a lowercase letter at its start, refers to none. -/
def component? : JsxName → Option String
  | plain word => if word.value.toList.head?.any Char.isLower then none else some word.value
  | member object _ _ _ => object.root?
  | namespaced .. => none

theorem mem_words_of_root? {tag : JsxName} {word : String} (h : tag.root? = some word) :
    word ∈ tag.words := by
  induction tag with
  | plain w => exact List.mem_singleton.2 (Option.some.inj h).symm
  | member object property span data ih => exact List.mem_append_left _ (ih h)
  | namespaced scope name span data => exact absurd h nofun

theorem mem_words_of_component? {tag : JsxName} {word : String} (h : tag.component? = some word) :
    word ∈ tag.words := by
  cases tag with
  | plain w =>
    rw [component?, Option.ite_none_left_eq_some] at h
    exact mem_words_of_root? h.2
  | member object property span data => exact List.mem_append_left _ (mem_words_of_root? h)
  | namespaced scope name span data => exact absurd h nofun

end JsxName

/-- The name of the variable that the tag of an element refers to. -/
def Tree.component? (t : Tree) : Option String :=
  t.tag?.bind JsxName.component?

/-- The name in a tag is a word of the element. -/
theorem Tree.mem_words_of_component? {t : Tree} {word : String} (h : t.component? = some word) :
    word ∈ t.words := by
  obtain ⟨tag, htag, hcomponent⟩ := Option.bind_eq_some_iff.1 h
  obtain ⟨o, ho, hkind⟩ := Option.bind_eq_some_iff.1 htag
  have hopening : word ∈ o.words := by
    refine o.kind_words_subset ?_
    split at hkind
    · next tag' selfClosing heq =>
      obtain rfl := Option.some.inj hkind
      rw [heq]
      exact JsxName.mem_words_of_component? hcomponent
    · exact absurd hkind nofun
  unfold opening? at ho
  split at ho
  · obtain rfl := Option.some.inj ho
    rw [words, wordsOfParts]
    exact List.mem_append_right _ (List.mem_append_left _ hopening)
  · exact absurd ho nofun

/-! ### What a tag refers to -/

/-- Where a function binds a word, so does the tree that the function stands in. -/
theorem Tree.isSome_binder?_append {word : String} {slot slot' : Slot} {t f : Tree}
    {q r : List Nat} (hf : t.subtree? slot q = some (slot', f))
    (hr : (f.binder? word slot' r).isSome) : (t.binder? word slot (q ++ r)).isSome := by
  induction q generalizing slot t with
  | nil =>
    obtain ⟨rfl, rfl⟩ : slot = slot' ∧ t = f := by simpa using hf
    exact hr
  | cons k q ih =>
    obtain ⟨part, hpart, hrest⟩ := subtree?_cons_eq_some_iff.1 hf
    have hinner := ih hrest
    rw [List.cons_append, binder?, hpart]
    simp [hinner]

namespace Module

/-- The element stands at the end of a path in an item of the module. -/
def StandsAt (m : Module) (e : Tree) (item : Nat) (p : List Nat) : Prop :=
  ∃ t slot, m.body[item]? = some t ∧ t.subtree? (.item "body") p = some (slot, e)

/-- Around the end of a path in an item there is a function that binds the word: as a parameter, or
by a declaration inside it that the path enters the scope of. -/
def BoundInFunction (m : Module) (word : String) (item : Nat) (p : List Nat) : Prop :=
  ∃ t q r slot f, m.body[item]? = some t ∧ p = q ++ r ∧
    t.subtree? (.item "body") q = some (slot, f) ∧ f.isFunction slot ∧
    (f.binder? word slot r).isSome

/-- A word that is bound in a function does not refer to anything outside of it. -/
theorem BoundInFunction.exists_referent_eq_inner {m : Module} {word : String} {item : Nat}
    {p : List Nat} (h : m.BoundInFunction word item p) : ∃ q, m.referent word item p = .inner q := by
  obtain ⟨t, q, r, slot, f, ht, rfl, hf, -, hr⟩ := h
  exact Module.exists_referent_eq_inner ht (Tree.isSome_binder?_append hf hr)

end Module

/-- What becomes of a word in the tag of the element `e`, when the element moves from its places
behind item `i` of the module `m` to the declaration that is an item of the module `m'`. -/
structure Rescoped (m m' : Module) (i item : Nat) (e : Tree) (word : String) : Prop where
  /-- The element has been declared. -/
  declared : m'.StandsAt e item [0, 1]
  /-- It stood behind the item. -/
  moved : ∃ k p, i < k ∧ m.StandsAt e k p
  /-- The word refers to what it referred to unless a node around the element bound it. -/
  kept_iff : ∀ k p, i < k → m.StandsAt e k p →
    (m'.referent word item [0, 1] = m.referent word k p ↔ ∀ q, m.referent word k p ≠ .inner q)
  /-- It does not if it was bound in a function. -/
  lost : ∀ k p, i < k → m.StandsAt e k p → m.BoundInFunction word k p →
    m'.referent word item [0, 1] ≠ m.referent word k p

namespace Hoister

variable {h : Hoister} {m : Module} {i : Nat}

/-- The declarations stand right behind the anchor. -/
theorem getElem?_body_visitModule (hi : anchor? h.options.importSource m.body = some i) {j : Nat}
    {b : Binding} (hj : (h.bindings m i)[j]? = some b) :
    (h.visitModule m).result.body[i + 1 + j]? = some (b.declaration h.options.declarationKind) := by
  have hdeclaration : (h.declarations m i)[j]? =
      some (b.declaration h.options.declarationKind) := by
    rw [declarations, List.getElem?_map, hj]
    rfl
  have hlt : j < (h.declarations m i).length := (List.getElem?_eq_some_iff.1 hdeclaration).1
  rw [← List.getElem?_drop, drop_body_visitModule hi, List.getElem?_append_left hlt, hdeclaration]

/-- The name in the tag of an element that is bound is a word of the module. -/
theorem mem_words_of_component? {b : Binding} (hb : b ∈ h.bindings m i) {word : String}
    (hword : b.element.component? = some word) : word ∈ m.words :=
  words_subset_of_mem_bindings hb (Tree.mem_words_of_component? hword)

/-- In a declaration nothing is bound around the element. -/
theorem referent_visitModule (hi : anchor? h.options.importSource m.body = some i) {j : Nat}
    {b : Binding} (hj : (h.bindings m i)[j]? = some b) {word : String} (hword : word ∈ m.words) :
    (h.visitModule m).result.referent word (i + 1 + j) [0, 1] = m.topReferent word := by
  rw [Module.referent_of_binder?_eq_none (getElem?_body_visitModule hi hj) rfl,
    topReferent_visitModule hi hword]

theorem exists_standsAt_of_mem_bindings {b : Binding} (hb : b ∈ h.bindings m i) :
    ∃ k p, i < k ∧ m.StandsAt b.element k p := by
  obtain ⟨site, hsite, he⟩ := exists_site_of_mem_bindings hb
  obtain ⟨k, p, t, ht, hreach⟩ := Tree.exists_path_of_mem_sitesOfItems hsite
  rw [List.getElem?_drop] at ht
  rw [he] at hreach
  exact ⟨i + 1 + k, p, by omega, t, site.slot, ht, Tree.subtree?_of_reach? hreach⟩

/-- **What hoisting does to the referent of a tag.** Without an anchor nothing is hoisted. Otherwise
the name in the tag of each element that is declared keeps its referent if and only if no node
around the place that the element leaves binds the name. -/
theorem rescoped_visitModule (h : Hoister) (m : Module) :
    (anchor? h.options.importSource m.body = none → (h.visitModule m).result = m) ∧
    ∀ i, anchor? h.options.importSource m.body = some i →
      ∃ (bs : List Binding) (tail : List Tree),
        (h.visitModule m).result =
          { m with
            body := m.body.take (i + 1) ++
              bs.map (Binding.declaration h.options.declarationKind) ++ tail } ∧
        tail.length = (m.body.drop (i + 1)).length ∧
        ∀ (j : Nat) (b : Binding) (word : String), bs[j]? = some b →
          b.element.component? = some word →
          Rescoped m (h.visitModule m).result i (i + 1 + j) b.element word := by
  refine ⟨result_visitModule_of_anchor?_eq_none, fun i hi => ?_⟩
  refine ⟨h.bindings m i, h.tail m i, result_visitModule hi, h.length_tail m i, ?_⟩
  intro j b word hj hcomponent
  have hb : b ∈ h.bindings m i := List.mem_of_getElem? hj
  have hreferent := referent_visitModule hi hj (mem_words_of_component? hb hcomponent)
  constructor
  case declared => exact ⟨_, _, getElem?_body_visitModule hi hj, rfl⟩
  case moved => exact exists_standsAt_of_mem_bindings hb
  case kept_iff =>
    intro k p _ _
    rw [hreferent]
    exact Module.topReferent_eq_referent_iff
  case lost =>
    intro k p _ _ hbound
    obtain ⟨q, hq⟩ := hbound.exists_referent_eq_inner
    rw [hreferent, hq]
    exact m.topReferent_ne_inner word q

end Hoister

/-! #### A parameter as a component -/

/-- The element `<tag />` at a span. -/
def Tree.selfClosing (tag : String) (span : Span) : Tree :=
  .node ⟨.element, some span, []⟩
    [(.opening, .node ⟨.opening (.plain { value := tag }) true, some span, []⟩ [])]

/-- The arrow `(params) => value`. -/
def Tree.arrow (params : List String) (value : Tree) : Tree :=
  .node ⟨.other "ArrowFunctionExpression", none, []⟩
    (params.map (fun x => (.item "params", .mention x none)) ++ [(.single "body", value)])

/-- A module that imports the library and then declares constants. -/
def Module.constants (bs : List Binding) : Module where
  body := .node ⟨.importDeclaration { value := "react", raw := some "'react'" }, none, []⟩ [] ::
    bs.map (Binding.declaration .const)

/-- `const view = (Icon) => <Icon />;` behind the library import. -/
def Module.parameterTag : Module :=
  .constants [⟨"view", .arrow ["Icon"] (.selfClosing "Icon" ⟨56, 64⟩)⟩]

namespace Hoister

/-- A component that is a parameter is hoisted as well. -/
theorem not_forall_not_boundInFunction :
    ¬ ∀ (h : Hoister) (m : Module) (i : Nat), anchor? h.options.importSource m.body = some i →
      ∀ b ∈ h.bindings m i, ∀ word, b.element.component? = some word →
      ∀ k p, i < k → m.StandsAt b.element k p → ¬ m.BoundInFunction word k p := by
  intro hall
  obtain ⟨b, hb, he⟩ := exists_binding_of_originals (h := { options := {} }) (i := 0) (j := 0)
    (show (originals ((Module.parameterTag.sitesAfter 0).map Site.element))[0]? =
      some (.selfClosing "Icon" ⟨56, 64⟩) from rfl)
  refine hall { options := {} } Module.parameterTag 0 (by decide) b (List.mem_of_getElem? hb)
    "Icon" ?_ 1 [0, 1, 1] Nat.one_pos ?_ ?_
  · rw [he]
    decide
  · rw [he]
    exact ⟨_, _, rfl, rfl⟩
  · -- the arrow is the value of the constant
    exact ⟨_, [0, 1], [1], _, _, rfl, rfl, rfl, by decide, by decide⟩

end Hoister

/-! ### When a component is initialized -/

/-- The name is declared by `let`, `const` or `class`, exported or not, in an item behind the given
one. -/
def Module.InitializedAfter (m : Module) (item : Nat) (word : String) : Prop :=
  ∃ t ∈ m.body.drop (item + 1), word ∈ t.names .initialized

namespace Hoister

variable {h : Hoister} {m : Module} {i : Nat}

/-- Behind a declaration there are the declarations that follow it, and what the walk left. -/
theorem drop_declaration_visitModule (hi : anchor? h.options.importSource m.body = some i) {j : Nat}
    (hj : j < (h.declarations m i).length) :
    (h.visitModule m).result.body.drop (i + 1 + j + 1) =
      (h.declarations m i).drop (j + 1) ++ h.tail m i := by
  rw [Nat.add_assoc (i + 1), ← List.drop_drop, drop_body_visitModule hi,
    List.drop_append_of_le_length hj]

/-- A declaration is followed by an initialization of a word of the module if and only if the anchor
was. -/
theorem initializedAfter_iff (hi : anchor? h.options.importSource m.body = some i) {j : Nat}
    {b : Binding} (hj : (h.bindings m i)[j]? = some b) {word : String} (hword : word ∈ m.words) :
    (h.visitModule m).result.InitializedAfter (i + 1 + j) word ↔ m.InitializedAfter i word := by
  have hlt : j < (h.declarations m i).length := by
    rw [declarations, List.length_map]
    exact (List.getElem?_eq_some_iff.1 hj).1
  -- the declarations in between bind new names only, and the walk keeps what the items declare
  have hbetween : word ∉ ((h.declarations m i).drop (j + 1)).flatMap (Tree.names .initialized) := by
    intro hw
    obtain ⟨t, ht, hw⟩ := List.mem_flatMap.1 hw
    exact notMem_names_declarations hword rfl
      (List.mem_flatMap.2 ⟨t, List.mem_of_mem_drop ht, hw⟩)
  have htail := mem_names_tail (h := h) (i := i) hword .initialized
  rw [Module.InitializedAfter, Module.InitializedAfter, drop_declaration_visitModule hi hlt,
    ← List.mem_flatMap, ← List.mem_flatMap, List.flatMap_append, List.mem_append, htail,
    or_iff_right hbetween]

/-- **When the components of hoisted elements are initialized.** Without an anchor nothing is
hoisted. Otherwise the declaration of an element with a component as its tag is followed by an
initialization of the component if and only if the anchor was. -/
theorem initializedAfter_visitModule (h : Hoister) (m : Module) :
    (anchor? h.options.importSource m.body = none → (h.visitModule m).result = m) ∧
    ∀ i, anchor? h.options.importSource m.body = some i →
      ∃ (bs : List Binding) (tail : List Tree),
        (h.visitModule m).result =
          { m with
            body := m.body.take (i + 1) ++
              bs.map (Binding.declaration h.options.declarationKind) ++ tail } ∧
        tail.length = (m.body.drop (i + 1)).length ∧
        ∀ (j : Nat) (b : Binding) (word : String), bs[j]? = some b →
          b.element.component? = some word →
          ((h.visitModule m).result.InitializedAfter (i + 1 + j) word ↔
            m.InitializedAfter i word) := by
  refine ⟨result_visitModule_of_anchor?_eq_none, fun i hi => ?_⟩
  refine ⟨h.bindings m i, h.tail m i, result_visitModule hi, h.length_tail m i, ?_⟩
  intro j b word hj hcomponent
  exact initializedAfter_iff hi hj (mem_words_of_component? (List.mem_of_getElem? hj) hcomponent)

end Hoister

/-- `const Icon = () => null;` and `const view = () => <Icon />;` behind the library import. -/
def Module.constantTag : Module :=
  .constants
    [⟨"Icon", .arrow [] (.node ⟨.other "NullLiteral", none, []⟩ [])⟩,
      ⟨"view", .arrow [] (.selfClosing "Icon" ⟨70, 78⟩)⟩]

namespace Hoister

/-- An element is declared before its component if that is a constant of the module. -/
theorem not_forall_not_initializedAfter :
    ¬ ∀ (h : Hoister) (m : Module) (i : Nat), anchor? h.options.importSource m.body = some i →
      ∀ (j : Nat) (b : Binding) (word : String), (h.bindings m i)[j]? = some b →
      b.element.component? = some word →
      ¬ (h.visitModule m).result.InitializedAfter (i + 1 + j) word := by
  intro hall
  have hi : anchor? "react" Module.constantTag.body = some 0 := by decide
  obtain ⟨b, hb, he⟩ := exists_binding_of_originals (h := { options := {} }) (i := 0) (j := 0)
    (show (originals ((Module.constantTag.sitesAfter 0).map Site.element))[0]? =
      some (.selfClosing "Icon" ⟨70, 78⟩) from rfl)
  have hcomponent : b.element.component? = some "Icon" := by
    rw [he]
    decide
  refine hall { options := {} } Module.constantTag 0 hi 0 b "Icon" hb hcomponent ?_
  rw [initializedAfter_iff hi hb
    (mem_words_of_component? (List.mem_of_getElem? hb) hcomponent)]
  -- the first constant is the component
  exact ⟨_, List.mem_cons_self, by decide⟩

end Hoister

end JsxHoist
