import JsxHoist.Hoister
import JsxHoist.Proofs.FreshNames
import JsxHoist.Proofs.Paths

/-!
# The walk over a module

A module with an anchor is cut behind it. The items up to the anchor stay, the walk goes over the
others (`Hoister.walk`), and the declarations of the bindings that it made come in between
(`Hoister.visitModule_of_anchor?`). The walk starts in a scope of its own, so that all that is known
of binding a list of elements holds of the sites behind the anchor: the bindings record the sites
(`Hoister.records_walk`), and their names are fresh for the whole module (`Hoister.hygienic_walk`).
-/

namespace JsxHoist

/-- The name that a declaration of a single variable declares, with its initial value. -/
def Tree.declared? : Tree → Option Binding
  | .node ⟨.other "VariableDeclaration", _, _⟩
      [(_, .node ⟨.other "VariableDeclarator", _, _⟩
        [(_, .node ⟨.identifier name, _, _⟩ _), (_, init)])] => some ⟨name, init⟩
  | _ => none

@[simp]
theorem Binding.declared?_declaration (kind : DeclarationKind) (b : Binding) :
    (b.declaration kind).declared? = some b := rfl

/-- The sites behind an item of a module. -/
def Module.sitesAfter (m : Module) (i : Nat) : List Site :=
  Tree.sitesOfItems (m.body.drop (i + 1))

theorem Module.words_subset {m : Module} {t : Tree} (ht : t ∈ m.body) : t.words ⊆ m.words :=
  fun _ hw => List.mem_flatMap.2 ⟨t, ht, hw⟩

/-- The module uses every word that an element at a site uses. -/
theorem Module.words_subset_of_mem_sitesAfter {m : Module} {i : Nat} {site : Site}
    (h : site ∈ m.sitesAfter i) : site.element.words ⊆ m.words := by
  obtain ⟨k, p, t, ht, hreach⟩ := Tree.exists_path_of_mem_sitesOfItems h
  have htm : t ∈ m.body := List.mem_of_mem_drop (List.mem_of_getElem? ht)
  exact List.Subset.trans (Tree.words_subset_of_subtree? (Tree.subtree?_of_reach? hreach))
    (Module.words_subset htm)

theorem length_take_of_anchor? {source : String} {items : List Tree} {i : Nat}
    (hi : anchor? source items = some i) : (items.take (i + 1)).length = i + 1 := by
  have hlt : i < items.length := (List.findIdx?_eq_some_iff_findIdx_eq.1 hi).1
  rw [List.length_take]
  omega

/-- The first items of a list decide on the anchor. -/
theorem anchor?_take_append {source : String} {items : List Tree} {i : Nat}
    (hi : anchor? source items = some i) (rest : List Tree) :
    anchor? source (items.take (i + 1) ++ rest) = some i := by
  have htake : anchor? source (items.take (i + 1)) = some i := by
    rw [anchor?] at hi ⊢
    rw [List.findIdx?_take, hi]
    simp
  rw [anchor?, List.findIdx?_append]
  rw [anchor?] at htake
  rw [htake]
  rfl

namespace Hoister

variable (h : Hoister) (m : Module) (i : Nat)

/-- The walk over the items behind an item of a module: what it leaves of them, and the scope that
it ends in. -/
def walk : List Tree × Scope :=
  Tree.hoistItems (m.body.drop (i + 1)) (h.moduleScope m)

/-- What the walk leaves of the items. -/
def tail : List Tree :=
  (h.walk m i).1

/-- The bindings that the walk makes. -/
def bindings : List Binding :=
  (h.walk m i).2.registry.bindings.toList

/-- The declarations of the bindings that the walk makes. -/
def declarations : List Tree :=
  (h.bindings m i).map (Binding.declaration h.options.declarationKind)

/-- **The visit to a module with an anchor**: the declarations go between the items up to the anchor
and what the walk leaves of the others, the report is on the bindings, and these are forgotten. -/
theorem visitModule_of_anchor? {h : Hoister} {m : Module} {i : Nat}
    (hi : anchor? h.options.importSource m.body = some i) :
    h.visitModule m =
      { result := { m with body := m.body.take (i + 1) ++ h.declarations m i ++ h.tail m i }
        events := if h.options.verbose then h.report m.span (h.bindings m i) else []
        hoister := { h with scope := { (h.walk m i).2 with registry := {} } } } := by
  rw [visitModule, visitModuleBy, hi]
  rfl

theorem visitModule_of_anchor?_eq_none {h : Hoister} {m : Module}
    (hi : anchor? h.options.importSource m.body = none) :
    h.visitModule m = ⟨m, [.importMissing h.options.importSource], h⟩ := by
  rw [visitModule, visitModuleBy, hi]

theorem result_visitModule {h : Hoister} {m : Module} {i : Nat}
    (hi : anchor? h.options.importSource m.body = some i) :
    (h.visitModule m).result =
      { m with body := m.body.take (i + 1) ++ h.declarations m i ++ h.tail m i } := by
  rw [visitModule_of_anchor? hi]

theorem result_visitModule_of_anchor?_eq_none {h : Hoister} {m : Module}
    (hi : anchor? h.options.importSource m.body = none) : (h.visitModule m).result = m := by
  rw [visitModule_of_anchor?_eq_none hi]

/-- Behind the anchor, the outcome has the declarations and what the walk left. -/
theorem drop_body_visitModule {h : Hoister} {m : Module} {i : Nat}
    (hi : anchor? h.options.importSource m.body = some i) :
    (h.visitModule m).result.body.drop (i + 1) = h.declarations m i ++ h.tail m i := by
  rw [result_visitModule hi, List.append_assoc]
  exact List.drop_left' (length_take_of_anchor? hi)

theorem take_body_visitModule {h : Hoister} {m : Module} {i : Nat}
    (hi : anchor? h.options.importSource m.body = some i) :
    (h.visitModule m).result.body.take (i + 1) = m.body.take (i + 1) := by
  rw [result_visitModule hi, List.append_assoc]
  exact List.take_left' (length_take_of_anchor? hi)

/-- The bindings can be read off their declarations. -/
@[simp]
theorem filterMap_declared?_declarations :
    (h.declarations m i).filterMap Tree.declared? = h.bindings m i := by
  simp [declarations, List.filterMap_map, Function.comp_def]

theorem walk_eq :
    h.walk m i =
      (Tree.fillItems (m.body.drop (i + 1)) (Tree.references (h.moduleScope m) (m.sitesAfter i)),
        ((h.moduleScope m).bindAll ((m.sitesAfter i).map Site.element)).2) :=
  Tree.hoistItems_eq_fillItems _ _

@[simp]
theorem length_tail : (h.tail m i).length = (m.body.drop (i + 1)).length :=
  Tree.length_hoistItems _ _

/-- The bindings record the elements at the sites. -/
theorem records_walk :
    (h.walk m i).2.registry.Records ((m.sitesAfter i).map Site.element) := by
  rw [walk_eq]
  exact Scope.records_bindAll (s := h.moduleScope m) Registry.records_empty _

/-- The names of the bindings are fresh for the module. -/
theorem hygienic_walk : (h.walk m i).2.Hygienic m.words := by
  rw [walk_eq]
  exact (Scope.hygienic_of_bindings_eq_empty (s := h.moduleScope m) rfl).bindAll _

theorem elements_bindings :
    (h.bindings m i).map Binding.element = originals ((m.sitesAfter i).map Site.element) :=
  (h.records_walk m i).elements

/-- The bindings hold the originals among the elements at the sites, in the same order. -/
theorem exists_binding_of_originals {h : Hoister} {m : Module} {i j : Nat} {e : Tree}
    (he : (originals ((m.sitesAfter i).map Site.element))[j]? = some e) :
    ∃ b, (h.bindings m i)[j]? = some b ∧ b.element = e := by
  rw [← h.elements_bindings, List.getElem?_map] at he
  exact Option.map_eq_some_iff.1 he

theorem nodup_names_bindings : ((h.bindings m i).map Binding.name).Nodup :=
  (h.hygienic_walk m i).nodup

variable {h m i}

theorem name_notMem_words {b : Binding} (hb : b ∈ h.bindings m i) : b.name ∉ m.words :=
  (h.hygienic_walk m i).fresh _ (List.mem_map_of_mem hb)

/-- Every binding holds the element at some site. -/
theorem exists_site_of_mem_bindings {b : Binding} (hb : b ∈ h.bindings m i) :
    ∃ site ∈ m.sitesAfter i, site.element = b.element := by
  have hmem : b.element ∈ originals ((m.sitesAfter i).map Site.element) :=
    h.elements_bindings m i ▸ List.mem_map_of_mem hb
  exact List.mem_map.1 (mem_of_mem_originals hmem)

theorem isConstantElement_of_mem_bindings {b : Binding} (hb : b ∈ h.bindings m i) :
    b.element.isConstantElement := by
  obtain ⟨site, hsite, he⟩ := exists_site_of_mem_bindings hb
  exact he ▸ Tree.isConstantElement_of_mem_sitesOfParts hsite

/-- The elements that are bound use words of the module only. -/
theorem words_subset_of_mem_bindings {b : Binding} (hb : b ∈ h.bindings m i) :
    b.element.words ⊆ m.words := by
  obtain ⟨site, hsite, he⟩ := exists_site_of_mem_bindings hb
  rw [← he]
  exact Module.words_subset_of_mem_sitesAfter hsite

/-- At every site the walk leaves a reference to the stand-in for the element. -/
theorem exists_standIn?_of_site {k : Nat} {site : Site} (hk : (m.sitesAfter i)[k]? = some site) :
    ∃ b, standIn? (h.bindings m i) (((m.sitesAfter i).take k).map Site.element) site.element =
        some b ∧
      (Tree.references (h.moduleScope m) (m.sitesAfter i))[k]? = some (site.reference b.name) := by
  have he : ((m.sitesAfter i).map Site.element)[k]? = some site.element := by simp [hk]
  obtain ⟨name, hname⟩ : ∃ name,
      ((h.moduleScope m).bindAll ((m.sitesAfter i).map Site.element)).1[k]? = some name := by
    have hlt := (List.getElem?_eq_some_iff.1 he).1
    exact ⟨_, List.getElem?_eq_getElem (by simpa using hlt)⟩
  obtain ⟨b, hb, rfl⟩ :=
    Scope.exists_standIn?_of_bindAll (s := h.moduleScope m) Registry.records_empty he hname
  refine ⟨b, ?_, ?_⟩
  · rw [bindings, walk_eq, List.map_take]
    exact hb
  · rw [Tree.references, List.getElem?_zipWith, hk, hname]

/-- **Every use of a bound name behind the anchor is a reference** that the walk put in place of a
site: the name itself, bare or in braces. -/
theorem exists_replacedAt_of_mem_words {k : Nat} {t' u : Tree} {p : List Nat} {slot : Slot}
    {b : Binding} (hb : b ∈ h.bindings m i) (ht' : (h.tail m i)[k]? = some t')
    (hu : t'.subtree? (.item "body") p = some (slot, u)) (hw : b.name ∈ u.label.kind.words) :
    ∃ t q site, (m.body.drop (i + 1))[k]? = some t ∧
      t.ReplacedAt t' (.item "body") q site b.name ∧
      u = Tree.mention b.name site.element.span ∧ (p = q ∨ p = q ++ [0]) := by
  obtain ⟨t, ht, hcases⟩ := Tree.subtree?_hoistItems ht' hu
  rcases hcases with ⟨e, before, hreach, hce, -, rfl⟩ | ⟨q, r, site, name, rfl, hrep, href⟩
  · -- a node that the walk entered has its own words, and these are no names
    rw [Tree.label_hoist hce] at hw
    have hmem : b.name ∈ t.words :=
      Tree.words_subset_of_subtree? (Tree.subtree?_of_reach? hreach) (e.kind_words_subset hw)
    have htm : t ∈ m.body := List.mem_of_mem_drop (List.mem_of_getElem? ht)
    exact absurd (Module.words_subset htm hmem) (name_notMem_words hb)
  · rcases Tree.subtree?_reference href with ⟨rfl, hr⟩ | hcontainer
    · obtain rfl : b.name = name := List.mem_singleton.1 hw
      refine ⟨t, q, site, ht, hrep, rfl, hr.imp ?_ ?_⟩
      · rintro rfl
        exact List.append_nil q
      · rintro rfl
        rfl
    · rw [hcontainer] at hw
      exact absurd hw List.not_mem_nil

end Hoister

/-! ### A module with all kinds of sites -/

/-- The element `<br />` at a span. -/
def Tree.lineBreak (span : Span) : Tree :=
  .node ⟨.element, some span, []⟩
    [(.opening, .node ⟨.opening (.plain { value := "br" }) true, some span, []⟩ [])]

/-- A library import, and an element with a line break as the value of an attribute, a copy of it
and two line breaks without a place in the source among its children, and a use of the first name
that would be handed out. -/
def Module.sample : Module where
  body :=
    [.node ⟨.importDeclaration { value := "react", raw := some "'react'" }, none, []⟩ [],
      .node ⟨.expressionStatement, none, []⟩
        [(.single "expression", .node ⟨.element, none, []⟩
          [(.opening, .node ⟨.opening (.plain { value := "p" }) false, none, []⟩
            [(.attr, .node ⟨.attr (.plain { value := "icon" }), none, []⟩
              [(.attrValue, .lineBreak ⟨10, 16⟩)])]),
          (.child, .lineBreak ⟨10, 16⟩),
          (.child, .lineBreak .zero),
          (.child, .lineBreak .zero),
          (.child, (Tree.mention "hoisted_constant_element_1" none).inBraces none),
          (.single "closing", .node ⟨.closing (.plain { value := "p" }), none, []⟩ [])])]]

theorem Module.sitesAfter_sample :
    Module.sample.sitesAfter 0 =
      [⟨.attrValue, .lineBreak ⟨10, 16⟩⟩, ⟨.child, .lineBreak ⟨10, 16⟩⟩,
        ⟨.child, .lineBreak .zero⟩, ⟨.child, .lineBreak .zero⟩] := rfl

theorem anchor?_sample : anchor? "react" Module.sample.body = some 0 := by
  decide

end JsxHoist
