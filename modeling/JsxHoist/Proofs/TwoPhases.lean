import JsxHoist.Proofs.ModuleWalk

/-!
# Hoisting in two phases

What becomes of a module can be said without a registry and without a supply of names: collect the
sites behind the anchor, keep the originals among their elements, declare these, and put a reference
at every site. The walk, which does all this in one pass, does nothing else
(`Hoister.visitModule_eq_two_phases`).
-/

namespace JsxHoist

namespace Hoister

variable {h : Hoister} {m : Module} {i : Nat}

/-- **One pass is two phases.** For a module with an anchor at `i`, the outcome is the items up to
the anchor, the declarations of the bindings, and the other items with a reference at each site.

* The bindings hold the originals among the elements at the sites, in the order of the sites, under
  different names. Each has a declaration with the keyword of the options, its name and its element.
* The reference at a site is an identifier that names the binding that stands for the element there.
  It has the span of the element, and is in braces among children and as the value of an
  attribute. -/
theorem visitModule_eq_two_phases (hi : anchor? h.options.importSource m.body = some i) :
    ∃ (bs : List Binding) (refs : List Tree),
      (h.visitModule m).result =
        { m with
          body := m.body.take (i + 1) ++
            bs.map (Binding.declaration h.options.declarationKind) ++
            Tree.fillItems (m.body.drop (i + 1)) refs } ∧
      bs.map Binding.element = originals ((m.sitesAfter i).map Site.element) ∧
      (bs.map Binding.name).Nodup ∧
      (∀ b ∈ bs, (b.declaration h.options.declarationKind).Declares
        h.options.declarationKind.keyword b.name b.element) ∧
      refs.length = (m.sitesAfter i).length ∧
      ∀ k site, (m.sitesAfter i)[k]? = some site → ∃ (b : Binding) (ref : Tree),
        standIn? bs (((m.sitesAfter i).take k).map Site.element) site.element = some b ∧
        ref.Mentions b.name site.element.span ∧
        refs[k]? = some
          (if site.slot.Embedded then ref.inBraces site.element.span else ref) := by
  refine ⟨h.bindings m i, Tree.references (h.moduleScope m) (m.sitesAfter i), ?_,
    h.elements_bindings m i, h.nodup_names_bindings m i,
    fun b _ => b.declares_declaration h.options.declarationKind, Tree.length_references _ _, ?_⟩
  · rw [result_visitModule hi, tail, walk_eq]
    rfl
  · intro k site hk
    obtain ⟨b, hb, href⟩ := exists_standIn?_of_site (h := h) hk
    refine ⟨b, Tree.mention b.name site.element.span, hb, Tree.mentions_iff.2 rfl, ?_⟩
    rw [href, Site.reference, Slot.reference_eq]

/-- In the sample, the copy shares a binding, and the line breaks without a place do not. -/
theorem visitModule_eq_two_phases_sample :
    anchor? "react" Module.sample.body = some 0 ∧ ∃ (bs : List Binding) (refs : List Tree),
      (({ options := {} } : Hoister).visitModule Module.sample).result =
        { Module.sample with
          body := Module.sample.body.take 1 ++ bs.map (Binding.declaration .var) ++
            Tree.fillItems (Module.sample.body.drop 1) refs } ∧
      bs.map Binding.element =
        [.lineBreak ⟨10, 16⟩, .lineBreak .zero, .lineBreak .zero] ∧
      (∀ b ∈ bs, (b.declaration .var).Declares "var" b.name b.element) ∧
      ∃ (b : Binding) (ref : Tree), bs[1]? = some b ∧ ref.Mentions b.name (some .zero) ∧
        refs[2]? = some (ref.inBraces (some .zero)) := by
  obtain ⟨bs, refs, hresult, helements, -, hdeclares, -, hrefs⟩ :=
    visitModule_eq_two_phases (h := { options := {} }) anchor?_sample
  rw [Module.sitesAfter_sample] at helements hrefs
  obtain ⟨b, ref, hb, hmentions, href⟩ := hrefs 2 _ rfl
  exact ⟨anchor?_sample, bs, refs, hresult, helements.trans rfl, hdeclares, b, ref, hb, hmentions,
    href⟩

end Hoister

end JsxHoist
