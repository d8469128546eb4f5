import JsxHoist.Proofs.ModuleWalk
import Mathlib.Data.List.Nodup

/-!
# Inlining undoes hoisting

`Tree.inline` replaces every use of a bound name by what is bound to it. Inlining the declarations
of a hoisted module gives its items back, up to braces around elements: an element among children or
as the value of an attribute comes back in braces, which `Tree.normalize` takes off.

The argument is about filling alone (`Tree.normalize_inline_fill`): if each of the trees that take
the places of the sites is worth the element there, and no word of the tree is bound, then the
filled tree is worth the tree. That the references are worth the elements (`Site.Restores`) comes
from the stand-ins: each has an element equal to that of its site, as far as spans tell nodes apart.
-/

namespace JsxHoist

/-! ### Inlining -/

/-- The binding that a node uses. -/
def Kind.bound? (bs : List Binding) : Kind → Option Binding
  | .identifier value => bs.find? fun b => b.name = value
  | _ => none

theorem Kind.bound?_eq_none {bs : List Binding} {k : Kind} (h : ∀ b ∈ bs, b.name ∉ k.words) :
    k.bound? bs = none := by
  cases k with
  | identifier value =>
    rw [Kind.bound?, List.find?_eq_none]
    intro b hb heq
    exact h b hb (List.mem_singleton.2 (of_decide_eq_true heq))
  | _ => rfl

namespace Tree

mutual

/-- The tree with every use of a bound name replaced by what is bound to it. -/
def inline (bs : List Binding) : Tree → Tree
  | node l ps =>
    match l.kind.bound? bs with
    | some b => b.element
    | none => node l (inlineParts bs ps)

/-- The parts with every use of a bound name replaced by what is bound to it. -/
def inlineParts (bs : List Binding) : List (Slot × Tree) → List (Slot × Tree)
  | [] => []
  | (slot, t) :: ps => (slot, t.inline bs) :: inlineParts bs ps

end

theorem inline_node {bs : List Binding} {l : Label} (h : l.kind.bound? bs = none)
    (ps : List (Slot × Tree)) : (node l ps).inline bs = node l (inlineParts bs ps) := by
  rw [inline, h]

theorem inline_mention {bs : List Binding} {name : String} {b : Binding}
    (h : bs.find? (fun b => b.name = name) = some b) (span : Option Span) :
    (mention name span).inline bs = b.element := by
  rw [mention, inline]
  simp only [Kind.bound?, h]

theorem inline_inBraces (bs : List Binding) (t : Tree) (span : Option Span) :
    (t.inBraces span).inline bs = (t.inline bs).inBraces span := rfl

/-! ### Normal forms -/

/-- The tree without the braces around it, if it stands where these can be left out: around an
element among children or as the value of an attribute. -/
def unbrace (slot : Slot) : Tree → Tree
  | node ⟨.container, span, data⟩ [(inner, e)] =>
    if slot.Embedded ∧ e.isElement then e else node ⟨.container, span, data⟩ [(inner, e)]
  | t => t

theorem unbrace_of_isElement {t : Tree} (h : t.isElement) (slot : Slot) : t.unbrace slot = t := by
  unfold unbrace
  split
  · simp [isElement, label] at h
  · rfl

theorem unbrace_inBraces {slot : Slot} {t : Tree} (hslot : slot.Embedded) (ht : t.isElement)
    (span : Option Span) : (t.inBraces span).unbrace slot = t :=
  if_pos ⟨hslot, ht⟩

mutual

/-- The tree with no braces left around elements among children or as the values of attributes. -/
def normalize (slot : Slot) : Tree → Tree
  | node l ps => (node l (normalizeParts ps)).unbrace slot

/-- The parts with no such braces left. -/
def normalizeParts : List (Slot × Tree) → List (Slot × Tree)
  | [] => []
  | (slot, t) :: ps => (slot, t.normalize slot) :: normalizeParts ps

end

/-- An element stays an element, whatever slot it stands in. -/
theorem normalize_of_isElement {l : Label} {ps : List (Slot × Tree)} (h : (node l ps).isElement)
    (slot : Slot) : (node l ps).normalize slot = node l (normalizeParts ps) := by
  have hparts : (node l (normalizeParts ps)).isElement := h
  rw [normalize, unbrace_of_isElement hparts]

theorem normalize_inBraces {slot : Slot} {t : Tree} (hslot : slot.Embedded) (ht : t.isElement)
    (span : Option Span) : (t.inBraces span).normalize slot = t.normalize slot := by
  obtain ⟨l, ps⟩ := t
  have hinner : ((node l ps).inBraces span).normalize slot =
      ((node l (normalizeParts ps)).inBraces span).unbrace slot := by
    rw [← normalize_of_isElement ht (.single "expression")]
    rfl
  have hparts : (node l (normalizeParts ps)).isElement := ht
  rw [hinner, unbrace_inBraces hslot hparts, normalize_of_isElement ht]

end Tree

/-! ### What references are worth -/

/-- A tree **restores** a site when inlining makes it the element at the site, up to braces. -/
def Site.Restores (bs : List Binding) (site : Site) (u : Tree) : Prop :=
  (u.inline bs).normalize site.slot = site.element.normalize site.slot

/-- A reference restores a site at which the element is the one that is bound. -/
theorem Site.restores_reference {bs : List Binding} {site : Site} {b : Binding}
    (hsite : site.element.isConstantElement) (hb : b.element = site.element)
    (hfind : bs.find? (fun c => c.name = b.name) = some b) :
    site.Restores bs (site.reference b.name) := by
  have helem : b.element.isElement := hb ▸ Tree.isElement_of_isConstantElement hsite
  rw [Site.Restores, Site.reference, Slot.reference_eq]
  split
  · next hslot =>
    rw [Tree.inline_inBraces, Tree.inline_mention hfind, Tree.normalize_inBraces hslot helem, hb]
  · rw [Tree.inline_mention hfind, hb]

/-- Of several bindings with different names, each is found by its name. -/
theorem find?_name_of_mem {bs : List Binding} (hnodup : (bs.map Binding.name).Nodup)
    {b : Binding} (hb : b ∈ bs) : bs.find? (fun c => c.name = b.name) = some b := by
  obtain ⟨c, hc⟩ : ∃ c, bs.find? (fun c => c.name = b.name) = some c := by
    rw [← Option.isSome_iff_exists, List.find?_isSome]
    exact ⟨b, hb, decide_eq_true rfl⟩
  have hname : c.name = b.name := by simpa using List.find?_some hc
  rw [hc, List.inj_on_of_nodup_map hnodup (List.mem_of_find?_eq_some hc) hb hname]

namespace Tree

mutual

/-- **Filling sites by what restores them** gives a tree that is worth the tree itself, if no word
of it is bound. -/
theorem normalize_inline_fill {bs : List Binding} {slot : Slot} :
    ∀ {t : Tree} {us : List Tree}, us.length = (t.sites slot).length →
      (∀ x ∈ (t.sites slot).zip us, x.1.Restores bs x.2) →
      (∀ b ∈ bs, b.name ∉ t.words) →
      ((t.fill us).inline bs).normalize slot = t.normalize slot
  | node l ps, us, hlen, hres, hfresh => by
    by_cases hc : (node l ps).isConstantElement
    · rw [sites_of_isConstantElement hc] at hlen hres
      obtain ⟨u, rfl⟩ := List.length_eq_one_iff.1 hlen
      rw [fill_of_isConstantElement hc]
      exact hres (⟨slot, node l ps⟩, u) List.mem_cons_self
    · rw [sites_node hc] at hlen hres
      -- the node itself is no use of a bound name, so that inlining goes on to its parts
      simp only [words, List.mem_append, not_or] at hfresh
      have hkind : l.kind.bound? bs = none := Kind.bound?_eq_none fun b hb => (hfresh b hb).1
      rw [fill_node hc, inline_node hkind, normalize, normalize,
        normalizeParts_inlineParts_fillParts hlen hres fun b hb => (hfresh b hb).2]

/-- The same for the parts of a tree. -/
theorem normalizeParts_inlineParts_fillParts {bs : List Binding} :
    ∀ {ps : List (Slot × Tree)} {us : List Tree}, us.length = (sitesOfParts ps).length →
      (∀ x ∈ (sitesOfParts ps).zip us, x.1.Restores bs x.2) →
      (∀ b ∈ bs, b.name ∉ wordsOfParts ps) →
      normalizeParts (inlineParts bs (fillParts ps us)) = normalizeParts ps
  | [], _, _, _, _ => rfl
  | (slot, t) :: ps, us, hlen, hres, hfresh => by
    obtain ⟨vs, ws, rfl, hvs, hws⟩ := exists_split_of_length_eq hlen
    rw [sitesOfParts_cons, List.zip_append hvs.symm] at hres
    simp only [List.mem_append] at hres
    simp only [wordsOfParts, List.mem_append, not_or] at hfresh
    rw [fillParts_cons hvs, inlineParts, normalizeParts, normalizeParts,
      normalize_inline_fill hvs (fun x hx => hres x (Or.inl hx)) fun b hb => (hfresh b hb).1,
      normalizeParts_inlineParts_fillParts hws (fun x hx => hres x (Or.inr hx))
        fun b hb => (hfresh b hb).2]

end

theorem inlineParts_body (bs : List Binding) (items : List Tree) :
    inlineParts bs (body items) = body (items.map (inline bs)) := by
  induction items with
  | nil => rfl
  | cons t ts ih => exact congrArg _ ih

theorem normalizeParts_body (items : List Tree) :
    normalizeParts (body items) = body (items.map (normalize (.item "body"))) := by
  induction items with
  | nil => rfl
  | cons t ts ih => exact congrArg _ ih

end Tree

/-! ### Modules -/

/-- **Copies agree** behind an item of a module when elements at sites there that have the same span
are equal, unless the span is dummy. The identity of nodes by their spans rests on nothing else. -/
def Module.CopiesAgree (m : Module) (i : Nat) : Prop :=
  ∀ s₁ ∈ m.sitesAfter i, ∀ s₂ ∈ m.sitesAfter i, ∀ span : Span, ¬ span.IsDummy →
    s₁.element.span = some span → s₂.element.span = some span → s₁.element = s₂.element

namespace Hoister

variable {h : Hoister} {m : Module} {i : Nat}

/-- What the walk leaves at the sites restores them. -/
theorem restores_of_mem_zip_references (hcopies : m.CopiesAgree i) {site : Site} {u : Tree}
    (hmem : (site, u) ∈
      (m.sitesAfter i).zip (Tree.references (h.moduleScope m) (m.sitesAfter i))) :
    site.Restores (h.bindings m i) u := by
  obtain ⟨k, hk⟩ := List.mem_iff_getElem?.1 hmem
  obtain ⟨hsite, href⟩ := List.getElem?_zip_eq_some.1 hk
  obtain ⟨b, hb, href'⟩ := exists_standIn?_of_site (h := h) hsite
  have hequal : ∀ e ∈ (m.sitesAfter i).map Site.element,
      ∀ f ∈ (m.sitesAfter i).map Site.element,
      ∀ id, e.identity? = some id → f.identity? = some id → e = f := by
    intro e he f hf id heid hfid
    obtain ⟨s₁, hs₁, rfl⟩ := List.mem_map.1 he
    obtain ⟨s₂, hs₂, rfl⟩ := List.mem_map.1 hf
    rw [Tree.identity?_eq_some_iff] at heid hfid
    exact hcopies s₁ hs₁ s₂ hs₂ id heid.2 heid.1 hfid.1
  have helem : b.element = site.element := by
    rw [List.map_take] at hb
    exact element_eq_of_standIn? (h.elements_bindings m i) hequal (by simp [hsite]) hb
  obtain rfl : u = site.reference b.name := Option.some.inj (href.symm.trans href')
  refine Site.restores_reference ?_ helem
    (find?_name_of_mem (h.nodup_names_bindings m i) (mem_of_standIn? hb))
  exact Tree.isConstantElement_of_mem_sitesOfParts (List.mem_of_getElem? hsite)

/-- The items behind the anchor come back by inlining, up to braces around elements. -/
theorem map_normalize_inline_tail (hcopies : m.CopiesAgree i) :
    (h.tail m i).map (fun t => (t.inline (h.bindings m i)).normalize (.item "body")) =
      (m.body.drop (i + 1)).map (Tree.normalize (.item "body")) := by
  have hfresh : ∀ b ∈ h.bindings m i,
      b.name ∉ Tree.wordsOfParts (Tree.body (m.body.drop (i + 1))) := by
    intro b hb hw
    rw [Tree.wordsOfParts_eq_flatMap, Tree.body, List.flatMap_map, List.mem_flatMap] at hw
    obtain ⟨t, ht, hw⟩ := hw
    exact name_notMem_words hb (Module.words_subset (List.mem_of_mem_drop ht) hw)
  have hfill : Tree.fillParts (Tree.body (m.body.drop (i + 1)))
      (Tree.references (h.moduleScope m) (m.sitesAfter i)) = Tree.body (h.tail m i) := by
    have hwalk := Tree.hoistParts_body (m.body.drop (i + 1)) (h.moduleScope m)
    rw [Tree.hoistParts_eq_fillParts] at hwalk
    exact (Prod.mk.inj hwalk).1
  have hparts : Tree.normalizeParts (Tree.inlineParts (h.bindings m i) (Tree.body (h.tail m i))) =
      Tree.normalizeParts (Tree.body (m.body.drop (i + 1))) := by
    rw [← hfill]
    exact Tree.normalizeParts_inlineParts_fillParts (Tree.length_references _ _)
      (fun x hx => restores_of_mem_zip_references hcopies hx) hfresh
  rw [Tree.inlineParts_body, Tree.normalizeParts_body, Tree.normalizeParts_body,
    List.map_map] at hparts
  have hitems := congrArg (List.map Prod.snd) hparts
  rw [Tree.map_snd_body, Tree.map_snd_body] at hitems
  exact hitems

/-- **Inlining undoes hoisting.** A module with an anchor at `i` becomes the same module with
declarations inserted behind the anchor and the items after it rewritten; if copies agree, inlining
the declarations in these gives the items back, up to braces around elements. Inlining leaves out no
use of a declared name: each is an identifier of its own. -/
theorem normalize_inline_visitModule (hi : anchor? h.options.importSource m.body = some i)
    (hcopies : m.CopiesAgree i) :
    ∃ ds tail : List Tree,
      (h.visitModule m).result = { m with body := m.body.take (i + 1) ++ ds ++ tail } ∧
      (∀ d ∈ ds, d.declared?.isSome) ∧
      tail.map (fun t => (t.inline (ds.filterMap Tree.declared?)).normalize (.item "body")) =
        (m.body.drop (i + 1)).map (Tree.normalize (.item "body")) ∧
      ∀ t ∈ tail, ∀ p slot u, t.subtree? (.item "body") p = some (slot, u) →
        ∀ b ∈ ds.filterMap Tree.declared?, b.name ∈ u.label.kind.words →
          u.label.kind = .identifier b.name := by
  refine ⟨h.declarations m i, h.tail m i, result_visitModule hi, ?_, ?_, ?_⟩
  · intro d hd
    obtain ⟨b, -, rfl⟩ := List.mem_map.1 hd
    rw [Binding.declared?_declaration, Option.isSome_some]
  · rw [filterMap_declared?_declarations]
    exact map_normalize_inline_tail hcopies
  · intro t ht p slot u hu b hb hw
    rw [filterMap_declared?_declarations] at hb
    obtain ⟨k, hk⟩ := List.mem_iff_getElem?.1 ht
    obtain ⟨-, -, site, -, -, rfl, -⟩ := exists_replacedAt_of_mem_words hb hk hu hw
    rfl

/-- The line breaks of the sample come back, the copies and those without a place alike. -/
theorem normalize_inline_visitModule_sample :
    Module.sample.CopiesAgree 0 ∧ ∃ ds tail : List Tree,
      (({ options := {} } : Hoister).visitModule Module.sample).result =
        { Module.sample with body := Module.sample.body.take 1 ++ ds ++ tail } ∧
      tail.map (fun t => (t.inline (ds.filterMap Tree.declared?)).normalize (.item "body")) =
        (Module.sample.body.drop 1).map (Tree.normalize (.item "body")) := by
  have hcopies : Module.sample.CopiesAgree 0 := by
    intro s₁ h₁ s₂ h₂ span hd hs₁ hs₂
    rw [Module.sitesAfter_sample] at h₁ h₂
    simp only [List.mem_cons, List.not_mem_nil, or_false] at h₁ h₂
    rcases h₁ with rfl | rfl | rfl | rfl <;> rcases h₂ with rfl | rfl | rfl | rfl <;>
      simp_all [Tree.lineBreak, Tree.span, Tree.label]
  obtain ⟨ds, tail, hresult, -, hinline, -⟩ :=
    normalize_inline_visitModule (h := { options := {} }) anchor?_sample hcopies
  exact ⟨hcopies, ds, tail, hresult, hinline⟩

end Hoister

end JsxHoist
