import JsxHoist.Proofs.Sites

/-!
# Paths in hoisted trees

A path leads from the root of a tree to one of its nodes: it lists which part to enter, again and
again. `Tree.subtree?` is the node at the end of a path, and `Tree.reach?` only follows paths that a
walk takes, which enter no constant element.

* `Tree.subtree?_hoist` says what a path of a hoisted tree can lead to: to what the walk made of the
  node at the end of the same path, or into a reference that the walk put in place of a site.
* `Tree.exists_path_of_mem_zip`: every site has a path, and the tree that takes its place is found
  at the end of it.
-/

namespace JsxHoist

namespace Tree

/-! ### Following a path -/

/-- The node at the end of a path, with the slot that it stands in. -/
def subtree? (slot : Slot) (t : Tree) : List Nat → Option (Slot × Tree)
  | [] => some (slot, t)
  | k :: p => t.parts[k]?.bind fun q => q.2.subtree? q.1 p

/-- The node at the end of a path that enters no constant element. -/
def reach? (slot : Slot) (t : Tree) : List Nat → Option (Slot × Tree)
  | [] => some (slot, t)
  | k :: p => if t.isConstantElement then none else t.parts[k]?.bind fun q => q.2.reach? q.1 p

@[simp]
theorem subtree?_nil (slot : Slot) (t : Tree) : t.subtree? slot [] = some (slot, t) := rfl

@[simp]
theorem reach?_nil (slot : Slot) (t : Tree) : t.reach? slot [] = some (slot, t) := rfl

theorem subtree?_cons_eq_some_iff {slot : Slot} {t : Tree} {k : Nat} {p : List Nat}
    {x : Slot × Tree} :
    t.subtree? slot (k :: p) = some x ↔
      ∃ q, t.parts[k]? = some q ∧ q.2.subtree? q.1 p = some x := by
  rw [subtree?, Option.bind_eq_some_iff]

theorem reach?_cons_eq_some_iff {slot : Slot} {t : Tree} {k : Nat} {p : List Nat}
    {x : Slot × Tree} :
    t.reach? slot (k :: p) = some x ↔
      ¬ t.isConstantElement ∧ ∃ q, t.parts[k]? = some q ∧ q.2.reach? q.1 p = some x := by
  rw [reach?]
  split
  · simp_all
  · simp_all [Option.bind_eq_some_iff]

theorem subtree?_of_reach? {slot : Slot} {t : Tree} {p : List Nat} {x : Slot × Tree}
    (h : t.reach? slot p = some x) : t.subtree? slot p = some x := by
  induction p generalizing slot t with
  | nil => exact h
  | cons k p ih =>
    obtain ⟨-, q, hq, hx⟩ := reach?_cons_eq_some_iff.1 h
    exact subtree?_cons_eq_some_iff.2 ⟨q, hq, ih hx⟩

/-- A tree uses every word that a node of it uses. -/
theorem words_subset_of_subtree? {slot slot' : Slot} {t u : Tree} {p : List Nat}
    (h : t.subtree? slot p = some (slot', u)) : u.words ⊆ t.words := by
  induction p generalizing slot t with
  | nil =>
    obtain ⟨rfl, rfl⟩ : slot = slot' ∧ t = u := by simpa using h
    exact List.Subset.refl _
  | cons k p ih =>
    obtain ⟨q, hq, hu⟩ := subtree?_cons_eq_some_iff.1 h
    obtain ⟨l, ps⟩ := t
    intro w hw
    rw [words, wordsOfParts_eq_flatMap]
    exact List.mem_append_right _ (List.mem_flatMap.2 ⟨q, List.mem_of_getElem? hq, ih hu hw⟩)

theorem kind_words_subset (t : Tree) : t.label.kind.words ⊆ t.words := by
  obtain ⟨l, ps⟩ := t
  rw [words]
  exact List.subset_append_left _ _

/-! ### References -/

/-- At the end of a path, the walk over the first tree reaches a site, and the second tree has a
reference to the name there. -/
def ReplacedAt (t t' : Tree) (slot : Slot) (p : List Nat) (site : Site) (name : String) : Prop :=
  t.reach? slot p = some (site.slot, site.element) ∧ site.element.isConstantElement ∧
    t'.subtree? slot p = some (site.slot, site.reference name)

theorem ReplacedAt.cons {t t' u u' : Tree} {slot slot' : Slot} {k : Nat} {p : List Nat}
    {site : Site} {name : String} (ht : ¬ t.isConstantElement)
    (hu : t.parts[k]? = some (slot', u)) (hu' : t'.parts[k]? = some (slot', u'))
    (h : u.ReplacedAt u' slot' p site name) : t.ReplacedAt t' slot (k :: p) site name :=
  ⟨reach?_cons_eq_some_iff.2 ⟨ht, _, hu, h.1⟩, h.2.1,
    subtree?_cons_eq_some_iff.2 ⟨_, hu', h.2.2⟩⟩

/-- The nodes of a reference are a use of the name and, in some slots, the braces around it. -/
theorem subtree?_reference {site : Site} {name : String} {p : List Nat} {slot : Slot} {u : Tree}
    (h : (site.reference name).subtree? site.slot p = some (slot, u)) :
    u = mention name site.element.span ∧ (p = [] ∨ p = [0]) ∨ u.label.kind = .container := by
  have hmention : ∀ {slot₀ : Slot} {q : List Nat},
      (mention name site.element.span).subtree? slot₀ q = some (slot, u) →
        u = mention name site.element.span ∧ q = [] := by
    intro slot₀ q hq
    cases q with
    | nil => exact ⟨(Prod.mk.inj (Option.some.inj hq)).2.symm, rfl⟩
    | cons k q => simp [subtree?_cons_eq_some_iff, mention, parts] at hq
  rw [Site.reference, Slot.reference_eq] at h
  split at h
  · cases p with
    | nil =>
      obtain rfl := (Prod.mk.inj (Option.some.inj h)).2
      exact Or.inr rfl
    | cons k p =>
      -- in braces the name is one step further down
      obtain ⟨q, hq, hu⟩ := subtree?_cons_eq_some_iff.1 h
      obtain ⟨rfl, rfl⟩ : k = 0 ∧ (.single "expression", mention name site.element.span) = q := by
        simpa [inBraces, parts, List.getElem?_singleton] using hq
      obtain ⟨rfl, rfl⟩ := hmention hu
      exact Or.inl ⟨rfl, Or.inr rfl⟩
  · exact Or.inl ((hmention h).imp id Or.inl)

/-! ### Paths after a walk -/

theorem getElem?_hoistParts (ps : List (Slot × Tree)) (s : Scope) (k : Nat) :
    (hoistParts ps s).1[k]? =
      ps[k]?.map fun q => (q.1, (q.2.hoist q.1 (hoistParts (ps.take k) s).2).1) := by
  induction ps generalizing s k with
  | nil => simp
  | cons p ps ih =>
    obtain ⟨slot, t⟩ := p
    cases k with
    | zero => simp
    | succ k => simp [ih]

/-- The sites before a part come first among all sites, and then those of the part. -/
theorem prefix_sitesOfParts {ps : List (Slot × Tree)} {k : Nat} {slot : Slot} {t : Tree}
    (hk : ps[k]? = some (slot, t)) {before : List Site} (h : before <+: t.sites slot) :
    sitesOfParts (ps.take k) ++ before <+: sitesOfParts ps := by
  obtain ⟨hlt, hget⟩ := List.getElem?_eq_some_iff.1 hk
  have hsplit : ps = ps.take k ++ (slot, t) :: ps.drop (k + 1) := by
    rw [← hget, List.getElem_cons_drop, List.take_append_drop]
  have hsites : sitesOfParts ps =
      sitesOfParts (ps.take k) ++ (t.sites slot ++ sitesOfParts (ps.drop (k + 1))) := by
    rw [← sitesOfParts_cons, ← sitesOfParts_append, ← hsplit]
  rw [hsites, List.prefix_append_right_inj]
  exact h.trans (List.prefix_append _ _)

theorem replacedAt_hoist {slot : Slot} {t : Tree} (hc : t.isConstantElement) (s : Scope) :
    t.ReplacedAt (t.hoist slot s).1 slot [] ⟨slot, t⟩ (s.bind t).1 := by
  refine ⟨rfl, hc, ?_⟩
  rw [hoist_of_isConstantElement hc]
  rfl

/-- **What a path of a hoisted tree leads to.** Either the walk passed the end of the path, where no
constant element stands, and the path leads to what it made of the node there; or the walk came to a
site on the path, and the path leads into the reference that is there now. -/
theorem subtree?_hoist {slot slot' : Slot} {t u : Tree} {s : Scope} {p : List Nat}
    (h : (t.hoist slot s).1.subtree? slot p = some (slot', u)) :
    (∃ e before, t.reach? slot p = some (slot', e) ∧ ¬ e.isConstantElement ∧
      before <+: t.sites slot ∧
      u = (e.hoist slot' (s.bindAll (before.map Site.element)).2).1) ∨
    ∃ q r site name, p = q ++ r ∧ t.ReplacedAt (t.hoist slot s).1 slot q site name ∧
      (site.reference name).subtree? site.slot r = some (slot', u) := by
  -- on the path, for every scope: a part is walked in the scope that the parts before it left
  induction p generalizing slot t s with
  | nil =>
    by_cases hc : t.isConstantElement
    · refine Or.inr ⟨[], [], ⟨slot, t⟩, (s.bind t).1, rfl, replacedAt_hoist hc s, ?_⟩
      rw [hoist_of_isConstantElement hc] at h
      exact h
    · obtain ⟨rfl, rfl⟩ : slot = slot' ∧ (t.hoist slot s).1 = u := by simpa using h
      exact Or.inl ⟨t, [], rfl, hc, List.nil_prefix, rfl⟩
  | cons k p ih =>
    by_cases hc : t.isConstantElement
    · refine Or.inr ⟨[], k :: p, ⟨slot, t⟩, (s.bind t).1, rfl, replacedAt_hoist hc s, ?_⟩
      rw [hoist_of_isConstantElement hc] at h
      exact h
    · obtain ⟨l, ps⟩ := t
      rw [hoist_node hc] at h ⊢
      obtain ⟨q', hq', hu⟩ := subtree?_cons_eq_some_iff.1 h
      have hpart : (hoistParts ps s).1[k]? = some q' := hq'
      rw [getElem?_hoistParts] at hpart
      obtain ⟨⟨slotₖ, tₖ⟩, hq, rfl⟩ := Option.map_eq_some_iff.1 hpart
      rcases ih hu with ⟨e, before, hreach, hce, hpre, rfl⟩ | ⟨q, r, site, name, rfl, hrep, href⟩
      · refine Or.inl ⟨e, sitesOfParts (ps.take k) ++ before,
          reach?_cons_eq_some_iff.2 ⟨hc, _, hq, hreach⟩, hce, ?_, ?_⟩
        · rw [sites_node hc]
          exact prefix_sitesOfParts hq hpre
        · rw [List.map_append, Scope.bindAll_append, hoistParts_eq_fillParts]
      · exact Or.inr ⟨k :: q, r, site, name, rfl, hrep.cons hc hq hq', href⟩

/-! ### Paths of sites -/

mutual

/-- Every site has a path, and the tree that takes its place is found at the end of it. -/
theorem exists_path_of_mem_zip {slot : Slot} {site : Site} {u : Tree} :
    ∀ {t : Tree} {us : List Tree}, us.length = (t.sites slot).length →
      (site, u) ∈ (t.sites slot).zip us →
      ∃ p, t.reach? slot p = some (site.slot, site.element) ∧
        (t.fill us).subtree? slot p = some (site.slot, u)
  | node l ps, us, hlen, hmem => by
    by_cases hc : (node l ps).isConstantElement
    · rw [sites_of_isConstantElement hc] at hlen hmem
      obtain ⟨v, rfl⟩ := List.length_eq_one_iff.1 hlen
      obtain ⟨rfl, rfl⟩ : site = ⟨slot, node l ps⟩ ∧ u = v := by simpa using hmem
      exact ⟨[], rfl, by rw [fill_of_isConstantElement hc]; rfl⟩
    · rw [sites_node hc] at hlen hmem
      obtain ⟨k, p, slotₖ, t, t', ht, ht', hreach, hsub⟩ :=
        exists_path_of_mem_zip_parts hlen hmem
      refine ⟨k :: p, reach?_cons_eq_some_iff.2 ⟨hc, _, ht, hreach⟩, ?_⟩
      rw [fill_node hc]
      exact subtree?_cons_eq_some_iff.2 ⟨_, ht', hsub⟩

/-- Every site among the parts of a tree lies at the end of a path in one of them. -/
theorem exists_path_of_mem_zip_parts {site : Site} {u : Tree} :
    ∀ {ps : List (Slot × Tree)} {us : List Tree}, us.length = (sitesOfParts ps).length →
      (site, u) ∈ (sitesOfParts ps).zip us →
      ∃ (k : Nat) (p : List Nat) (slot : Slot) (t t' : Tree), ps[k]? = some (slot, t) ∧
        (fillParts ps us)[k]? = some (slot, t') ∧
        t.reach? slot p = some (site.slot, site.element) ∧
        t'.subtree? slot p = some (site.slot, u)
  | [], us, _, hmem => by simp at hmem
  | (slot, t) :: ps, us, hlen, hmem => by
    obtain ⟨vs, ws, rfl, hvs, hws⟩ := exists_split_of_length_eq hlen
    rw [sitesOfParts_cons, List.zip_append hvs.symm, List.mem_append] at hmem
    rw [fillParts_cons hvs]
    rcases hmem with hmem | hmem
    · obtain ⟨p, hreach, hsub⟩ := exists_path_of_mem_zip hvs hmem
      exact ⟨0, p, slot, t, t.fill vs, rfl, rfl, hreach, hsub⟩
    · obtain ⟨k, p, slotₖ, tₖ, tₖ', ht, ht', hreach, hsub⟩ :=
        exists_path_of_mem_zip_parts hws hmem
      exact ⟨k + 1, p, slotₖ, tₖ, tₖ', ht, ht', hreach, hsub⟩

end

/-- Every site among the parts of a tree lies at the end of a path that a walk takes. -/
theorem exists_path_of_mem_sitesOfParts {ps : List (Slot × Tree)} {site : Site}
    (h : site ∈ sitesOfParts ps) :
    ∃ (k : Nat) (p : List Nat) (slot : Slot) (t : Tree), ps[k]? = some (slot, t) ∧
      t.reach? slot p = some (site.slot, site.element) := by
  obtain ⟨j, hj⟩ := List.mem_iff_getElem?.1 h
  -- any trees will do in place of the sites
  have hmem : (site, site.element) ∈
      (sitesOfParts ps).zip ((sitesOfParts ps).map Site.element) :=
    List.mem_iff_getElem?.2 ⟨j, List.getElem?_zip_eq_some.2 ⟨hj, by simp [hj]⟩⟩
  obtain ⟨k, p, slot, t, -, ht, -, hreach, -⟩ := exists_path_of_mem_zip_parts (by simp) hmem
  exact ⟨k, p, slot, t, ht, hreach⟩

/-! ### Paths in the statements of a module -/

theorem getElem?_hoistItems (items : List Tree) (s : Scope) (k : Nat) :
    (hoistItems items s).1[k]? =
      items[k]?.map fun t => (t.hoist (.item "body") (hoistItems (items.take k) s).2).1 := by
  induction items generalizing s k with
  | nil => simp
  | cons t ts ih =>
    cases k with
    | zero => simp
    | succ k => simp [ih]

theorem prefix_sitesOfItems {items : List Tree} {k : Nat} {t : Tree} (hk : items[k]? = some t)
    {before : List Site} (h : before <+: t.sites (.item "body")) :
    sitesOfItems (items.take k) ++ before <+: sitesOfItems items := by
  rw [sitesOfItems, body, List.map_take]
  exact prefix_sitesOfParts (by simp [hk]) h

/-- Every site in a list of statements lies at the end of a path in one of them. -/
theorem exists_path_of_mem_sitesOfItems {items : List Tree} {site : Site}
    (h : site ∈ sitesOfItems items) :
    ∃ (k : Nat) (p : List Nat) (t : Tree), items[k]? = some t ∧
      t.reach? (.item "body") p = some (site.slot, site.element) := by
  obtain ⟨k, p, slot, t, ht, hreach⟩ := exists_path_of_mem_sitesOfParts h
  obtain ⟨hitem, rfl⟩ : items[k]? = some t ∧ .item "body" = slot := by
    simpa [body] using ht
  exact ⟨k, p, t, hitem, hreach⟩

/-- What a path in a hoisted statement leads to, as for a tree (`subtree?_hoist`). -/
theorem subtree?_hoistItems {items : List Tree} {s : Scope} {k : Nat} {t' u : Tree}
    {p : List Nat} {slot : Slot} (hk : (hoistItems items s).1[k]? = some t')
    (h : t'.subtree? (.item "body") p = some (slot, u)) :
    ∃ t, items[k]? = some t ∧
      ((∃ e before, t.reach? (.item "body") p = some (slot, e) ∧ ¬ e.isConstantElement ∧
        before <+: sitesOfItems items ∧
        u = (e.hoist slot (s.bindAll (before.map Site.element)).2).1) ∨
      ∃ q r site name, p = q ++ r ∧ t.ReplacedAt t' (.item "body") q site name ∧
        (site.reference name).subtree? site.slot r = some (slot, u)) := by
  rw [getElem?_hoistItems] at hk
  obtain ⟨t, ht, rfl⟩ := Option.map_eq_some_iff.1 hk
  refine ⟨t, ht, (subtree?_hoist h).imp ?_ id⟩
  rintro ⟨e, before, hreach, hce, hpre, rfl⟩
  refine ⟨e, sitesOfItems (items.take k) ++ before, hreach, hce, prefix_sitesOfItems ht hpre, ?_⟩
  rw [List.map_append, Scope.bindAll_append, hoistItems_eq_fillItems]

end Tree

end JsxHoist
