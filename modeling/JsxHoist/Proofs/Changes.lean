import JsxHoist.Proofs.ModuleWalk

/-!
# When hoisting changes a program

Hoisting changes a program exactly when it has something to hoist: a module that imports the
library, and a constant element that the walk over the items behind the first such import comes to
(`Program.Hoistable`).

* A walk over a tree without sites changes neither the tree nor the scope
  (`Tree.hoist_of_sites_eq_nil`), however many elements it enters.
* A walk that comes to a site makes a binding, and each binding is one item more in the body
  (`Hoister.length_body_visitModule`). Nothing that the walk drops or shares makes up for it.
-/

namespace JsxHoist

namespace Tree

/-! ### Walks without sites -/

mutual

/-- A tree without sites stays as it is, and so does the scope. -/
theorem hoist_of_sites_eq_nil {slot : Slot} {s : Scope} :
    ∀ {t : Tree}, t.sites slot = [] → t.hoist slot s = (t, s)
  | node l ps, h => by
    by_cases hc : (node l ps).isConstantElement
    · rw [sites_of_isConstantElement hc] at h
      exact absurd h (List.cons_ne_nil _ _)
    · rw [sites_node hc] at h
      rw [hoist_node hc, hoistParts_of_sitesOfParts_eq_nil h]

theorem hoistParts_of_sitesOfParts_eq_nil {s : Scope} :
    ∀ {ps : List (Slot × Tree)}, sitesOfParts ps = [] → hoistParts ps s = (ps, s)
  | [], _ => rfl
  | (slot, t) :: ps, h => by
    rw [sitesOfParts_cons, List.append_eq_nil_iff] at h
    rw [hoistParts_cons, hoist_of_sites_eq_nil h.1, hoistParts_of_sitesOfParts_eq_nil h.2]

end

theorem hoistItems_of_sitesOfItems_eq_nil {items : List Tree} (h : sitesOfItems items = [])
    (s : Scope) : hoistItems items s = (items, s) := by
  have hparts := hoistParts_body items s
  rw [hoistParts_of_sitesOfParts_eq_nil h] at hparts
  obtain ⟨hbody, hscope⟩ := Prod.mk.inj hparts
  have hitems := congrArg (List.map Prod.snd) hbody
  rw [map_snd_body, map_snd_body] at hitems
  exact Prod.ext hitems.symm hscope.symm

/-! ### Sites and reached elements -/

theorem sitesOfParts_eq_flatMap (ps : List (Slot × Tree)) :
    sitesOfParts ps = ps.flatMap fun p => p.2.sites p.1 := by
  induction ps with
  | nil => rfl
  | cons p ps ih => rw [sitesOfParts_cons, ih, List.flatMap_cons]

/-- A constant element that a walk comes to is a site. -/
theorem mem_sites_of_reach? {slot slot' : Slot} {t e : Tree} {p : List Nat}
    (h : t.reach? slot p = some (slot', e)) (he : e.isConstantElement) :
    ⟨slot', e⟩ ∈ t.sites slot := by
  induction p generalizing slot t with
  | nil =>
    obtain ⟨rfl, rfl⟩ : slot = slot' ∧ t = e := by simpa using h
    rw [sites_of_isConstantElement he]
    exact List.mem_singleton_self _
  | cons k p ih =>
    obtain ⟨hc, q, hq, hreach⟩ := reach?_cons_eq_some_iff.1 h
    obtain ⟨l, ps⟩ := t
    rw [sites_node hc, sitesOfParts_eq_flatMap]
    exact List.mem_flatMap.2 ⟨q, List.mem_of_getElem? hq, ih hreach⟩

/-- The items of a list have a site if and only if a walk over one of them comes to a constant
element. -/
theorem sitesOfItems_ne_nil_iff {items : List Tree} :
    sitesOfItems items ≠ [] ↔ ∃ (k : Nat) (t : Tree) (p : List Nat) (slot : Slot) (e : Tree),
      items[k]? = some t ∧ t.reach? (.item "body") p = some (slot, e) ∧ e.isConstantElement := by
  constructor
  · intro h
    obtain ⟨site, hsite⟩ := List.exists_mem_of_ne_nil _ h
    obtain ⟨k, p, t, ht, hreach⟩ := exists_path_of_mem_sitesOfItems hsite
    exact ⟨k, t, p, site.slot, site.element, ht, hreach,
      isConstantElement_of_mem_sitesOfParts hsite⟩
  · rintro ⟨k, t, p, slot, e, ht, hreach, he⟩
    have hmem : ⟨slot, e⟩ ∈ sitesOfItems items := by
      rw [sitesOfItems, sitesOfParts_eq_flatMap, body, List.flatMap_map]
      exact List.mem_flatMap.2 ⟨t, List.mem_of_getElem? ht, mem_sites_of_reach? hreach he⟩
    exact List.ne_nil_of_mem hmem

/-- An import is no directive. -/
theorem not_isDirective_of_isImportOf {source : String} {t : Tree} (h : t.isImportOf source) :
    ¬ t.isDirective := by
  unfold isImportOf at h
  split at h
  · exact Bool.false_ne_true
  · exact absurd h Bool.false_ne_true

end Tree

/-- Only the empty list has no originals: the first element of any other is one. -/
theorem originals_eq_nil_iff {es : List Tree} : originals es = [] ↔ es = [] := by
  cases es with
  | nil => exact ⟨fun _ => rfl, fun _ => rfl⟩
  | cons e es =>
    have hnew : ¬ e.Repeats [] := fun ⟨b, hb, _⟩ => List.not_mem_nil hb
    rw [originals, originalsAfter, if_neg hnew]
    exact iff_of_false (List.cons_ne_nil _ _) (List.cons_ne_nil _ _)

/-! ### Programs with something to hoist -/

/-- The item `i` is the **first import** of a source in the module. -/
def Module.FirstImport (m : Module) (source : String) (i : Nat) : Prop :=
  (∃ t, m.body[i]? = some t ∧ t.isImportOf source) ∧
    ∀ j t, j < i → m.body[j]? = some t → ¬ t.isImportOf source

/-- The anchor is where the first import is: that directives are passed over makes no difference. -/
theorem anchor?_eq_findIdx? (source : String) (items : List Tree) :
    anchor? source items = items.findIdx? (Tree.isImportOf source) := by
  have htest : (fun item : Tree => !item.isDirective && item.isImportOf source) =
      Tree.isImportOf source := by
    funext t
    by_cases ht : t.isImportOf source
    · simp [ht, Tree.not_isDirective_of_isImportOf ht]
    · simp [ht]
  rw [anchor?, htest]

theorem Module.anchor?_eq_some_iff {m : Module} {source : String} {i : Nat} :
    anchor? source m.body = some i ↔ m.FirstImport source i := by
  rw [anchor?_eq_findIdx?, List.findIdx?_eq_some_iff_getElem]
  constructor
  · rintro ⟨hlt, himport, hbefore⟩
    refine ⟨⟨_, List.getElem?_eq_getElem hlt, himport⟩, fun j t hj ht => ?_⟩
    obtain ⟨-, rfl⟩ := List.getElem?_eq_some_iff.1 ht
    exact hbefore j hj
  · rintro ⟨⟨t, ht, himport⟩, hbefore⟩
    obtain ⟨hlt, rfl⟩ := List.getElem?_eq_some_iff.1 ht
    refine ⟨hlt, himport, fun j hj => ?_⟩
    exact hbefore j _ hj (List.getElem?_eq_getElem (Nat.lt_trans hj hlt))

/-- A program is **hoistable** when it is a module with a first import of the source, and a walk
over an item behind that import comes to a constant element. -/
def Program.Hoistable (source : String) (p : Program) : Prop :=
  ∃ m i, p = .module m ∧ m.FirstImport source i ∧
    ∃ (k : Nat) (t : Tree) (path : List Nat) (slot : Slot) (e : Tree), i < k ∧
      m.body[k]? = some t ∧ t.reach? (.item "body") path = some (slot, e) ∧ e.isConstantElement

/-- There are sites behind an item if and only if a walk over a later item comes to a constant
element. -/
theorem Module.sitesAfter_ne_nil_iff {m : Module} {i : Nat} :
    m.sitesAfter i ≠ [] ↔
      ∃ (k : Nat) (t : Tree) (path : List Nat) (slot : Slot) (e : Tree), i < k ∧
        m.body[k]? = some t ∧ t.reach? (.item "body") path = some (slot, e) ∧
        e.isConstantElement := by
  rw [Module.sitesAfter, Tree.sitesOfItems_ne_nil_iff]
  constructor
  · rintro ⟨k, t, p, slot, e, ht, hreach, he⟩
    rw [List.getElem?_drop] at ht
    exact ⟨i + 1 + k, t, p, slot, e, by omega, ht, hreach, he⟩
  · rintro ⟨k, t, p, slot, e, hik, ht, hreach, he⟩
    refine ⟨k - (i + 1), t, p, slot, e, ?_, hreach, he⟩
    rw [List.getElem?_drop, Nat.add_sub_cancel' hik, ht]

namespace Hoister

variable {h : Hoister} {m : Module} {i : Nat}

/-- Every binding is one item more. -/
theorem length_body_visitModule (hi : anchor? h.options.importSource m.body = some i) :
    (h.visitModule m).result.body.length = m.body.length + (h.bindings m i).length := by
  have hcut := congrArg List.length (List.take_append_drop (i + 1) m.body)
  rw [List.length_append] at hcut
  rw [result_visitModule hi, List.length_append, List.length_append, length_tail, declarations,
    List.length_map]
  omega

/-- There are bindings if and only if there are sites. -/
theorem bindings_eq_nil_iff : h.bindings m i = [] ↔ m.sitesAfter i = [] := by
  rw [← List.map_eq_nil_iff (f := Binding.element), elements_bindings, originals_eq_nil_iff,
    List.map_eq_nil_iff]

/-- A module with an anchor stays as it is if and only if there are no sites behind the anchor. -/
theorem result_visitModule_eq_self_iff (hi : anchor? h.options.importSource m.body = some i) :
    (h.visitModule m).result = m ↔ m.sitesAfter i = [] := by
  constructor
  · intro hsame
    have hlen := length_body_visitModule hi
    rw [hsame] at hlen
    have hnone : h.bindings m i = [] := List.eq_nil_of_length_eq_zero (by omega)
    exact bindings_eq_nil_iff.1 hnone
  · intro hnone
    have htail : h.tail m i = m.body.drop (i + 1) := by
      rw [tail, walk, Tree.hoistItems_of_sitesOfItems_eq_nil hnone]
    rw [result_visitModule hi, declarations, bindings_eq_nil_iff.2 hnone, htail, List.map_nil,
      List.append_nil, List.take_append_drop]

/-- A module stays as it is unless there is something to hoist in it. -/
theorem result_visitModule_ne_self_iff (h : Hoister) (m : Module) :
    (h.visitModule m).result ≠ m ↔
      ∃ i, m.FirstImport h.options.importSource i ∧ m.sitesAfter i ≠ [] := by
  cases hi : anchor? h.options.importSource m.body with
  | none =>
    refine iff_of_false (fun hne => hne (result_visitModule_of_anchor?_eq_none hi)) ?_
    rintro ⟨i, himport, -⟩
    rw [Module.anchor?_eq_some_iff.2 himport] at hi
    exact Option.some_ne_none i hi
  | some i =>
    rw [ne_eq, result_visitModule_eq_self_iff hi]
    constructor
    · exact fun hsites => ⟨i, Module.anchor?_eq_some_iff.1 hi, hsites⟩
    · rintro ⟨j, himport, hsites⟩
      obtain rfl : i = j := Option.some.inj (hi.symm.trans (Module.anchor?_eq_some_iff.2 himport))
      exact hsites

/-- **Hoisting changes a program exactly when it should**: if and only if the program is a module,
an item of it imports the library, and the walk over the items behind the first such import comes to
a constant element. Every other program comes back as it is, with all that is recorded about it. -/
theorem visitProgram_changes_iff (h : Hoister) (p : Program) :
    ((h.visitProgram p).result ≠ p ↔ p.Hoistable h.options.importSource) ∧
      (¬ p.Hoistable h.options.importSource → (h.visitProgram p).result = p) := by
  have hiff : (h.visitProgram p).result ≠ p ↔ p.Hoistable h.options.importSource := by
    cases p with
    | script content =>
      refine iff_of_false (fun hne => hne rfl) ?_
      rintro ⟨m, i, hp, -⟩
      exact Program.noConfusion hp
    | module m =>
      have hresult : (h.visitProgram (.module m)).result = .module (h.visitModule m).result := rfl
      rw [hresult, ne_eq, Program.module.injEq, ← ne_eq, result_visitModule_ne_self_iff]
      constructor
      · rintro ⟨i, himport, hsites⟩
        exact ⟨m, i, rfl, himport, Module.sitesAfter_ne_nil_iff.1 hsites⟩
      · rintro ⟨m', i, hp, himport, hreach⟩
        obtain rfl := Program.module.inj hp
        exact ⟨i, himport, Module.sitesAfter_ne_nil_iff.2 hreach⟩
  exact ⟨hiff, fun hnot => not_not.1 (mt hiff.1 hnot)⟩

end Hoister

end JsxHoist
