import JsxHoist.Proofs.ModuleWalk

/-!
# The scopes of a walk

A walk changes its scope with every constant element that it comes to. `Tree.scopes` lists the
scopes that it passes through, and `Hoister.scopes` those of the walk over a module, the one that it
starts in included. Three invariants hold in all of them (`Scope.Invariant`):

* the index of the registry is exact (`Registry.Indexed`): the entry under a span is the number of
  the binding for an element with that span, and there is no other entry;
* every element that is bound is constant;
* the names of the bindings and the words of the module are taken (`Scope.Hygienic`).

The registry alone keeps none of this, since anything can be inserted under any span. It is binding
an element, which inserts only what is not found, that keeps the index exact (`Scope.indexed_bind`).
For the same reason it only ever adds to a scope (`Scope.Extends.bind`). Along a walk this gives
what holds in all its scopes and from each scope to the later ones (`Hoister.consistent_scopes`).
-/

namespace JsxHoist

/-! ### The index of a registry -/

/-- A registry is **indexed** by the spans of its elements when its entries point at bindings, and
the entry under a span is the number of a binding whose element is identified by the span. -/
structure Registry.Indexed (r : Registry) : Prop where
  sound : r.Sound
  lookup_iff : ∀ (id : Span) (k : Nat), r.index.lookup id = some k ↔
    ∃ b, r.bindings[k]? = some b ∧ b.element.identity? = some id

namespace Registry

theorem indexed_empty : Indexed {} where
  sound := sound_empty
  lookup_iff id k := by simp

/-- An entry of the index leads to the binding that a look-up finds. -/
theorem get?_eq_of_lookup {r : Registry} {id : Span} {k : Nat} (h : r.index.lookup id = some k) :
    r.get? id = r.bindings[k]? := by
  rw [get?, h, Option.bind_some]

namespace Indexed

variable {r : Registry}

/-- A look-up fails only where there is no entry. -/
theorem lookup_eq_none (h : r.Indexed) {id : Span} (hnone : r.get? id = none) :
    r.index.lookup id = none := by
  refine Option.eq_none_iff_forall_ne_some.2 fun k hk => ?_
  obtain ⟨b, hb, -⟩ := (h.lookup_iff id k).1 hk
  rw [get?_eq_of_lookup hk, hb] at hnone
  exact Option.some_ne_none b hnone

/-- A span identifies the element of one binding at most. -/
theorem number_unique (h : r.Indexed) {id : Span} {j k : Nat} {b c : Binding}
    (hj : r.bindings[j]? = some b) (hb : b.element.identity? = some id)
    (hk : r.bindings[k]? = some c) (hc : c.element.identity? = some id) : j = k := by
  have hlookup : r.index.lookup id = some j := (h.lookup_iff id j).2 ⟨b, hj, hb⟩
  have hlookup' : r.index.lookup id = some k := (h.lookup_iff id k).2 ⟨c, hk, hc⟩
  exact Option.some.inj (hlookup.symm.trans hlookup')

/-- A binding for an element that is not found can be inserted under its span. -/
theorem insert (h : r.Indexed) {e : Tree}
    (hnew : ∀ id, e.identity? = some id → r.get? id = none) (name : String) :
    (r.insert e.identity? ⟨name, e⟩).Indexed where
  sound := h.sound.insert _ _
  lookup_iff id k := by
    rw [lookup_index_insert, getElem?_bindings_insert]
    by_cases hid : e.identity? = some id
    · -- no binding had the span before
      rw [if_pos hid]
      constructor
      · intro hk
        obtain rfl : r.size = k := Option.some.inj hk
        exact ⟨⟨name, e⟩, if_pos rfl, hid⟩
      · rintro ⟨b, hb, hbid⟩
        split at hb
        · next hk => rw [hk]
        · have hlookup := (h.lookup_iff id k).2 ⟨b, hb, hbid⟩
          rw [h.lookup_eq_none (hnew id hid)] at hlookup
          exact absurd hlookup.symm (Option.some_ne_none k)
    · rw [if_neg hid, h.lookup_iff]
      refine exists_congr fun b => and_congr_left fun hbid => ?_
      split
      · next hk =>
        -- neither an old binding nor the new one, which has another span
        have hend : r.bindings[k]? = none := Array.getElem?_eq_none (Nat.le_of_eq hk.symm)
        rw [hend]
        refine iff_of_false (Option.some_ne_none b).symm fun hb => hid ?_
        obtain rfl := Option.some.inj hb
        exact hbid
      · exact Iff.rfl

end Indexed

end Registry

/-! ### Scopes one after the other -/

namespace Scope

/-- The scopes that come about when the elements of a list are bound one after the other. -/
def states (s : Scope) : List Tree → List Scope
  | [] => []
  | e :: es => (s.bind e).2 :: (s.bind e).2.states es

@[simp]
theorem states_nil (s : Scope) : s.states [] = [] := rfl

@[simp]
theorem states_cons (s : Scope) (e : Tree) (es : List Tree) :
    s.states (e :: es) = (s.bind e).2 :: (s.bind e).2.states es := rfl

theorem states_append (s : Scope) (es fs : List Tree) :
    s.states (es ++ fs) = s.states es ++ (s.bindAll es).2.states fs := by
  induction es generalizing s with
  | nil => rfl
  | cons e es ih => simp [ih]

/-- The number of a scope is the number of elements that are bound by then. -/
theorem getElem?_cons_states (s : Scope) {es : List Tree} {k : Nat} (hk : k ≤ es.length) :
    (s :: s.states es)[k]? = some (s.bindAll (es.take k)).2 := by
  induction es generalizing s k with
  | nil =>
    obtain rfl : k = 0 := Nat.le_zero.1 hk
    rfl
  | cons e es ih =>
    cases k with
    | zero => rfl
    | succ k => exact ih (s.bind e).2 (Nat.le_of_succ_le_succ hk)

@[simp]
theorem length_states (s : Scope) (es : List Tree) : (s.states es).length = es.length := by
  induction es generalizing s with
  | nil => rfl
  | cons e es ih => simp [ih]

/-- **Invariants**: what holds at the start, and after binding an element if it held before, holds
in every scope that comes about. -/
theorem forall_mem_states {P : Scope → Prop} {es : List Tree}
    (hstep : ∀ (s : Scope) (e : Tree), e ∈ es → P s → P (s.bind e).2) {s : Scope} (hs : P s) :
    ∀ s' ∈ s :: s.states es, P s' := by
  induction es generalizing s with
  | nil =>
    intro s' hs'
    obtain rfl := List.mem_singleton.1 hs'
    exact hs
  | cons e es ih =>
    intro s' hs'
    rw [states_cons, List.mem_cons] at hs'
    rcases hs' with rfl | hs'
    · exact hs
    · have hfirst : P (s.bind e).2 := hstep s e List.mem_cons_self hs
      exact ih (fun t f hf => hstep t f (List.mem_cons_of_mem e hf)) hfirst s' hs'

/-! ### What binding an element keeps -/

/-- The step for the index: binding an element keeps it exact, because only what is not found is
inserted. -/
theorem indexed_bind {s : Scope} (h : s.registry.Indexed) (e : Tree) :
    (s.bind e).2.registry.Indexed := by
  rcases s.bind_cases e with ⟨id, b, -, -, hbind⟩ | ⟨hnew, hbind⟩
  · rw [hbind]
    exact h
  · rw [hbind]
    exact h.insert hnew _

/-- The elements that are bound in a scope are constant. -/
def AllConstant (s : Scope) : Prop :=
  ∀ b ∈ s.registry.bindings.toList, b.element.isConstantElement

/-- The step for the elements. -/
theorem AllConstant.bind {s : Scope} (h : s.AllConstant) {e : Tree} (he : e.isConstantElement) :
    (s.bind e).2.AllConstant := by
  rcases s.bind_cases e with ⟨id, b, -, -, hbind⟩ | ⟨-, hbind⟩
  · rw [hbind]
    exact h
  · rw [hbind]
    intro c hc
    rw [Registry.toList_bindings_insert, List.mem_append, List.mem_singleton] at hc
    rcases hc with hc | rfl
    · exact h c hc
    · exact he

/-- A scope **extends** to another when the other has the same bindings in the same places, and
maybe more behind them, and the same entries in its index, and maybe more under other spans. -/
structure Extends (s s' : Scope) : Prop where
  bindings : s.registry.bindings.toList <+: s'.registry.bindings.toList
  lookup : ∀ (id : Span) (k : Nat), s.registry.index.lookup id = some k →
    s'.registry.index.lookup id = some k

namespace Extends

theorem trans {s₁ s₂ s₃ : Scope} (h₁ : s₁.Extends s₂) (h₂ : s₂.Extends s₃) : s₁.Extends s₃ where
  bindings := h₁.bindings.trans h₂.bindings
  lookup id k h := h₂.lookup id k (h₁.lookup id k h)

/-- The step: binding an element overwrites nothing. -/
theorem bind {s : Scope} (h : s.registry.Indexed) (e : Tree) : s.Extends (s.bind e).2 := by
  refine ⟨s.bindings_prefix_bind e, fun id k hk => ?_⟩
  rcases s.bind_cases e with ⟨_, b, -, -, hbind⟩ | ⟨hnew, hbind⟩
  · rw [hbind]
    exact hk
  · rw [hbind, Registry.lookup_index_insert]
    -- an entry under the span of the new binding would have been found
    have hne : e.identity? ≠ some id := by
      intro hid
      rw [h.lookup_eq_none (hnew id hid)] at hk
      exact Option.some_ne_none k hk.symm
    rw [if_neg hne]
    exact hk

end Extends

/-- The invariants of a walk over a module that uses the given words. -/
structure Invariant (s : Scope) (words : List String) : Prop where
  indexed : s.registry.Indexed
  constant : s.AllConstant
  hygienic : s.Hygienic words

/-- **The step**: binding a constant element keeps the invariants. -/
theorem Invariant.bind {s : Scope} {words : List String} (h : s.Invariant words) {e : Tree}
    (he : e.isConstantElement) : (s.bind e).2.Invariant words where
  indexed := indexed_bind h.indexed e
  constant := h.constant.bind he
  hygienic := h.hygienic.bind e

/-- What the invariants say about a scope, spelled out. -/
structure Consistent (s : Scope) (words : List String) : Prop where
  /-- Every entry of the index points at a binding. -/
  in_range : ∀ entry ∈ s.registry.index, entry.2 < s.registry.size
  /-- The entry under a span is the number of the one binding whose element has that span, if the
  span is not dummy, and there is no entry under a dummy span. -/
  lookup_iff : ∀ (id : Span) (k : Nat), s.registry.index.lookup id = some k ↔
    ¬ id.IsDummy ∧ (∃ b, s.registry.bindings[k]? = some b ∧ b.element.span = some id) ∧
      ∀ j c, s.registry.bindings[j]? = some c → c.element.span = some id → j = k
  /-- No two bindings have elements with the same span that is not dummy. -/
  spans_distinct : ∀ (j k : Nat) (b c : Binding) (id : Span), ¬ id.IsDummy →
    s.registry.bindings[j]? = some b → b.element.span = some id →
    s.registry.bindings[k]? = some c → c.element.span = some id → j = k
  /-- Every element that is bound is constant. -/
  constant : ∀ b ∈ s.registry.bindings.toList, b.element.isConstantElement
  /-- The names of the bindings are different from each other. -/
  names_nodup : s.boundNames.Nodup
  /-- The names of the bindings are taken. -/
  names_taken : ∀ n ∈ s.boundNames, n ∈ s.names.taken
  /-- The words of the module are taken. -/
  words_taken : ∀ w ∈ words, w ∈ s.names.taken

theorem Invariant.consistent {s : Scope} {words : List String} (h : s.Invariant words) :
    s.Consistent words where
  in_range := h.indexed.sound
  lookup_iff id k := by
    simp only [h.indexed.lookup_iff, Tree.identity?_eq_some_iff]
    constructor
    · rintro ⟨b, hb, hspan, hdummy⟩
      refine ⟨hdummy, ⟨b, hb, hspan⟩, fun j c hc hcspan => ?_⟩
      exact h.indexed.number_unique hc (Tree.identity?_eq_some_iff.2 ⟨hcspan, hdummy⟩) hb
        (Tree.identity?_eq_some_iff.2 ⟨hspan, hdummy⟩)
    · rintro ⟨hdummy, ⟨b, hb, hspan⟩, -⟩
      exact ⟨b, hb, hspan, hdummy⟩
  spans_distinct j k b c id hdummy hj hb hk hc :=
    h.indexed.number_unique hj (Tree.identity?_eq_some_iff.2 ⟨hb, hdummy⟩) hk
      (Tree.identity?_eq_some_iff.2 ⟨hc, hdummy⟩)
  constant := h.constant
  names_nodup := h.hygienic.nodup
  names_taken := h.hygienic.names_taken
  words_taken := h.hygienic.words_taken

/-- Every scope extends to all that come after it. -/
theorem pairwise_extends_states {s : Scope} (h : s.registry.Indexed) (es : List Tree) :
    (s :: s.states es).Pairwise Extends := by
  induction es generalizing s with
  | nil => exact List.pairwise_singleton _ _
  | cons e es ih =>
    have hrest := ih (indexed_bind h e)
    rw [states_cons, List.pairwise_cons]
    refine ⟨fun s' hs' => ?_, hrest⟩
    have hstep := Extends.bind h e
    rcases List.mem_cons.1 hs' with rfl | hs'
    · exact hstep
    · exact hstep.trans ((List.pairwise_cons.1 hrest).1 s' hs')

end Scope

/-! ### The walk over a tree -/

namespace Tree

mutual

/-- The scopes that the walk over a tree passes through: one after each constant element that it
comes to. -/
def scopes : Tree → Scope → List Scope
  | node l ps, s =>
    if (node l ps).isConstantElement then [(s.bind (node l ps)).2] else scopesOfParts ps s

/-- The scopes that the walk over the parts of a tree passes through. -/
def scopesOfParts : List (Slot × Tree) → Scope → List Scope
  | [], _ => []
  | (slot, t) :: ps, s => t.scopes s ++ scopesOfParts ps (t.hoist slot s).2

end

mutual

/-- A walk binds the elements at its sites and does nothing else to its scope. -/
theorem scopes_eq_states (slot : Slot) (s : Scope) : ∀ t : Tree,
    t.scopes s = s.states ((t.sites slot).map Site.element)
  | node l ps => by
    by_cases hc : (node l ps).isConstantElement
    · rw [scopes, if_pos hc, sites_of_isConstantElement hc]
      rfl
    · rw [scopes, if_neg hc, sites_node hc, scopesOfParts_eq_states s ps]

theorem scopesOfParts_eq_states (s : Scope) : ∀ ps : List (Slot × Tree),
    scopesOfParts ps s = s.states ((sitesOfParts ps).map Site.element)
  | [] => rfl
  | (slot, t) :: ps => by
    rw [scopesOfParts, scopes_eq_states slot s t, hoist_eq_fill, scopesOfParts_eq_states _ ps,
      sitesOfParts_cons, List.map_append, Scope.states_append]

end

end Tree

/-! ### The walk over a module -/

namespace Hoister

variable (h : Hoister) (m : Module) (i : Nat)

/-- The scopes of the walk over the items behind an item of a module, the first one included. -/
def scopes : List Scope :=
  h.moduleScope m ::
    Tree.scopesOfParts (Tree.body (m.body.drop (i + 1))) (h.moduleScope m)

theorem scopes_eq :
    h.scopes m i =
      h.moduleScope m :: (h.moduleScope m).states ((m.sitesAfter i).map Site.element) := by
  rw [scopes, Tree.scopesOfParts_eq_states]
  rfl

/-- The number of a scope is the number of sites that the walk has come to by then. -/
theorem getElem?_scopes {k : Nat} (hk : k ≤ (m.sitesAfter i).length) :
    (h.scopes m i)[k]? =
      some ((h.moduleScope m).bindAll (((m.sitesAfter i).take k).map Site.element)).2 := by
  have hk' : k ≤ ((m.sitesAfter i).map Site.element).length := by
    rw [List.length_map]
    exact hk
  rw [scopes_eq, Scope.getElem?_cons_states _ hk', List.map_take]

theorem length_scopes : (h.scopes m i).length = (m.sitesAfter i).length + 1 := by
  rw [scopes_eq, List.length_cons, Scope.length_states, List.length_map]

/-- The walk ends in the last of its scopes. -/
theorem getLast?_scopes : (h.scopes m i).getLast? = some (h.walk m i).2 := by
  rw [List.getLast?_eq_getElem?, length_scopes, Nat.add_sub_cancel,
    getElem?_scopes h m i (Nat.le_refl _), List.take_length, walk_eq]

/-- Before the walk there is no binding, and the words of the module are taken. -/
theorem invariant_moduleScope : (h.moduleScope m).Invariant m.words where
  indexed := Registry.indexed_empty
  constant _ hb := absurd hb List.not_mem_nil
  hygienic := Scope.hygienic_of_bindings_eq_empty (s := h.moduleScope m) rfl

/-- **The run**: the invariants hold in every scope of the walk. -/
theorem invariant_of_mem_scopes {h : Hoister} {m : Module} {i : Nat} {s : Scope}
    (hs : s ∈ h.scopes m i) : s.Invariant m.words := by
  rw [scopes_eq] at hs
  refine Scope.forall_mem_states (P := fun t => t.Invariant m.words) (fun t e he ht => ?_)
    (h.invariant_moduleScope m) s hs
  obtain ⟨site, hsite, rfl⟩ := List.mem_map.1 he
  exact ht.bind (Tree.isConstantElement_of_mem_sitesOfParts hsite)

variable {h m i}

/-- **The scopes of a walk are consistent.** While a module with an anchor at `i` is visited, from
the scope that the walk starts in to the one whose bindings are declared:

* every scope is consistent with the words of the module;
* what the index points at is there, is what a look-up finds, and is the answer for every element
  with the span, and such an element changes nothing;
* no binding and no entry of the index is ever overwritten. -/
theorem consistent_scopes (hi : anchor? h.options.importSource m.body = some i) :
    (h.scopes m i).head? = some (h.moduleScope m) ∧
      (∃ s tail, (h.scopes m i).getLast? = some s ∧
        (h.visitModule m).result =
          { m with
            body := m.body.take (i + 1) ++
              s.registry.bindings.toList.map (Binding.declaration h.options.declarationKind) ++
              tail }) ∧
      (∀ s ∈ h.scopes m i, s.Consistent m.words ∧
        ∀ id k, s.registry.index.lookup id = some k → ∃ b,
          s.registry.bindings[k]? = some b ∧ s.registry.get? id = some b ∧
          ∀ e : Tree, e.span = some id → s.bind e = (b.name, s)) ∧
      (h.scopes m i).Pairwise Scope.Extends := by
  refine ⟨rfl, ⟨_, h.tail m i, h.getLast?_scopes m i, result_visitModule hi⟩, ?_, ?_⟩
  · intro s hs
    have hinv := invariant_of_mem_scopes hs
    refine ⟨hinv.consistent, fun id k hk => ?_⟩
    obtain ⟨b, hb, hid⟩ := (hinv.indexed.lookup_iff id k).1 hk
    have hget : s.registry.get? id = some b := (Registry.get?_eq_of_lookup hk).trans hb
    have hdummy : ¬ id.IsDummy := (Tree.identity?_eq_some_iff.1 hid).2
    refine ⟨b, hb, hget, fun e he => ?_⟩
    exact Scope.bind_of_get?_eq_some (Tree.identity?_eq_some_iff.2 ⟨he, hdummy⟩) hget
  · rw [scopes_eq]
    exact Scope.pairwise_extends_states (h.invariant_moduleScope m).indexed _

/-- In the sample, the copy of the first line break finds the binding of the first. -/
theorem consistent_scopes_sample :
    anchor? "react" Module.sample.body = some 0 ∧
      ∃ s ∈ ({ options := {} } : Hoister).scopes Module.sample 0,
        s.Consistent Module.sample.words ∧ s.registry.index.lookup ⟨10, 16⟩ = some 0 ∧
        ∃ b, s.registry.bindings[0]? = some b ∧ s.registry.get? ⟨10, 16⟩ = some b ∧
          s.bind (.lineBreak ⟨10, 16⟩) = (b.name, s) := by
  obtain ⟨-, -, hscopes, -⟩ := consistent_scopes (h := { options := {} }) anchor?_sample
  have hmem : ((({ options := {} } : Hoister).moduleScope Module.sample).bind
      (.lineBreak ⟨10, 16⟩)).2 ∈ ({ options := {} } : Hoister).scopes Module.sample 0 := by
    rw [scopes_eq, Module.sitesAfter_sample]
    exact List.mem_cons_of_mem _ List.mem_cons_self
  obtain ⟨hconsistent, hentries⟩ := hscopes _ hmem
  obtain ⟨b, hb, hget, hbind⟩ := hentries ⟨10, 16⟩ 0 rfl
  exact ⟨anchor?_sample, _, hmem, hconsistent, rfl, b, hb, hget, hbind _ rfl⟩

end Hoister

end JsxHoist
