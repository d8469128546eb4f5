import JsxHoist.Proofs.ModuleWalk

/-!
# Walks in step

Two walks over the same items, for different modules or with different options, start in scopes that
differ in the stem of their names and in the names that are taken. As long as the same numbers are
free they stay **in step**:

* two supplies of names are in step (`NameSupply.InStep`) when they have come to the same number and
  the same numbers after it are free, so that both leave out the same ones;
* two scopes are in step (`Scope.InStep`) when their supplies are, and their bindings are made from
  the same list of numbers and elements, each with the stem of its own supply.

Binding an element keeps two scopes in step (`Scope.InStep.bind`), hence so does binding a list of
elements (`Scope.InStep.bindAll`), and the answers are names with the same numbers. With the same
stem these are the same names, and then the walks cannot be told apart
(`Scope.InStep.hoistItems_eq`).
-/

namespace JsxHoist

/-! ### Supplies -/

namespace NameSupply

/-- A free number after the counter is the next one if no number in between is free. -/
theorem next_eq_of_forall_not_free {s : NameSupply} {n : Nat} (hn : s.counter < n)
    (hfree : s.Free n) (hbetween : ∀ k, s.counter < k → k < n → ¬ s.Free k) : s.next = n := by
  rcases Nat.lt_trichotomy s.next n with hlt | heq | hgt
  · exact absurd s.free_next (hbetween s.next s.counter_lt_next hlt)
  · exact heq
  · exact absurd hfree (not_free_of_lt_next hn hgt)

/-- Handing out a name takes away no number after that of the name. -/
theorem free_fresh_iff {s : NameSupply} {n : Nat} (hn : s.next < n) :
    s.fresh.2.Free n ↔ s.Free n := by
  have hne : numbered s.stem n ≠ numbered s.stem s.next := fun heq =>
    Nat.ne_of_gt hn (numbered_injective heq)
  have htaken : s.fresh.2.Free n ↔ numbered s.stem n ∉ numbered s.stem s.next :: s.taken := Iff.rfl
  rw [htaken, List.mem_cons, or_iff_right hne]
  rfl

/-- Two supplies are **in step** when they have come to the same number and the same numbers after it
are free. -/
structure InStep (s₁ s₂ : NameSupply) : Prop where
  counter_eq : s₁.counter = s₂.counter
  free_iff : ∀ n, s₁.counter < n → (s₁.Free n ↔ s₂.Free n)

namespace InStep

variable {s₁ s₂ : NameSupply}

theorem next_eq (h : s₁.InStep s₂) : s₁.next = s₂.next := by
  have hlt : s₁.counter < s₂.next := h.counter_eq ▸ s₂.counter_lt_next
  refine next_eq_of_forall_not_free hlt ((h.free_iff _ hlt).2 s₂.free_next) ?_
  intro k hk hk'
  rw [h.free_iff k hk]
  exact not_free_of_lt_next (h.counter_eq ▸ hk) hk'

/-- **The step** for supplies: both hand out the same number and stay in step. -/
theorem fresh (h : s₁.InStep s₂) : s₁.fresh.2.InStep s₂.fresh.2 where
  counter_eq := h.next_eq
  free_iff n hn := by
    have hn₁ : s₁.next < n := hn
    rw [free_fresh_iff hn₁, free_fresh_iff (h.next_eq ▸ hn₁)]
    exact h.free_iff n (Nat.lt_trans s₁.counter_lt_next hn₁)

end InStep

end NameSupply

/-! ### Scopes -/

/-- The binding of an element to the name with a number. -/
def Binding.ofNumber (stem : String) (x : Nat × Tree) : Binding where
  name := numbered stem x.1
  element := x.2

/-- A look-up among bindings that are made from a list finds what is made from an item of it. -/
theorem Registry.get?_eq_map {α : Type} {r : Registry} {xs : List α} {f : α → Binding}
    (h : r.bindings.toList = xs.map f) (id : Span) :
    r.get? id = ((r.index.lookup id).bind fun k => xs[k]?).map f := by
  have hget : (fun k : Nat => r.bindings[k]?) = fun k => xs[k]?.map f := by
    funext k
    rw [← Array.getElem?_toList, h, List.getElem?_map]
  rw [Registry.get?, hget, Option.map_bind]
  rfl

namespace Scope

@[simp]
theorem stem_bind (s : Scope) (e : Tree) : (s.bind e).2.names.stem = s.names.stem := by
  rcases s.bind_cases e with ⟨id, b, -, -, hbind⟩ | ⟨-, hbind⟩
  · rw [hbind]
  · rw [hbind]
    rfl

@[simp]
theorem stem_bindAll (s : Scope) (es : List Tree) :
    (s.bindAll es).2.names.stem = s.names.stem := by
  induction es generalizing s with
  | nil => rfl
  | cons e es ih => rw [bindAll_cons, ih, stem_bind]

/-- Two scopes are **in step** when their supplies are, and their bindings are those of the same
elements to names with the same numbers, entered under the same spans. -/
structure InStep (s₁ s₂ : Scope) (xs : List (Nat × Tree)) : Prop where
  names : s₁.names.InStep s₂.names
  index_eq : s₁.registry.index = s₂.registry.index
  left : s₁.registry.bindings.toList = xs.map (Binding.ofNumber s₁.names.stem)
  right : s₂.registry.bindings.toList = xs.map (Binding.ofNumber s₂.names.stem)

namespace InStep

variable {s₁ s₂ : Scope} {xs : List (Nat × Tree)}

/-- What is found in one scope has its counterpart in the other. -/
theorem get?_eq_some (h : s₁.InStep s₂ xs) {id : Span} {b : Binding}
    (hb : s₁.registry.get? id = some b) :
    ∃ x ∈ xs, b = Binding.ofNumber s₁.names.stem x ∧
      s₂.registry.get? id = some (Binding.ofNumber s₂.names.stem x) := by
  rw [Registry.get?_eq_map h.left] at hb
  obtain ⟨x, hx, rfl⟩ := Option.map_eq_some_iff.1 hb
  obtain ⟨k, -, hk⟩ := Option.bind_eq_some_iff.1 hx
  refine ⟨x, List.mem_of_getElem? hk, rfl, ?_⟩
  rw [Registry.get?_eq_map h.right, ← h.index_eq, hx, Option.map_some]

theorem get?_eq_none (h : s₁.InStep s₂ xs) {id : Span} (hnone : s₁.registry.get? id = none) :
    s₂.registry.get? id = none := by
  rw [Registry.get?_eq_map h.left, Option.map_eq_none_iff] at hnone
  rw [Registry.get?_eq_map h.right, ← h.index_eq, hnone, Option.map_none]

/-- New bindings with the next names keep two scopes in step. -/
theorem insert (h : s₁.InStep s₂ xs) (id? : Option Span) (e : Tree) :
    InStep
      { registry := s₁.registry.insert id? ⟨s₁.names.fresh.1, e⟩, names := s₁.names.fresh.2 }
      { registry := s₂.registry.insert id? ⟨s₂.names.fresh.1, e⟩, names := s₂.names.fresh.2 }
      (xs ++ [(s₁.names.next, e)]) where
  names := h.names.fresh
  index_eq := by
    -- the new entries point behind the same number of bindings
    have hsize : s₁.registry.size = s₂.registry.size := by
      rw [Registry.size, Registry.size, ← Array.length_toList, ← Array.length_toList, h.left,
        h.right, List.length_map, List.length_map]
    simp only [Registry.insert, h.index_eq, hsize]
  left := by
    rw [Registry.toList_bindings_insert, h.left, List.map_append]
    rfl
  right := by
    rw [Registry.toList_bindings_insert, h.right, List.map_append, h.names.next_eq]
    rfl

/-- **The step**: binding an element keeps two scopes in step, and the answers have the same
number. -/
theorem bind (h : s₁.InStep s₂ xs) (e : Tree) :
    ∃ xs' : List (Nat × Tree), xs <+: xs' ∧ (s₁.bind e).2.InStep (s₂.bind e).2 xs' ∧
      ∃ x ∈ xs', (s₁.bind e).1 = numbered s₁.names.stem x.1 ∧
        (s₂.bind e).1 = numbered s₂.names.stem x.1 := by
  rcases s₁.bind_cases e with ⟨id, b, hid, hget, hbind⟩ | ⟨hnew, hbind⟩
  · obtain ⟨x, hx, rfl, hget₂⟩ := h.get?_eq_some hget
    rw [hbind, bind_of_get?_eq_some hid hget₂]
    exact ⟨xs, List.prefix_refl xs, h, x, hx, rfl, rfl⟩
  · have hnew₂ : ∀ id, e.identity? = some id → s₂.registry.get? id = none :=
      fun id hid => h.get?_eq_none (hnew id hid)
    rw [hbind, bind_of_get?_eq_none hnew₂]
    refine ⟨xs ++ [(s₁.names.next, e)], List.prefix_append _ _, h.insert _ e,
      (s₁.names.next, e), List.mem_append_right _ (List.mem_singleton_self _), rfl, ?_⟩
    rw [h.names.next_eq]
    rfl

/-- **The run**: binding a list of elements keeps two scopes in step, and the answers have the same
numbers, all of them numbers of bindings. -/
theorem bindAll (h : s₁.InStep s₂ xs) (es : List Tree) :
    ∃ (xs' : List (Nat × Tree)) (ns : List Nat), xs <+: xs' ∧
      (s₁.bindAll es).2.InStep (s₂.bindAll es).2 xs' ∧ ns ⊆ xs'.map Prod.fst ∧
      (s₁.bindAll es).1 = ns.map (numbered s₁.names.stem) ∧
      (s₂.bindAll es).1 = ns.map (numbered s₂.names.stem) := by
  induction es generalizing s₁ s₂ xs with
  | nil => exact ⟨xs, [], List.prefix_refl xs, h, List.nil_subset _, rfl, rfl⟩
  | cons e es ih =>
    obtain ⟨ys, hxs, hstep, y, hy, hanswer₁, hanswer₂⟩ := h.bind e
    obtain ⟨xs', ns, hys, hrun, hns, hanswers₁, hanswers₂⟩ := ih hstep
    rw [stem_bind] at hanswers₁ hanswers₂
    refine ⟨xs', y.1 :: ns, hxs.trans hys, hrun, List.cons_subset.2 ⟨?_, hns⟩, ?_, ?_⟩
    · exact List.mem_map_of_mem (hys.subset hy)
    · rw [bindAll_cons, hanswer₁, hanswers₁, List.map_cons]
    · rw [bindAll_cons, hanswer₂, hanswers₂, List.map_cons]

/-- **With the same stem, two walks in step leave the same and bind the same.** -/
theorem hoistItems_eq (h : s₁.InStep s₂ xs) (hstem : s₁.names.stem = s₂.names.stem)
    (items : List Tree) :
    (Tree.hoistItems items s₁).1 = (Tree.hoistItems items s₂).1 ∧
      (Tree.hoistItems items s₁).2.registry.bindings.toList =
        (Tree.hoistItems items s₂).2.registry.bindings.toList := by
  obtain ⟨xs', ns, -, hrun, -, hanswers₁, hanswers₂⟩ :=
    h.bindAll ((Tree.sitesOfItems items).map Site.element)
  rw [Tree.hoistItems_eq_fillItems, Tree.hoistItems_eq_fillItems]
  constructor
  · simp only [Tree.references, hanswers₁, hanswers₂, hstem]
  · have hleft := hrun.left
    have hright := hrun.right
    rw [stem_bindAll] at hleft hright
    rw [hleft, hright, hstem]

end InStep

end Scope

/-! ### Modules -/

namespace Hoister

variable {h₁ h₂ : Hoister} {m₁ m₂ : Module}

/-- The scopes for two modules are in step if the same numbers give names that are words. -/
theorem inStep_moduleScope
    (hwords : ∀ n, 1 ≤ n → (numbered h₁.options.stem n ∈ m₁.words ↔
      numbered h₂.options.stem n ∈ m₂.words)) :
    (h₁.moduleScope m₁).InStep (h₂.moduleScope m₂) [] where
  names := ⟨rfl, fun n hn => not_congr (hwords n hn)⟩
  index_eq := rfl
  left := rfl
  right := rfl

end Hoister

end JsxHoist
