import JsxHoist.Binding

/-!
# The registry of bindings

A registry holds bindings in the order of their creation. A binding may be entered under the span
of the element that it stands for, so that it is found again when a copy of that element turns up;
of several bindings under one span the last is found.
-/

namespace JsxHoist

/-- Bindings in creation order, with an index by span. -/
structure Registry where
  /-- Positions in `bindings`, the last entry first. -/
  index : List (Span × Nat) := []
  bindings : Array Binding := #[]
deriving Inhabited

namespace Registry

/-- The number of bindings. -/
def size (r : Registry) : Nat :=
  r.bindings.size

/-- Adds a binding at the end, and enters it under a span if one is given. -/
def insert (r : Registry) (id? : Option Span) (b : Binding) : Registry where
  index := id?.toList.map (·, r.size) ++ r.index
  bindings := r.bindings.push b

/-- The binding entered under a span. -/
def get? (r : Registry) (id : Span) : Option Binding :=
  (r.index.lookup id).bind fun i => r.bindings[i]?

/-! ### The view by order -/

@[simp]
theorem toList_bindings_insert (r : Registry) (id? : Option Span) (b : Binding) :
    (r.insert id? b).bindings.toList = r.bindings.toList ++ [b] := by
  simp [insert]

@[simp]
theorem size_insert (r : Registry) (id? : Option Span) (b : Binding) :
    (r.insert id? b).size = r.size + 1 := by
  simp [insert, size]

/-- A new binding stands behind all others, which keep their places. -/
theorem getElem?_bindings_insert (r : Registry) (id? : Option Span) (b : Binding) (i : Nat) :
    (r.insert id? b).bindings[i]? = if i = r.size then some b else r.bindings[i]? :=
  Array.getElem?_push

/-! ### The view by span -/

/-- **Soundness**: every entry of the index points at a binding. -/
def Sound (r : Registry) : Prop :=
  ∀ e ∈ r.index, e.2 < r.size

theorem sound_empty : Sound {} := by
  simp [Sound]

theorem Sound.insert {r : Registry} (h : r.Sound) (id? : Option Span) (b : Binding) :
    (r.insert id? b).Sound := by
  intro e he
  rw [size_insert]
  simp only [Registry.insert, List.mem_append, List.mem_map] at he
  rcases he with ⟨_, _, rfl⟩ | he
  · exact Nat.lt_succ_self _
  · exact Nat.lt_succ_of_lt (h e he)

@[simp]
theorem get?_empty (id : Span) : get? {} id = none := rfl

@[simp]
theorem get?_insert_self (r : Registry) (id : Span) (b : Binding) :
    (r.insert (some id) b).get? id = some b := by
  simp [insert, get?, size]

/-- A new entry is the one that is found under its span, and hides no other. -/
theorem lookup_index_insert (r : Registry) (id? : Option Span) (b : Binding) (id : Span) :
    (r.insert id? b).index.lookup id =
      if id? = some id then some r.size else r.index.lookup id := by
  cases id? with
  | none => simp [insert]
  | some j =>
    by_cases hij : j = id
    · simp [insert, hij]
    · have hne : (id == j) = false := beq_false_of_ne fun e => hij e.symm
      simp [insert, List.lookup_cons, hne, hij]

/-- An entry hides no entry under another span. -/
theorem get?_insert_of_ne {r : Registry} (h : r.Sound) {id? : Option Span} {id : Span}
    (hne : id? ≠ some id) (b : Binding) : (r.insert id? b).get? id = r.get? id := by
  rw [get?, get?, lookup_index_insert, if_neg hne]
  cases hi : r.index.lookup id with
  | none => rfl
  | some i =>
    obtain ⟨l₁, l₂, hl, -⟩ := List.lookup_eq_some_iff.1 hi
    have hlt : i < r.size := h (id, i) (by simp [hl])
    simp [getElem?_bindings_insert, Nat.ne_of_lt hlt]

end Registry

end JsxHoist
