import JsxHoist.Registry
import Mathlib.Data.List.Basic
import Mathlib.Data.List.Induction

/-!
# Registries after any insertions

A registry takes any binding under any span, or under none: the span need not be that of the
element, and it may have been used before. Here is what a registry holds after a list of such
insertions (`Registry.insertAll`), whoever makes them.

The index keeps numbers, and a number is taken from the size that the registry has at the time.
An entry may be hidden by a later one, while the bindings only get more. So two things have to be
carried along (`Registry.Holds`): every number in the index stays the number of a binding, and what
is found under a span is the binding of the **last** insertion under it (`LastUnder`). One more
insertion keeps both (`Registry.Holds.insert`), hence so does a list (`Registry.Holds.insertAll`).
-/

namespace JsxHoist

/-- An insertion into a registry. -/
structure Insertion where
  /-- The span that the binding is entered under, if any. -/
  id? : Option Span
  binding : Binding

/-! ### The last insertion under a span -/

/-- The last insertion under a span has the given binding. -/
def LastUnder (id : Span) (b : Binding) (cs : List Insertion) : Prop :=
  ∃ before after, cs = before ++ ⟨some id, b⟩ :: after ∧ ∀ c ∈ after, c.id? ≠ some id

theorem not_lastUnder_nil (id : Span) (b : Binding) : ¬ LastUnder id b [] := by
  rintro ⟨before, after, hsplit, -⟩
  exact List.append_ne_nil_of_right_ne_nil before (List.cons_ne_nil _ after) hsplit.symm

/-- The last insertion of a longer list is the new one, if that is under the span, and else it is
the same as before. -/
theorem lastUnder_concat_iff {id : Span} {b : Binding} {cs : List Insertion} {c : Insertion} :
    LastUnder id b (cs ++ [c]) ↔ c = ⟨some id, b⟩ ∨ c.id? ≠ some id ∧ LastUnder id b cs := by
  constructor
  · rintro ⟨before, after, hsplit, hafter⟩
    rcases List.eq_nil_or_concat' after with rfl | ⟨after', d, rfl⟩
    · have hlast := (List.append_inj' hsplit rfl).2
      exact Or.inl (List.cons.inj hlast).1
    · -- the new insertion is among those that come after
      rw [← List.cons_append, ← List.append_assoc] at hsplit
      obtain ⟨hinit, hlast⟩ := List.append_inj' hsplit rfl
      obtain rfl : c = d := (List.cons.inj hlast).1
      exact Or.inr ⟨hafter c (by simp), before, after', hinit,
        fun e he => hafter e (by simp [he])⟩
  · rintro (rfl | ⟨hne, before, after, rfl, hafter⟩)
    · exact ⟨cs, [], rfl, by simp⟩
    · refine ⟨before, after ++ [c], by simp, fun e he => ?_⟩
      rcases List.mem_append.1 he with he | he
      · exact hafter e he
      · rw [List.mem_singleton.1 he]
        exact hne

/-- There is a last insertion under a span as soon as there is one. -/
theorem exists_lastUnder_iff {id : Span} {cs : List Insertion} :
    (∃ b, LastUnder id b cs) ↔ ∃ c ∈ cs, c.id? = some id := by
  constructor
  · rintro ⟨b, before, after, rfl, -⟩
    exact ⟨⟨some id, b⟩, by simp, rfl⟩
  · rintro ⟨c, hc, hid⟩
    induction cs using List.reverseRecOn with
    | nil => exact absurd hc List.not_mem_nil
    | append_singleton cs d ih =>
      simp only [lastUnder_concat_iff]
      by_cases hd : d.id? = some id
      · exact ⟨d.binding, Or.inl (by rw [← hd])⟩
      · have hmem : c ∈ cs := by
          rcases List.mem_append.1 hc with hc | hc
          · exact hc
          · exact absurd (List.mem_singleton.1 hc ▸ hid) hd
        obtain ⟨b, hb⟩ := ih hmem
        exact ⟨b, Or.inr ⟨hd, hb⟩⟩

/-! ### Registries -/

namespace Registry

/-- Makes insertions one after the other. -/
def insertAll (r : Registry) (cs : List Insertion) : Registry :=
  cs.foldl (fun r c => r.insert c.id? c.binding) r

@[simp]
theorem insertAll_nil (r : Registry) : r.insertAll [] = r := rfl

@[simp]
theorem insertAll_cons (r : Registry) (c : Insertion) (cs : List Insertion) :
    r.insertAll (c :: cs) = (r.insert c.id? c.binding).insertAll cs := rfl

/-- A registry **holds** a list of insertions when its bindings are theirs, in order, its index
points at bindings, and what is found under a span comes from the last insertion under it. -/
structure Holds (r : Registry) (cs : List Insertion) : Prop where
  sound : r.Sound
  bindings_eq : r.bindings.toList = cs.map Insertion.binding
  get?_eq_some_iff : ∀ id b, r.get? id = some b ↔ LastUnder id b cs

theorem holds_empty : Holds {} [] where
  sound := sound_empty
  bindings_eq := rfl
  get?_eq_some_iff id b := by
    rw [get?_empty]
    exact iff_of_false (Option.some_ne_none b).symm (not_lastUnder_nil id b)

namespace Holds

variable {r : Registry} {cs : List Insertion}

/-- **The step**: a registry that holds a list of insertions holds one more when it is made. -/
theorem insert (h : r.Holds cs) (c : Insertion) :
    (r.insert c.id? c.binding).Holds (cs ++ [c]) where
  sound := h.sound.insert _ _
  bindings_eq := by
    rw [toList_bindings_insert, h.bindings_eq, List.map_append]
    rfl
  get?_eq_some_iff id b := by
    rw [lastUnder_concat_iff, ← h.get?_eq_some_iff]
    obtain ⟨id?, b'⟩ := c
    by_cases hid : id? = some id
    · simp [hid, eq_comm]
    · rw [get?_insert_of_ne h.sound hid]
      simp [hid]

/-- **The run**: a registry holds the insertions that it held and all that are made. -/
theorem insertAll (h : r.Holds cs) (ds : List Insertion) : (r.insertAll ds).Holds (cs ++ ds) := by
  induction ds generalizing r cs with
  | nil =>
    rw [insertAll_nil, List.append_nil]
    exact h
  | cons d ds ih =>
    rw [insertAll_cons, List.append_cons]
    exact ih (h.insert d)

theorem size_eq (h : r.Holds cs) : r.size = cs.length := by
  rw [size, ← Array.length_toList, h.bindings_eq, List.length_map]

theorem get?_eq_none_iff (h : r.Holds cs) {id : Span} :
    r.get? id = none ↔ ∀ c ∈ cs, c.id? ≠ some id := by
  have hsome : (∃ b, r.get? id = some b) ↔ ∃ c ∈ cs, c.id? = some id := by
    simp only [h.get?_eq_some_iff, exists_lastUnder_iff]
  constructor
  · intro hnone c hc hid
    obtain ⟨b, hb⟩ := hsome.2 ⟨c, hc, hid⟩
    rw [hnone] at hb
    exact Option.some_ne_none b hb.symm
  · intro hnever
    refine Option.eq_none_iff_forall_ne_some.2 fun b hb => ?_
    obtain ⟨c, hc, hid⟩ := hsome.1 ⟨b, hb⟩
    exact hnever c hc hid

end Holds

/-- A number in the index of a sound registry is that of the binding that is found. -/
theorem Sound.exists_get?_eq {r : Registry} (h : r.Sound) {id : Span} {k : Nat}
    (hk : r.index.lookup id = some k) :
    ∃ hlt : k < r.bindings.size, r.get? id = some r.bindings[k] := by
  obtain ⟨l₁, l₂, hl, -⟩ := List.lookup_eq_some_iff.1 hk
  have hlt : k < r.bindings.size := h (id, k) (by simp [hl])
  refine ⟨hlt, ?_⟩
  rw [get?, hk, Option.bind_some, Array.getElem?_eq_getElem hlt]

/-- **Whatever is inserted, the last insertion wins.** After any insertions into an empty registry,
its bindings are those inserted, in order and with none left out. Under a span it finds the binding
of the last insertion under that span, and nothing if there was none. The number that it looks up
to this end is always the number of a binding. -/
theorem insertAll_last_wins (cs : List Insertion) :
    (insertAll {} cs).bindings.toList = cs.map Insertion.binding ∧
      (insertAll {} cs).size = cs.length ∧
      (∀ id b, (insertAll {} cs).get? id = some b ↔
        ∃ before after, cs = before ++ ⟨some id, b⟩ :: after ∧ ∀ c ∈ after, c.id? ≠ some id) ∧
      (∀ id, (insertAll {} cs).get? id = none ↔ ∀ c ∈ cs, c.id? ≠ some id) ∧
      ∀ id k, (insertAll {} cs).index.lookup id = some k →
        ∃ hlt : k < (insertAll {} cs).bindings.size,
          (insertAll {} cs).get? id = some (insertAll {} cs).bindings[k] := by
  have hholds : (insertAll {} cs).Holds cs := holds_empty.insertAll cs
  refine ⟨hholds.bindings_eq, hholds.size_eq, hholds.get?_eq_some_iff, fun id => ?_, ?_⟩
  · exact hholds.get?_eq_none_iff
  · intro id k hk
    exact hholds.sound.exists_get?_eq hk

/-- Of two bindings under one span the second is found, and both are kept. -/
example (e : Tree) :
    let r := insertAll {} [⟨some ⟨10, 16⟩, "a", e⟩, ⟨some ⟨10, 16⟩, "b", e⟩, ⟨none, "c", e⟩]
    r.get? ⟨10, 16⟩ = some ⟨"b", e⟩ ∧ r.bindings = #[⟨"a", e⟩, ⟨"b", e⟩, ⟨"c", e⟩] :=
  ⟨rfl, rfl⟩

end Registry

end JsxHoist
