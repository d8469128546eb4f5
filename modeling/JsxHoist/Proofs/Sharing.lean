import JsxHoist.Proofs.Sites
import Mathlib.Data.List.Induction

/-!
# Sharing of bindings

Elements with the same span that is not dummy are copies of one node and share a binding. Which
elements of a list get a binding of their own, and which binding stands for which element, is said
here without a registry:

* `originals`: the elements that do not repeat the span of an element before them;
* `standIn?`: the binding for an element, found by its span, or by its number if the span is dummy.

A registry **records** a list of elements (`Registry.Records`) when its bindings are those of the
originals and a look-up finds the first binding for a span. Binding one more element keeps the
registry a record (`Scope.records_bind`), and so does binding a list (`Scope.records_bindAll`); the
name that comes out is that of the stand-in (`Scope.exists_standIn?_of_bindAll`).
-/

namespace JsxHoist

/-- The span that identifies a tree, if it has one. -/
def Tree.identity? (t : Tree) : Option Span :=
  t.span.bind Span.identity?

theorem Tree.identity?_eq_some_iff {t : Tree} {id : Span} :
    t.identity? = some id ↔ t.span = some id ∧ ¬ id.IsDummy := by
  simp only [Tree.identity?, Option.bind_eq_some_iff, Span.identity?_eq_some_iff]
  constructor
  · rintro ⟨s, hs, hd, rfl⟩
    exact ⟨hs, hd⟩
  · rintro ⟨hs, hd⟩
    exact ⟨id, hs, hd, rfl⟩

/-- An element **repeats** a list when its span is not dummy and is that of an element of the
list. -/
def Tree.Repeats (e : Tree) (before : List Tree) : Prop :=
  ∃ b ∈ before, b.identity?.isSome ∧ b.identity? = e.identity?

instance (e : Tree) (before : List Tree) : Decidable (e.Repeats before) :=
  inferInstanceAs (Decidable (∃ _ ∈ _, _))

theorem Tree.repeats_iff {e : Tree} {before : List Tree} {id : Span}
    (he : e.identity? = some id) : e.Repeats before ↔ ∃ b ∈ before, b.identity? = some id := by
  simp only [Tree.Repeats, he]
  refine exists_congr fun b => and_congr_right fun _ => ⟨fun h => h.2, fun h => ⟨?_, h⟩⟩
  rw [h, Option.isSome_some]

theorem Tree.not_repeats_of_identity?_eq_none {e : Tree} (he : e.identity? = none)
    (before : List Tree) : ¬ e.Repeats before := by
  rintro ⟨b, -, hsome, hb⟩
  rw [hb, he] at hsome
  exact Bool.noConfusion hsome

/-! ### Originals -/

/-- The elements of a list that repeat neither another list before it nor what stands before them
in the list itself. -/
def originalsAfter (before : List Tree) : List Tree → List Tree
  | [] => []
  | e :: es =>
    if e.Repeats before then originalsAfter (before ++ [e]) es
    else e :: originalsAfter (before ++ [e]) es

/-- The elements of a list that do not repeat what stands before them. -/
def originals (es : List Tree) : List Tree :=
  originalsAfter [] es

theorem originalsAfter_append (before es fs : List Tree) :
    originalsAfter before (es ++ fs) =
      originalsAfter before es ++ originalsAfter (before ++ es) fs := by
  induction es generalizing before with
  | nil => simp [originalsAfter]
  | cons e es ih =>
    have happ : before ++ e :: es = (before ++ [e]) ++ es := by simp
    rw [List.cons_append, originalsAfter, originalsAfter, ih, happ]
    split
    · rfl
    · rw [List.cons_append]

/-- An element at the end of a list is dropped or kept, and changes nothing else. -/
theorem originals_concat (es : List Tree) (e : Tree) :
    originals (es ++ [e]) = originals es ++ if e.Repeats es then [] else [e] := by
  rw [originals, originalsAfter_append, List.nil_append]
  rfl

theorem mem_of_mem_originals {e : Tree} {es : List Tree} (h : e ∈ originals es) : e ∈ es := by
  induction es using List.reverseRecOn with
  | nil => exact h
  | append_singleton es f ih =>
    rw [originals_concat, List.mem_append] at h
    rw [List.mem_append]
    rcases h with h | h
    · exact Or.inl (ih h)
    · split at h
      · simp at h
      · exact Or.inr h

/-- Originals repeat nothing. -/
theorem originals_originals (es : List Tree) : originals (originals es) = originals es := by
  induction es using List.reverseRecOn with
  | nil => rfl
  | append_singleton es f ih =>
    rw [originals_concat]
    split
    · rw [List.append_nil, ih]
    · next hnew =>
      have hstill : ¬ f.Repeats (originals es) := fun ⟨b, hb, hrep⟩ =>
        hnew ⟨b, mem_of_mem_originals hb, hrep⟩
      rw [originals_concat, ih, if_neg hstill]

theorem length_originalsAfter_le (before es : List Tree) :
    (originalsAfter before es).length ≤ es.length := by
  induction es generalizing before with
  | nil => exact Nat.le_refl _
  | cons e es ih =>
    have hle := ih (before ++ [e])
    rw [originalsAfter]
    split
    · exact Nat.le_succ_of_le hle
    · exact Nat.succ_le_succ hle

/-- A list of which nothing is dropped starts with an original, and nothing is dropped of the
rest. -/
theorem not_repeats_and_originalsAfter_of_cons {before : List Tree} {e : Tree} {es : List Tree}
    (h : originalsAfter before (e :: es) = e :: es) :
    ¬ e.Repeats before ∧ originalsAfter (before ++ [e]) es = es := by
  rw [originalsAfter] at h
  split at h
  · -- what is left of the rest would be longer than the rest
    have hle := length_originalsAfter_le (before ++ [e]) es
    rw [h, List.length_cons] at hle
    exact absurd hle (Nat.not_succ_le_self _)
  · next hnew => exact ⟨hnew, (List.cons.inj h).2⟩

/-- Every span that identifies an element of a list identifies one of its originals. -/
theorem exists_mem_originals {e : Tree} {es : List Tree} {id : Span} (he : e ∈ es)
    (hid : e.identity? = some id) : ∃ o ∈ originals es, o.identity? = some id := by
  induction es using List.reverseRecOn generalizing e with
  | nil => simp at he
  | append_singleton es f ih =>
    simp only [originals_concat, List.mem_append]
    rw [List.mem_append, List.mem_singleton] at he
    -- the last element is an original exactly when its span is new, so ask for the span and not
    -- for the element
    by_cases hes : ∃ b ∈ es, b.identity? = some id
    · obtain ⟨b, hb, hbid⟩ := hes
      obtain ⟨o, ho, hoid⟩ := ih hb hbid
      exact ⟨o, Or.inl ho, hoid⟩
    · rcases he with he | rfl
      · exact absurd ⟨e, he, hid⟩ hes
      · rw [if_neg (mt (Tree.repeats_iff hid).1 hes)]
        exact ⟨e, Or.inr List.mem_cons_self, hid⟩

/-! ### Stand-ins -/

/-- The binding that stands for an element which comes after the elements of a list. An element with
a span that is not dummy has the first binding with that span. Any other element has one of its own,
which comes after the bindings for the list. -/
def standIn? (bs : List Binding) (before : List Tree) (e : Tree) : Option Binding :=
  match e.identity? with
  | some id => bs.find? fun b => b.element.identity? = some id
  | none => bs[(originals before).length]?

theorem mem_of_standIn? {bs : List Binding} {before : List Tree} {e : Tree} {b : Binding}
    (h : standIn? bs before e = some b) : b ∈ bs := by
  unfold standIn? at h
  split at h
  · exact List.mem_of_find?_eq_some h
  · exact List.mem_of_getElem? h

/-- Further bindings change no stand-in. -/
theorem standIn?_of_prefix {bs cs : List Binding} (hpre : bs <+: cs) {before : List Tree}
    {e : Tree} {b : Binding} (h : standIn? bs before e = some b) :
    standIn? cs before e = some b := by
  unfold standIn? at h ⊢
  split at h
  · exact hpre.find?_eq_some h
  · obtain ⟨ds, rfl⟩ := hpre
    rw [List.getElem?_append_left (List.getElem?_eq_some_iff.1 h).1, h]

/-- If elements with the same span that is not dummy are equal, every element is equal to that of
its stand-in. -/
theorem element_eq_of_standIn? {es : List Tree} {bs : List Binding}
    (hbs : bs.map Binding.element = originals es)
    (heq : ∀ e ∈ es, ∀ f ∈ es, ∀ id, e.identity? = some id → f.identity? = some id → e = f)
    {k : Nat} {e : Tree} (he : es[k]? = some e) {b : Binding}
    (h : standIn? bs (es.take k) e = some b) : b.element = e := by
  obtain ⟨hk, hget⟩ := List.getElem?_eq_some_iff.1 he
  rw [standIn?] at h
  split at h
  · next id hid =>
    have hb : b.element ∈ originals es := hbs ▸ List.mem_map_of_mem (List.mem_of_find?_eq_some h)
    have hbid : b.element.identity? = some id := by simpa using List.find?_some h
    exact heq _ (mem_of_mem_originals hb) _ (hget ▸ List.getElem_mem hk) id hbid hid
  · next hid =>
    -- the list is split at the element, which is an original of its own
    have hsplit : es = es.take k ++ e :: es.drop (k + 1) := by
      rw [← hget, List.getElem_cons_drop, List.take_append_drop]
    have hcons : originals es =
        originals (es.take k) ++ e :: originalsAfter (es.take k ++ [e]) (es.drop (k + 1)) := by
      conv => lhs; rw [hsplit, originals, originalsAfter_append, List.nil_append, originalsAfter,
        if_neg (Tree.not_repeats_of_identity?_eq_none hid _)]
      rfl
    have hb : (originals es)[(originals (es.take k)).length]? = some b.element := by
      rw [← hbs, List.getElem?_map, h, Option.map_some]
    rw [hcons, List.getElem?_append_right (Nat.le_refl _), Nat.sub_self] at hb
    exact (Option.some.inj hb).symm

/-! ### Registries as records -/

/-- A registry **records** a list of elements when it has one binding for each original, in order,
and finds the first binding with a span. -/
structure Registry.Records (r : Registry) (es : List Tree) : Prop where
  sound : r.Sound
  elements : r.bindings.toList.map Binding.element = originals es
  get?_eq : ∀ id, r.get? id = r.bindings.toList.find? fun b => b.element.identity? = some id

theorem Registry.records_empty : Registry.Records {} [] where
  sound := Registry.sound_empty
  elements := rfl
  get?_eq _ := rfl

namespace Registry.Records

variable {r : Registry} {es : List Tree} {e : Tree}

/-- A look-up fails exactly when no element of the list has the span. -/
theorem get?_eq_none_iff (h : r.Records es) {id : Span} :
    r.get? id = none ↔ ∀ e ∈ es, e.identity? ≠ some id := by
  rw [h.get?_eq, List.find?_eq_none]
  constructor
  · intro hnone e he hid
    obtain ⟨o, ho, hoid⟩ := exists_mem_originals he hid
    rw [← h.elements, List.mem_map] at ho
    obtain ⟨b, hb, rfl⟩ := ho
    exact hnone b hb (decide_eq_true hoid)
  · intro hnone b hb hid
    have hmem : b.element ∈ originals es := h.elements ▸ List.mem_map_of_mem hb
    exact hnone b.element (mem_of_mem_originals hmem) (of_decide_eq_true hid)

/-- An element that is found is no original. -/
theorem repeats (h : r.Records es) {id : Span} (he : e.identity? = some id) {b : Binding}
    (hb : r.get? id = some b) : e.Repeats es := by
  rw [Tree.repeats_iff he]
  refine Classical.byContradiction fun hno => ?_
  have hnone : r.get? id = none :=
    h.get?_eq_none_iff.2 fun f hf hid => hno ⟨f, hf, hid⟩
  simp [hb] at hnone

/-- An element that is found again changes nothing. -/
theorem concat_of_get?_eq_some (h : r.Records es) {id : Span} (he : e.identity? = some id)
    {b : Binding} (hb : r.get? id = some b) : r.Records (es ++ [e]) where
  sound := h.sound
  elements := by
    rw [originals_concat, if_pos (h.repeats he hb), List.append_nil, h.elements]
  get?_eq := h.get?_eq

/-- An element that is not found is an original. -/
theorem not_repeats (h : r.Records es) (hnew : ∀ id, e.identity? = some id → r.get? id = none) :
    ¬ e.Repeats es := by
  cases he : e.identity? with
  | none => exact Tree.not_repeats_of_identity?_eq_none he es
  | some id =>
    rw [Tree.repeats_iff he]
    rintro ⟨b, hb, hid⟩
    exact h.get?_eq_none_iff.1 (hnew id he) b hb hid

/-- A new binding for an element that is not found makes a record of the longer list. -/
theorem concat_insert (h : r.Records es)
    (hnew : ∀ id, e.identity? = some id → r.get? id = none) (name : String) :
    (r.insert e.identity? ⟨name, e⟩).Records (es ++ [e]) where
  sound := h.sound.insert _ _
  elements := by
    rw [Registry.toList_bindings_insert, List.map_append, h.elements, originals_concat,
      if_neg (h.not_repeats hnew)]
    rfl
  get?_eq id := by
    rw [Registry.toList_bindings_insert, List.find?_append, ← h.get?_eq id]
    by_cases hid : e.identity? = some id
    · rw [hid, Registry.get?_insert_self, hnew id hid]
      simp [hid]
    · rw [Registry.get?_insert_of_ne h.sound hid]
      simp [hid]

end Registry.Records

/-! ### Binding elements -/

namespace Scope

variable {s : Scope} {before : List Tree}

/-- What binding an element can do: find its binding, or make a new one. -/
theorem bind_cases (s : Scope) (e : Tree) :
    (∃ id b, e.identity? = some id ∧ s.registry.get? id = some b ∧ s.bind e = (b.name, s)) ∨
    ((∀ id, e.identity? = some id → s.registry.get? id = none) ∧
      s.bind e = (s.names.fresh.1,
        { registry := s.registry.insert e.identity? ⟨s.names.fresh.1, e⟩
          names := s.names.fresh.2 })) := by
  have hspan : e.span.bind Span.identity? = e.identity? := rfl
  simp only [Scope.bind, hspan]
  cases hb : e.identity?.bind s.registry.get? with
  | some b =>
    obtain ⟨id, hid, hget⟩ := Option.bind_eq_some_iff.1 hb
    exact Or.inl ⟨id, b, hid, hget, rfl⟩
  | none =>
    refine Or.inr ⟨fun id hid => ?_, rfl⟩
    rw [hid] at hb
    exact hb

/-- An element that is found keeps its name, and nothing changes. -/
theorem bind_of_get?_eq_some {e : Tree} {id : Span} {b : Binding} (he : e.identity? = some id)
    (hb : s.registry.get? id = some b) : s.bind e = (b.name, s) := by
  rcases s.bind_cases e with ⟨id', b', hid', hget', hbind⟩ | ⟨hnew, -⟩
  · obtain rfl : id = id' := Option.some.inj (he.symm.trans hid')
    obtain rfl : b = b' := Option.some.inj (hb.symm.trans hget')
    exact hbind
  · rw [hnew id he] at hb
    exact absurd hb (Option.some_ne_none b).symm

/-- An element that is not found gets the next name. -/
theorem bind_of_get?_eq_none {e : Tree}
    (hnew : ∀ id, e.identity? = some id → s.registry.get? id = none) :
    s.bind e = (s.names.fresh.1,
      { registry := s.registry.insert e.identity? ⟨s.names.fresh.1, e⟩
        names := s.names.fresh.2 }) := by
  rcases s.bind_cases e with ⟨id, b, hid, hget, -⟩ | ⟨-, hbind⟩
  · rw [hnew id hid] at hget
    exact absurd hget (Option.some_ne_none b).symm
  · exact hbind

/-- Bindings are only ever added at the end. -/
theorem bindings_prefix_bind (s : Scope) (e : Tree) :
    s.registry.bindings.toList <+: (s.bind e).2.registry.bindings.toList := by
  rcases s.bind_cases e with ⟨id, b, -, -, hbind⟩ | ⟨-, hbind⟩
  · exact ⟨[], by rw [hbind, List.append_nil]⟩
  · rw [hbind, Registry.toList_bindings_insert]
    exact List.prefix_append _ _

theorem bindings_prefix_bindAll (s : Scope) (es : List Tree) :
    s.registry.bindings.toList <+: (s.bindAll es).2.registry.bindings.toList := by
  induction es generalizing s with
  | nil => exact List.prefix_refl _
  | cons e es ih => exact (s.bindings_prefix_bind e).trans (ih _)

/-- **The step**: binding an element makes a record of the list with that element. -/
theorem records_bind (h : s.registry.Records before) (e : Tree) :
    (s.bind e).2.registry.Records (before ++ [e]) := by
  rcases s.bind_cases e with ⟨id, b, hid, hget, hbind⟩ | ⟨hnew, hbind⟩
  · rw [hbind]
    exact h.concat_of_get?_eq_some hid hget
  · rw [hbind]
    exact h.concat_insert hnew _

/-- **The run**: binding a list of elements makes a record of the longer list. -/
theorem records_bindAll (h : s.registry.Records before) (es : List Tree) :
    (s.bindAll es).2.registry.Records (before ++ es) := by
  induction es generalizing s before with
  | nil => simpa using h
  | cons e es ih => simpa using ih (records_bind h e)

/-- **Elements that repeat nothing each get a binding of their own**, under the name that is the
answer for them. -/
theorem names_bindAll_of_originalsAfter (h : s.registry.Records before) {es : List Tree}
    (hes : originalsAfter before es = es) :
    (s.bindAll es).2.registry.bindings.toList.map Binding.name =
      s.registry.bindings.toList.map Binding.name ++ (s.bindAll es).1 := by
  induction es generalizing s before with
  | nil => simp
  | cons e es ih =>
    obtain ⟨he, hrest⟩ := not_repeats_and_originalsAfter_of_cons hes
    rw [bindAll_cons, ih (records_bind h e) hrest]
    rcases s.bind_cases e with ⟨id, b, hid, hget, -⟩ | ⟨-, hbind⟩
    · exact absurd (h.repeats hid hget) he
    · rw [hbind, Registry.toList_bindings_insert]
      simp

/-- The name for an element is that of its stand-in. -/
theorem exists_standIn?_of_bind (h : s.registry.Records before) (e : Tree) :
    ∃ b, standIn? (s.bind e).2.registry.bindings.toList before e = some b ∧
      b.name = (s.bind e).1 := by
  have hrec := records_bind h e
  rcases s.bind_cases e with ⟨id, b, hid, hget, hbind⟩ | ⟨hnew, hbind⟩
  · rw [hbind] at hrec ⊢
    refine ⟨b, ?_, rfl⟩
    rw [standIn?, hid]
    exact (h.get?_eq id).symm.trans hget
  · rw [hbind] at hrec ⊢
    refine ⟨⟨s.names.fresh.1, e⟩, ?_, rfl⟩
    cases hid : e.identity? with
    | some id =>
      rw [hid] at hrec
      rw [standIn?, hid]
      exact (hrec.get?_eq id).symm.trans (Registry.get?_insert_self _ _ _)
    | none =>
      -- the new binding comes right after those for the originals of the list
      have hlen : (originals before).length = s.registry.bindings.toList.length := by
        rw [← h.elements, List.length_map]
      rw [standIn?, hid, Registry.toList_bindings_insert]
      simp only [hlen]
      exact List.getElem?_concat_length

/-- **The names for a list of elements are those of their stand-ins**, and later elements do not
change these. -/
theorem exists_standIn?_of_bindAll (h : s.registry.Records before) {es : List Tree} {k : Nat}
    {e : Tree} {name : String} (he : es[k]? = some e) (hname : (s.bindAll es).1[k]? = some name) :
    ∃ b, standIn? (s.bindAll es).2.registry.bindings.toList (before ++ es.take k) e = some b ∧
      b.name = name := by
  -- on the elements still to be bound; those that are bound join the list of the record
  induction es generalizing s before k with
  | nil => simp at he
  | cons f es ih =>
    cases k with
    | zero =>
      obtain ⟨b, hb, hbname⟩ := exists_standIn?_of_bind h f
      obtain rfl : f = e := by simpa using he
      obtain rfl : (s.bind f).1 = name := by simpa using hname
      refine ⟨b, ?_, hbname⟩
      rw [List.take_zero, List.append_nil]
      exact standIn?_of_prefix (bindings_prefix_bindAll (s.bind f).2 es) hb
    | succ k =>
      simpa using ih (records_bind h f) (by simpa using he) (by simpa using hname)

end Scope

end JsxHoist
