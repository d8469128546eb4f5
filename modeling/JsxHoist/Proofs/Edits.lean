import JsxHoist.Proofs.Lockstep

/-!
# Hoisting under edits

How the outcome for a module changes when the module is edited behind its anchor.

* A **copy** of an item, anywhere behind the item, makes no new binding
  (`Hoister.visitModule_insert_copy`): each element in it is found again, under the name that it got
  the first time, whatever was bound in between (`Scope.bindAll_again`).
* Items **appended** to a module leave what is there as it is (`Hoister.visitModule_append_items`): the
  walk comes to them last, and bindings are only ever added.

In both cases the words of the module change, and with them the names that are taken. The two walks
are in step all the same, as long as the same numbers are free.
-/

namespace JsxHoist

/-! ### Binding again -/

namespace Scope

variable {s : Scope} {before : List Tree}

/-- What is found in a scope is found as long as the scope is used. -/
theorem get?_bindAll (h : s.registry.Records before) {id : Span} {b : Binding}
    (hb : s.registry.get? id = some b) (es : List Tree) :
    (s.bindAll es).2.registry.get? id = some b := by
  rw [h.get?_eq] at hb
  rw [(records_bindAll h es).get?_eq]
  exact (s.bindings_prefix_bindAll es).find?_eq_some hb

/-- An element that has been bound is found, with the name that was the answer for it. -/
theorem exists_get?_bind {e : Tree} {id : Span} (he : e.identity? = some id) :
    ∃ b, (s.bind e).2.registry.get? id = some b ∧ b.name = (s.bind e).1 := by
  rcases s.bind_cases e with ⟨id', b, hid', hget, hbind⟩ | ⟨-, hbind⟩
  · obtain rfl : id = id' := Option.some.inj (he.symm.trans hid')
    rw [hbind]
    exact ⟨b, hget, rfl⟩
  · rw [hbind, he]
    exact ⟨_, Registry.get?_insert_self _ _ _, rfl⟩

/-- **Binding again changes nothing**: if spans tell all elements of a list apart from others, and
they have been bound, then whatever has been bound since, they have the same names as before. -/
theorem bindAll_again (h : s.registry.Records before) {es : List Tree}
    (hes : ∀ e ∈ es, e.identity?.isSome) (fs : List Tree) :
    ((s.bindAll es).2.bindAll fs).2.bindAll es =
      ((s.bindAll es).1, ((s.bindAll es).2.bindAll fs).2) := by
  induction es generalizing s before with
  | nil => rfl
  | cons e es ih =>
    obtain ⟨id, hid⟩ := Option.isSome_iff_exists.1 (hes e List.mem_cons_self)
    obtain ⟨b, hb, hname⟩ := exists_get?_bind (s := s) hid
    have hrec := records_bind h e
    -- the first element is still there after the others and all that came since
    have hfound : (((s.bind e).2.bindAll es).2.bindAll fs).2.registry.get? id = some b := by
      have hkept := get?_bindAll hrec hb (es ++ fs)
      rwa [bindAll_append] at hkept
    have hrest := ih hrec fun f hf => hes f (List.mem_cons_of_mem e hf)
    rw [bindAll_cons, bindAll_cons, bind_of_get?_eq_some hid hfound, hrest, hname]

end Scope

namespace Tree

variable {s : Scope} {before : List Tree}

theorem records_hoistItems (h : s.registry.Records before) (items : List Tree) :
    (hoistItems items s).2.registry.Records
      (before ++ (sitesOfItems items).map Site.element) := by
  rw [hoistItems_eq_fillItems]
  exact Scope.records_bindAll h _

theorem bindings_prefix_hoistItems (items : List Tree) (s : Scope) :
    s.registry.bindings.toList <+: (hoistItems items s).2.registry.bindings.toList := by
  rw [hoistItems_eq_fillItems]
  exact s.bindings_prefix_bindAll _

/-- A walk over a tree comes to no element without a place in the source. -/
def Placed (slot : Slot) (t : Tree) : Prop :=
  ∀ site ∈ t.sites slot, ∃ span, site.element.span = some span ∧ ¬ span.IsDummy

/-- **Walking again** over a tree, after a walk over other items, leaves the same and keeps the
scope. -/
theorem hoist_again (h : s.registry.Records before) {t : Tree} {slot : Slot}
    (ht : t.Placed slot) (items : List Tree) :
    t.hoist slot (hoistItems items (t.hoist slot s).2).2 =
      ((t.hoist slot s).1, (hoistItems items (t.hoist slot s).2).2) := by
  have hplaced : ∀ e ∈ (t.sites slot).map Site.element, e.identity?.isSome := by
    intro e he
    obtain ⟨site, hsite, rfl⟩ := List.mem_map.1 he
    obtain ⟨span, hspan, hdummy⟩ := ht site hsite
    rw [identity?_eq_some_iff.2 ⟨hspan, hdummy⟩, Option.isSome_some]
  have hagain := Scope.bindAll_again h hplaced ((sitesOfItems items).map Site.element)
  simp only [hoist_eq_fill, hoistItems_eq_fillItems, references, hagain]

/-- A copy of an item in a list makes no difference to what becomes of the others, and none to the
scope. -/
theorem exists_hoistItems_insert_copy (h : s.registry.Records before) {t : Tree}
    (ht : t.Placed (.item "body")) (first between last : List Tree) :
    ∃ (first' : List Tree) (t' : Tree) (between' last' : List Tree) (s' : Scope),
      first'.length = first.length ∧ between'.length = between.length ∧
      last'.length = last.length ∧
      hoistItems (first ++ t :: (between ++ last)) s =
        (first' ++ t' :: (between' ++ last'), s') ∧
      hoistItems (first ++ t :: (between ++ t :: last)) s =
        (first' ++ t' :: (between' ++ t' :: last'), s') := by
  have hcopy := hoist_again (records_hoistItems h first) ht between
  -- the scopes behind the first items, behind the item itself and behind those in between
  let s₁ := (hoistItems first s).2
  let s₂ := (t.hoist (.item "body") s₁).2
  let s₃ := (hoistItems between s₂).2
  refine ⟨(hoistItems first s).1, (t.hoist (.item "body") s₁).1, (hoistItems between s₂).1,
    (hoistItems last s₃).1, (hoistItems last s₃).2, length_hoistItems first s,
    length_hoistItems between s₂, length_hoistItems last s₃, ?_, ?_⟩
  · rw [hoistItems_append, hoistItems_cons, hoistItems_append]
  · rw [hoistItems_append, hoistItems_cons, hoistItems_append, hoistItems_cons, hcopy]

end Tree

/-! ### Modules -/

/-- The words of a module are those of its items, however often an item occurs. -/
theorem Module.mem_words_congr {m m' : Module} (h : ∀ t, t ∈ m.body ↔ t ∈ m'.body) (w : String) :
    w ∈ m.words ↔ w ∈ m'.words := by
  rw [Module.words, Module.words, List.mem_flatMap, List.mem_flatMap]
  exact exists_congr fun t => and_congr_left fun _ => h t

namespace Hoister

variable {h : Hoister} {m : Module} {i : Nat}

/-- The outcome for a module with other items behind the same anchor. -/
theorem result_visitModule_of_hoistItems
    (hi : anchor? h.options.importSource m.body = some i) {items items' : List Tree} {s : Scope}
    (hwalk : Tree.hoistItems items
      (h.moduleScope { m with body := m.body.take (i + 1) ++ items }) = (items', s)) :
    (h.visitModule { m with body := m.body.take (i + 1) ++ items }).result =
      { m with
        body := m.body.take (i + 1) ++
          s.registry.bindings.toList.map (Binding.declaration h.options.declarationKind) ++
          items' } := by
  have hlen := length_take_of_anchor? hi
  have hdrop : (m.body.take (i + 1) ++ items).drop (i + 1) = items := List.drop_left' hlen
  have htake : (m.body.take (i + 1) ++ items).take (i + 1) = m.body.take (i + 1) :=
    List.take_left' hlen
  rw [result_visitModule (anchor?_take_append hi items), declarations, bindings, tail, walk]
  simp only [hdrop, htake, hwalk]

/-- **A copy of an item costs no new binding.** Let the walk over an item `t` behind the anchor of a
module come to no element without a place in the source. When a copy of `t` is inserted anywhere
behind `t`, the same bindings are declared as before, every other item becomes what it became, and
the copy becomes what `t` becomes. -/
theorem visitModule_insert_copy (hi : anchor? h.options.importSource m.body = some i)
    {t : Tree} {first between last : List Tree}
    (hitems : m.body.drop (i + 1) = first ++ t :: (between ++ last))
    (ht : t.Placed (.item "body")) :
    ∃ (bs : List Binding) (t' : Tree) (first' between' last' : List Tree),
      first'.length = first.length ∧ between'.length = between.length ∧
      last'.length = last.length ∧
      (h.visitModule m).result =
        { m with
          body := m.body.take (i + 1) ++
            bs.map (Binding.declaration h.options.declarationKind) ++
            (first' ++ t' :: (between' ++ last')) } ∧
      (h.visitModule
          { m with
            body := m.body.take (i + 1) ++ (first ++ t :: (between ++ t :: last)) }).result =
        { m with
          body := m.body.take (i + 1) ++
            bs.map (Binding.declaration h.options.declarationKind) ++
            (first' ++ t' :: (between' ++ t' :: last')) } := by
  let m' : Module :=
    { m with body := m.body.take (i + 1) ++ (first ++ t :: (between ++ t :: last)) }
  have hbody : m.body = m.body.take (i + 1) ++ (first ++ t :: (between ++ last)) := by
    rw [← hitems, List.take_append_drop]
  have hwords : ∀ w, w ∈ m'.words ↔ w ∈ m.words := by
    refine Module.mem_words_congr fun u => ?_
    rw [hbody]
    simp only [m', List.mem_append, List.mem_cons]
    tauto
  obtain ⟨first', t', between', last', s', hfirst, hbetween, hlast, hwalk, hwalk'⟩ :=
    Tree.exists_hoistItems_insert_copy (s := h.moduleScope m') Registry.records_empty ht first
      between last
  have hstep : (h.moduleScope m').InStep (h.moduleScope m) [] :=
    inStep_moduleScope fun n _ => hwords _
  obtain ⟨htail, hbindings⟩ := hstep.hoistItems_eq rfl (m.body.drop (i + 1))
  rw [hitems, hwalk, ← hitems] at htail hbindings
  refine ⟨s'.registry.bindings.toList, t', first', between', last', hfirst, hbetween, hlast, ?_,
    result_visitModule_of_hoistItems hi hwalk'⟩
  rw [result_visitModule hi, declarations, bindings, tail, walk, ← htail, ← hbindings]

/-- **Appended items change nothing that is there.** If no name that could be made up is a word of
the appended items without being one of the module, the module with the items appended becomes what
it becomes without them, with further declarations behind those that it has and with as many items
at its end as were appended. -/
theorem visitModule_append_items (hi : anchor? h.options.importSource m.body = some i)
    {items : List Tree}
    (hwords : ∀ n, 1 ≤ n →
      (numbered h.options.stem n ∈ ({ m with body := m.body ++ items } : Module).words ↔
        numbered h.options.stem n ∈ m.words)) :
    ∃ (bs bs' : List Binding) (tail items' : List Tree),
      tail.length = (m.body.drop (i + 1)).length ∧ items'.length = items.length ∧
      (h.visitModule m).result =
        { m with
          body := m.body.take (i + 1) ++
            bs.map (Binding.declaration h.options.declarationKind) ++ tail } ∧
      (h.visitModule { m with body := m.body ++ items }).result =
        { m with
          body := m.body.take (i + 1) ++
            bs.map (Binding.declaration h.options.declarationKind) ++
            bs'.map (Binding.declaration h.options.declarationKind) ++ tail ++ items' } := by
  have hbody : m.body ++ items = m.body.take (i + 1) ++ (m.body.drop (i + 1) ++ items) := by
    rw [← List.append_assoc, List.take_append_drop]
  rw [hbody] at hwords ⊢
  let s := h.moduleScope
    { m with body := m.body.take (i + 1) ++ (m.body.drop (i + 1) ++ items) }
  -- up to the appended items, the walk is in step with the one over the module as it was
  have hstep : s.InStep (h.moduleScope m) [] := inStep_moduleScope hwords
  obtain ⟨htail, hbindings⟩ := hstep.hoistItems_eq rfl (m.body.drop (i + 1))
  let s' := (Tree.hoistItems (m.body.drop (i + 1)) s).2
  obtain ⟨bs', hbs'⟩ := Tree.bindings_prefix_hoistItems items s'
  have hwalk := Tree.hoistItems_append (m.body.drop (i + 1)) items s
  refine ⟨h.bindings m i, bs', h.tail m i, (Tree.hoistItems items s').1, h.length_tail m i,
    Tree.length_hoistItems items s', result_visitModule hi, ?_⟩
  rw [result_visitModule_of_hoistItems hi hwalk, ← hbs', hbindings, htail, List.map_append]
  simp only [List.append_assoc]
  rfl

end Hoister

/-! #### Edits of the sample -/

/-- A statement that is an expression. -/
def Tree.statement (t : Tree) : Tree :=
  .node ⟨.expressionStatement, none, []⟩ [(.single "expression", t)]

/-- The sample with two more items: a line break with a place in the source, and one without. -/
def Module.sampleWithBreaks : Module where
  body := Module.sample.body ++
    [.statement (.lineBreak ⟨30, 36⟩), .statement (.lineBreak .zero)]

namespace Hoister

/-- A copy of the line break that has a place, inserted behind the one that has none. -/
theorem visitModule_insert_copy_sample :
    (Tree.statement (.lineBreak ⟨30, 36⟩)).Placed (.item "body") ∧
    ∃ (bs : List Binding) (t' : Tree) (first' between' : List Tree),
      first'.length = 1 ∧ between'.length = 1 ∧
      (({ options := {} } : Hoister).visitModule Module.sampleWithBreaks).result =
        { Module.sampleWithBreaks with
          body := Module.sample.body.take 1 ++ bs.map (Binding.declaration .var) ++
            (first' ++ t' :: between') } ∧
      (({ options := {} } : Hoister).visitModule
          { Module.sampleWithBreaks with
            body := Module.sampleWithBreaks.body ++
              [.statement (.lineBreak ⟨30, 36⟩)] }).result =
        { Module.sampleWithBreaks with
          body := Module.sample.body.take 1 ++ bs.map (Binding.declaration .var) ++
            (first' ++ t' :: (between' ++ [t'])) } := by
  have hplaced : (Tree.statement (.lineBreak ⟨30, 36⟩)).Placed (.item "body") := by
    intro site hsite
    obtain rfl : site = ⟨.single "expression", .lineBreak ⟨30, 36⟩⟩ := List.mem_singleton.1 hsite
    exact ⟨⟨30, 36⟩, rfl, by decide⟩
  have hitems : Module.sampleWithBreaks.body.drop 1 = Module.sample.body.drop 1 ++
      .statement (.lineBreak ⟨30, 36⟩) :: ([.statement (.lineBreak .zero)] ++ []) := rfl
  obtain ⟨bs, t', first', between', last', hfirst, hbetween, hlast, hresult, hresult'⟩ :=
    visitModule_insert_copy (h := { options := {} }) (by decide) hitems hplaced
  obtain rfl := List.eq_nil_of_length_eq_zero hlast
  rw [List.append_nil] at hresult
  exact ⟨hplaced, bs, t', first', between', hfirst, hbetween, hresult, hresult'⟩

/-- Two line breaks appended to the sample: a new one, and a copy of one that the sample has. -/
theorem visitModule_append_items_sample :
    let items : List Tree := [.statement (.lineBreak ⟨30, 36⟩), .statement (.lineBreak ⟨10, 16⟩)]
    (∀ n, 1 ≤ n →
      (numbered "hoisted_constant_element" n ∈
          ({ Module.sample with body := Module.sample.body ++ items } : Module).words ↔
        numbered "hoisted_constant_element" n ∈ Module.sample.words)) ∧
    ∃ (bs bs' : List Binding) (tail items' : List Tree),
      tail.length = 1 ∧ items'.length = 2 ∧
      (({ options := {} } : Hoister).visitModule Module.sample).result =
        { Module.sample with
          body := Module.sample.body.take 1 ++ bs.map (Binding.declaration .var) ++ tail } ∧
      (({ options := {} } : Hoister).visitModule
          { Module.sample with body := Module.sample.body ++ items }).result =
        { Module.sample with
          body := Module.sample.body.take 1 ++ bs.map (Binding.declaration .var) ++
            bs'.map (Binding.declaration .var) ++ tail ++ items' } := by
  intro items
  -- the appended items use one word, which is a word of the sample
  have hwords : ∀ w, w ∈ ({ Module.sample with body := Module.sample.body ++ items } : Module).words ↔
      w ∈ Module.sample.words := by
    intro w
    have happ : ({ Module.sample with body := Module.sample.body ++ items } : Module).words =
        Module.sample.words ++ ["br", "br"] := rfl
    rw [happ, List.mem_append, or_iff_left_of_imp]
    intro hw
    obtain rfl : w = "br" := by simpa using hw
    decide
  refine ⟨fun n _ => hwords _, ?_⟩
  exact visitModule_append_items (h := { options := {} }) anchor?_sample fun n _ => hwords _

end Hoister

end JsxHoist
