import JsxHoist.Proofs.Exhaustion

/-!
# A second run

Hoisting in a module that has been hoisted before finds the declarations of the first run behind the
anchor, and nothing else: a walk leaves alone what a walk has made (`Tree.hoist_hoist`). The
elements that are declared share no span, since the first run declared originals only, so that the
second run declares each of them once more, under a new name, and the old declarations refer to the
new ones (`Hoister.visitModule_twice`).
-/

namespace JsxHoist

/-! ### Walking twice -/

namespace Tree

/-- A reference holds nothing to hoist. -/
theorem hoist_reference (slot slot' : Slot) (name : String) (span : Option Span) (s : Scope) :
    (slot'.reference name span).hoist slot s = (slot'.reference name span, s) := by
  cases slot' <;> rfl

mutual

/-- **A second walk changes nothing**, neither the tree nor the scope. -/
theorem hoist_hoist (slot : Slot) (s s' : Scope) : ∀ t : Tree,
    (t.hoist slot s).1.hoist slot s' = ((t.hoist slot s).1, s')
  | node l ps => by
    by_cases hc : (node l ps).isConstantElement
    · rw [hoist_of_isConstantElement hc, hoist_reference]
    · have hc' := not_isConstantElement_hoist hc slot s
      rw [hoist_node hc] at hc' ⊢
      rw [hoist_node hc', hoistParts_hoistParts s s' ps]

theorem hoistParts_hoistParts (s s' : Scope) : ∀ ps : List (Slot × Tree),
    hoistParts (hoistParts ps s).1 s' = ((hoistParts ps s).1, s')
  | [] => rfl
  | (slot, t) :: ps => by
    rw [hoistParts_cons, hoistParts_cons, hoist_hoist slot s s' t,
      hoistParts_hoistParts (t.hoist slot s).2 s' ps]

end

theorem hoistItems_hoistItems (items : List Tree) (s s' : Scope) :
    hoistItems (hoistItems items s).1 s' = ((hoistItems items s).1, s') := by
  induction items generalizing s with
  | nil => rfl
  | cons t ts ih => rw [hoistItems_cons, hoistItems_cons, hoist_hoist, ih]

end Tree

/-! ### Walking over declarations -/

/-- The binding with a use of another name in place of its element. -/
def Binding.redirect (b : Binding) (name : String) : Binding where
  name := b.name
  element := Tree.mention name b.element.span

/-- The declaration of such a binding has an identifier in the place of the element. -/
theorem Binding.declares_redirect (b : Binding) (name : String) (kind : DeclarationKind) :
    ∃ ref : Tree, ref.Mentions name b.element.span ∧
      ((b.redirect name).declaration kind).Declares kind.keyword b.name ref :=
  ⟨Tree.mention name b.element.span, Tree.mentions_iff.2 rfl,
    (b.redirect name).declares_declaration kind⟩

/-- In a declaration, the walk finds the element that is declared. -/
theorem Binding.hoist_declaration {b : Binding} (hb : b.element.isConstantElement)
    (kind : DeclarationKind) (slot : Slot) (s : Scope) :
    (b.declaration kind).hoist slot s =
      ((b.redirect (s.bind b.element).1).declaration kind, (s.bind b.element).2) := by
  -- neither the declaration nor its declarator nor the name is an element
  have hhoist : (b.declaration kind).hoist slot s =
      (.node (b.declaration kind).label [(.item "declarations",
        .node ⟨.other "VariableDeclarator", some .zero, [("definite", .bool false)]⟩
          [(.single "id", b.declaredName),
            (.single "init", (b.element.hoist (.single "init") s).1)])],
        (b.element.hoist (.single "init") s).2) := rfl
  rw [hhoist, Tree.hoist_of_isConstantElement hb]
  rfl

/-- The walk over a list of declarations binds the elements that they declare. -/
theorem hoistItems_declarations {bs : List Binding} (hbs : ∀ b ∈ bs, b.element.isConstantElement)
    (kind : DeclarationKind) (s : Scope) :
    Tree.hoistItems (bs.map (Binding.declaration kind)) s =
      (List.zipWith (fun b name => (b.redirect name).declaration kind) bs
          (s.bindAll (bs.map Binding.element)).1,
        (s.bindAll (bs.map Binding.element)).2) := by
  induction bs generalizing s with
  | nil => rfl
  | cons b bs ih =>
    have hb := hbs b List.mem_cons_self
    have hrest : ∀ c ∈ bs, c.element.isConstantElement :=
      fun c hc => hbs c (List.mem_cons_of_mem _ hc)
    rw [List.map_cons, Tree.hoistItems_cons, Binding.hoist_declaration hb, ih hrest]
    rfl

/-! ### Modules -/

namespace Hoister

variable {h h' : Hoister} {m : Module} {i : Nat}

/-- **The second walk** binds the elements that the first run declared, and leaves the items after
the declarations as they are. -/
theorem walk_visitModule (hi : anchor? h.options.importSource m.body = some i) (h' : Hoister) :
    h'.walk (h.visitModule m).result i =
      (List.zipWith (fun b name => (b.redirect name).declaration h.options.declarationKind)
          (h.bindings m i)
          ((h'.moduleScope (h.visitModule m).result).bindAll
            ((h.bindings m i).map Binding.element)).1 ++ h.tail m i,
        ((h'.moduleScope (h.visitModule m).result).bindAll
          ((h.bindings m i).map Binding.element)).2) := by
  rw [walk, drop_body_visitModule hi, Tree.hoistItems_append, declarations,
    hoistItems_declarations fun b hb => isConstantElement_of_mem_bindings hb, tail, walk,
    Tree.hoistItems_hoistItems]

/-- The elements that are declared repeat nothing. -/
theorem originals_elements_bindings :
    originals ((h.bindings m i).map Binding.element) = (h.bindings m i).map Binding.element := by
  rw [elements_bindings, originals_originals]

theorem elements_bindings_visitModule (hi : anchor? h.options.importSource m.body = some i)
    (h' : Hoister) :
    (h'.bindings (h.visitModule m).result i).map Binding.element =
      (h.bindings m i).map Binding.element := by
  have hrec := Scope.records_bindAll (s := h'.moduleScope (h.visitModule m).result)
    Registry.records_empty ((h.bindings m i).map Binding.element)
  rw [bindings, walk_visitModule hi h', hrec.elements, List.nil_append,
    originals_elements_bindings]

theorem names_bindings_visitModule (hi : anchor? h.options.importSource m.body = some i)
    (h' : Hoister) :
    (h'.bindings (h.visitModule m).result i).map Binding.name =
      ((h'.moduleScope (h.visitModule m).result).bindAll
        ((h.bindings m i).map Binding.element)).1 := by
  rw [bindings, walk_visitModule hi h']
  exact Scope.names_bindAll_of_originalsAfter Registry.records_empty originals_elements_bindings

/-- **What a second run does.** Let a module with an anchor at `i` become its items up to the
anchor, declarations of the bindings `bs`, and the items `tail`, as many as there were behind the
anchor. A hoister with the same options, the same one or another, finds the anchor of the outcome in
the same place and

* declares the elements of `bs` once more, as many and in the same order, under names that the
  outcome does not use;
* puts an identifier in place of the element of each declaration of the first run, with the name
  under which the element is declared now and the span of the element;
* leaves all else as it is. -/
theorem visitModule_twice (hi : anchor? h.options.importSource m.body = some i)
    (hoptions : h'.options = h.options) :
    ∃ (bs bs' : List Binding) (tail : List Tree),
      (h.visitModule m).result =
        { m with
          body := m.body.take (i + 1) ++
            bs.map (Binding.declaration h.options.declarationKind) ++ tail } ∧
      tail.length = (m.body.drop (i + 1)).length ∧
      anchor? h.options.importSource (h.visitModule m).result.body = some i ∧
      (h'.visitModule (h.visitModule m).result).result =
        { m with
          body := m.body.take (i + 1) ++
            bs'.map (Binding.declaration h.options.declarationKind) ++
            List.zipWith
              (fun b b' => (b.redirect b'.name).declaration h.options.declarationKind) bs bs' ++
            tail } ∧
      bs'.length = bs.length ∧
      bs'.map Binding.element = bs.map Binding.element ∧
      (∀ b' ∈ bs', b'.name ∉ (h.visitModule m).result.words) ∧
      (∀ b ∈ bs ++ bs', (b.declaration h.options.declarationKind).Declares
        h.options.declarationKind.keyword b.name b.element) ∧
      ∀ b ∈ bs, ∀ b' ∈ bs', ∃ ref : Tree, ref.Mentions b'.name b.element.span ∧
        ((b.redirect b'.name).declaration h.options.declarationKind).Declares
          h.options.declarationKind.keyword b.name ref := by
  have hi' : anchor? h.options.importSource (h.visitModule m).result.body = some i := by
    rw [result_visitModule hi, List.append_assoc]
    exact anchor?_take_append hi _
  have helements := elements_bindings_visitModule hi h'
  have hlength : (h'.bindings (h.visitModule m).result i).length = (h.bindings m i).length := by
    simpa only [List.length_map] using congrArg List.length helements
  refine ⟨h.bindings m i, h'.bindings (h.visitModule m).result i, h.tail m i,
    result_visitModule hi, h.length_tail m i, hi', ?_, hlength, helements,
    fun b' hb' => name_notMem_words hb', fun b _ => b.declares_declaration _,
    fun b _ b' _ => b.declares_redirect b'.name _⟩
  have htail : h'.tail (h.visitModule m).result i =
      List.zipWith (fun b b' => (b.redirect b'.name).declaration h.options.declarationKind)
        (h.bindings m i) (h'.bindings (h.visitModule m).result i) ++ h.tail m i := by
    rw [tail, walk_visitModule hi h', ← names_bindings_visitModule hi h', List.zipWith_map_right]
  rw [result_visitModule (hoptions ▸ hi'), take_body_visitModule hi, htail, declarations, hoptions,
    List.append_assoc, List.append_assoc, List.append_assoc, result_visitModule hi]

/-- The sample twice. Of the three line breaks that are declared again, two have no place in the
source. -/
theorem visitModule_twice_sample :
    anchor? "react" Module.sample.body = some 0 ∧
    ∃ (bs bs' : List Binding) (tail : List Tree),
      (({ options := {} } : Hoister).visitModule Module.sample).result =
        { Module.sample with
          body := Module.sample.body.take 1 ++ bs.map (Binding.declaration .var) ++ tail } ∧
      tail.length = (Module.sample.body.drop 1).length ∧
      (({ options := {} } : Hoister).visitModule
          (({ options := {} } : Hoister).visitModule Module.sample).result).result =
        { Module.sample with
          body := Module.sample.body.take 1 ++ bs'.map (Binding.declaration .var) ++
            List.zipWith (fun b b' => (b.redirect b'.name).declaration .var) bs bs' ++ tail } ∧
      bs.length = 3 ∧
      bs'.length = bs.length ∧
      bs'.map Binding.element = bs.map Binding.element ∧
      (∀ b ∈ bs ++ bs', (b.declaration .var).Declares "var" b.name b.element) ∧
      ∀ b ∈ bs, ∀ b' ∈ bs', ∃ ref : Tree, ref.Mentions b'.name b.element.span ∧
        ((b.redirect b'.name).declaration .var).Declares "var" b.name ref := by
  obtain ⟨bs, bs', tail, hfirst, htail, -, hsecond, hlength, helements, -, hdeclares, hredirect⟩ :=
    visitModule_twice (h := { options := {} }) anchor?_sample rfl
  have hcount : bs.length = 3 := by
    -- the outcome has five items, of which the import and the statement were there before
    have hbody :
        (({ options := {} } : Hoister).visitModule Module.sample).result.body.length = 5 := by
      decide +kernel
    have hone : tail.length = 1 := htail
    rw [hfirst, List.length_append, List.length_append, List.length_map, hone,
      length_take_of_anchor? anchor?_sample] at hbody
    omega
  exact ⟨anchor?_sample, bs, bs', tail, hfirst, htail, hsecond, hcount, hlength, helements,
    hdeclares, hredirect⟩

end Hoister

end JsxHoist
