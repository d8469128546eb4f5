import JsxHoist.Proofs.Lockstep

/-!
# Runs that differ by a renaming

What a hoister makes of a module depends on the items behind the anchor, on which of the names with
its stem are words of the module, and on the keyword of its declarations. Nothing else matters: for
two modules with the same items behind the anchor, and two hoisters for which the same numbers are
free, the outcomes are the same up to the stem of the names and the keyword
(`Hoister.visitModule_in_step`).

The walks are in step, so that they leave references with the same numbers at the same sites. That
one outcome is the other with these references renamed is again a fact about filling
(`Tree.rename_fill`): renaming passes over everything but the trees in the places of the sites,
since no word of the items is renamed.
-/

namespace JsxHoist

/-! ### Renaming -/

/-- The kind of a node, with a name that it uses replaced. -/
def Kind.rename (f : String → String) : Kind → Kind
  | .identifier value => .identifier (f value)
  | k => k

theorem Kind.rename_eq_self {f : String → String} {k : Kind} (h : ∀ w ∈ k.words, f w = w) :
    k.rename f = k := by
  cases k with
  | identifier value => rw [Kind.rename, h value (List.mem_singleton_self value)]
  | _ => rfl

namespace Tree

mutual

/-- The tree with every identifier in it replaced by another. -/
def rename (f : String → String) : Tree → Tree
  | node l ps => node { l with kind := l.kind.rename f } (renameParts f ps)

/-- The parts with every identifier in them replaced by another. -/
def renameParts (f : String → String) : List (Slot × Tree) → List (Slot × Tree)
  | [] => []
  | (slot, t) :: ps => (slot, t.rename f) :: renameParts f ps

end

theorem renameParts_body (f : String → String) (items : List Tree) :
    renameParts f (body items) = body (items.map (rename f)) := by
  induction items with
  | nil => rfl
  | cons t ts ih => exact congrArg _ ih

mutual

/-- **Renaming a filled tree** renames what was filled in, if the words of the tree stay. -/
theorem rename_fill {f : String → String} {slot : Slot} :
    ∀ {t : Tree} {us : List Tree}, us.length = (t.sites slot).length → (∀ w ∈ t.words, f w = w) →
      (t.fill us).rename f = t.fill (us.map (rename f))
  | node l ps, us, hlen, hwords => by
    by_cases hc : (node l ps).isConstantElement
    · rw [sites_of_isConstantElement hc] at hlen
      obtain ⟨u, rfl⟩ := List.length_eq_one_iff.1 hlen
      rw [List.map_singleton, fill_of_isConstantElement hc, fill_of_isConstantElement hc]
    · rw [sites_node hc] at hlen
      simp only [words, List.mem_append] at hwords
      have hkind : l.kind.rename f = l.kind :=
        Kind.rename_eq_self fun w hw => hwords w (Or.inl hw)
      rw [fill_node hc, fill_node hc, rename, hkind,
        renameParts_fillParts hlen fun w hw => hwords w (Or.inr hw)]

theorem renameParts_fillParts {f : String → String} :
    ∀ {ps : List (Slot × Tree)} {us : List Tree}, us.length = (sitesOfParts ps).length →
      (∀ w ∈ wordsOfParts ps, f w = w) →
      renameParts f (fillParts ps us) = fillParts ps (us.map (rename f))
  | [], _, _, _ => rfl
  | (slot, t) :: ps, us, hlen, hwords => by
    obtain ⟨vs, ws, rfl, hvs, hws⟩ := exists_split_of_length_eq hlen
    simp only [wordsOfParts, List.mem_append] at hwords
    rw [fillParts_cons hvs, List.map_append, fillParts_cons ((List.length_map _).trans hvs),
      renameParts, rename_fill hvs fun w hw => hwords w (Or.inl hw),
      renameParts_fillParts hws fun w hw => hwords w (Or.inr hw)]

end

theorem map_rename_fillItems {f : String → String} {items us : List Tree}
    (hlen : us.length = (sitesOfItems items).length)
    (hwords : ∀ t ∈ items, ∀ w ∈ t.words, f w = w) :
    (fillItems items us).map (rename f) = fillItems items (us.map (rename f)) := by
  have hparts : ∀ w ∈ wordsOfParts (body items), f w = w := by
    intro w hw
    rw [wordsOfParts_eq_flatMap, body, List.flatMap_map, List.mem_flatMap] at hw
    obtain ⟨t, ht, hw⟩ := hw
    exact hwords t ht w hw
  have hfill := renameParts_fillParts hlen hparts
  rw [fillParts_body, fillParts_body, renameParts_body] at hfill
  simpa using congrArg (List.map Prod.snd) hfill

end Tree

/-- A renamed reference is a reference to the other name. -/
theorem Site.rename_reference (f : String → String) (site : Site) (name : String) :
    (site.reference name).rename f = site.reference (f name) := by
  obtain ⟨slot, element⟩ := site
  cases slot <;> rfl

theorem Site.map_rename_references (f : String → String) (sites : List Site)
    (names : List String) :
    (List.zipWith Site.reference sites names).map (Tree.rename f) =
      List.zipWith Site.reference sites (names.map f) := by
  rw [List.map_zipWith, List.zipWith_map_right]
  simp only [Site.rename_reference]

/-! ### Names with another stem -/

/-- Gives the names with certain numbers another stem, and leaves all other names as they are. -/
def restem (stem stem' : String) (numbers : List Nat) (name : String) : String :=
  match numbers.find? fun n => numbered stem n = name with
  | some n => numbered stem' n
  | none => name

theorem restem_numbered {numbers : List Nat} {n : Nat} (hn : n ∈ numbers) (stem stem' : String) :
    restem stem stem' numbers (numbered stem n) = numbered stem' n := by
  obtain ⟨k, hk⟩ : ∃ k, numbers.find? (fun k => numbered stem k = numbered stem n) = some k := by
    rw [← Option.isSome_iff_exists, List.find?_isSome]
    exact ⟨n, hn, decide_eq_true rfl⟩
  -- numbers are told apart by their names
  obtain rfl : k = n := numbered_injective (by simpa using List.find?_some hk)
  rw [restem, hk]

theorem map_restem_numbered {numbers ns : List Nat} (hns : ns ⊆ numbers) (stem stem' : String) :
    (ns.map (numbered stem)).map (restem stem stem' numbers) = ns.map (numbered stem') := by
  rw [List.map_map]
  exact List.map_congr_left fun n hn => restem_numbered (hns hn) stem stem'

theorem restem_eq_self {stem : String} {numbers : List Nat} {name : String}
    (h : ∀ n ∈ numbers, numbered stem n ≠ name) (stem' : String) :
    restem stem stem' numbers name = name := by
  have hnone : numbers.find? (fun n => numbered stem n = name) = none := by
    rw [List.find?_eq_none]
    exact fun n hn heq => h n hn (of_decide_eq_true heq)
  rw [restem, hnone]

/-! ### Modules -/

namespace Hoister

variable {h₁ h₂ : Hoister} {m₁ m₂ : Module} {i₁ i₂ : Nat}

/-- Names that are bound are no words of the module. -/
theorem numbered_notMem_words {h : Hoister} {m : Module} {i : Nat} {xs : List (Nat × Tree)}
    (hxs : h.bindings m i = xs.map (Binding.ofNumber h.options.stem)) {x : Nat × Tree}
    (hx : x ∈ xs) : numbered h.options.stem x.1 ∉ m.words := by
  have hb : Binding.ofNumber h.options.stem x ∈ h.bindings m i := hxs ▸ List.mem_map_of_mem hx
  exact name_notMem_words hb

/-- **Two walks in step** bind the same elements to names with the same numbers, and leave
references with the same numbers at the same sites. -/
theorem exists_numbers_of_inStep (htail : m₁.body.drop (i₁ + 1) = m₂.body.drop (i₂ + 1))
    (hwords : ∀ n, 1 ≤ n → (numbered h₁.options.stem n ∈ m₁.words ↔
      numbered h₂.options.stem n ∈ m₂.words)) :
    ∃ (xs : List (Nat × Tree)) (ns : List Nat), ns ⊆ xs.map Prod.fst ∧
      h₁.bindings m₁ i₁ = xs.map (Binding.ofNumber h₁.options.stem) ∧
      h₂.bindings m₂ i₂ = xs.map (Binding.ofNumber h₂.options.stem) ∧
      ns.length = (m₁.sitesAfter i₁).length ∧
      h₁.tail m₁ i₁ = Tree.fillItems (m₁.body.drop (i₁ + 1))
        (List.zipWith Site.reference (m₁.sitesAfter i₁) (ns.map (numbered h₁.options.stem))) ∧
      h₂.tail m₂ i₂ = Tree.fillItems (m₁.body.drop (i₁ + 1))
        (List.zipWith Site.reference (m₁.sitesAfter i₁) (ns.map (numbered h₂.options.stem))) := by
  have hsites : m₂.sitesAfter i₂ = m₁.sitesAfter i₁ := by
    rw [Module.sitesAfter, Module.sitesAfter, htail]
  obtain ⟨xs, ns, -, hrun, hns, hanswers₁, hanswers₂⟩ :=
    (inStep_moduleScope hwords).bindAll ((m₁.sitesAfter i₁).map Site.element)
  have hleft := hrun.left
  have hright := hrun.right
  rw [Scope.stem_bindAll] at hleft hright
  refine ⟨xs, ns, hns, ?_, ?_, ?_, ?_, ?_⟩
  · rw [bindings, walk_eq]
    exact hleft
  · rw [bindings, walk_eq, hsites]
    exact hright
  · simpa using (congrArg List.length hanswers₁).symm
  · rw [tail, walk_eq, Tree.references, hanswers₁]
    rfl
  · rw [tail, walk_eq, Tree.references, hsites, hanswers₂, htail]
    rfl

/-- What the second of two walks in step leaves is what the first leaves, with the names renamed. -/
theorem exists_restem_of_inStep (htail : m₁.body.drop (i₁ + 1) = m₂.body.drop (i₂ + 1))
    (hwords : ∀ n, 1 ≤ n → (numbered h₁.options.stem n ∈ m₁.words ↔
      numbered h₂.options.stem n ∈ m₂.words)) :
    ∃ xs : List (Nat × Tree),
      h₁.bindings m₁ i₁ = xs.map (Binding.ofNumber h₁.options.stem) ∧
      h₂.bindings m₂ i₂ = xs.map (Binding.ofNumber h₂.options.stem) ∧
      h₂.tail m₂ i₂ = (h₁.tail m₁ i₁).map
        (Tree.rename (restem h₁.options.stem h₂.options.stem (xs.map Prod.fst))) := by
  obtain ⟨xs, ns, hns, hbindings₁, hbindings₂, hlen, htail₁, htail₂⟩ :=
    exists_numbers_of_inStep htail hwords
  refine ⟨xs, hbindings₁, hbindings₂, ?_⟩
  have hkept : ∀ t ∈ m₁.body.drop (i₁ + 1), ∀ w ∈ t.words,
      restem h₁.options.stem h₂.options.stem (xs.map Prod.fst) w = w := by
    intro t ht w hw
    have hword : w ∈ m₁.words := Module.words_subset (List.mem_of_mem_drop ht) hw
    refine restem_eq_self (fun n hn heq => ?_) _
    obtain ⟨x, hx, rfl⟩ := List.mem_map.1 hn
    exact numbered_notMem_words hbindings₁ hx (heq ▸ hword)
  have hcount : (List.zipWith Site.reference (m₁.sitesAfter i₁)
      (ns.map (numbered h₁.options.stem))).length = (m₁.sitesAfter i₁).length := by
    rw [List.length_zipWith, List.length_map, hlen, Nat.min_self]
  rw [htail₁, htail₂, Tree.map_rename_fillItems hcount hkept, Site.map_rename_references,
    map_restem_numbered hns]

/-- Reports and the source have no part in what becomes of a program. -/
theorem result_visitProgram_settings (h : Hoister) (verbose : Bool) (source : Option SourceMap)
    (p : Program) :
    (visitProgram { h with options := { h.options with verbose }, source } p).result =
      (h.visitProgram p).result := by
  cases p with
  | script content => rfl
  | module m =>
    refine congrArg Program.module ?_
    cases hi : anchor? h.options.importSource m.body with
    | none =>
      rw [result_visitModule_of_anchor?_eq_none hi]
      exact result_visitModule_of_anchor?_eq_none hi
    | some i =>
      rw [result_visitModule hi]
      exact result_visitModule hi

/-- **What the options and the items up to the anchor have to do with the outcome.** Take two
modules with the same items behind their anchors, and two hoisters such that for every number the
name that the first would make of it is a word of the first module if and only if the name that the
second would make of it is a word of the second. Then there are numbers and elements `xs` such that
each hoister declares these elements under the names that it makes of these numbers, in the same
order and with its own keyword, in declarations that differ in nothing else; and the other items
become the same up to the names of the references. What a hoister reports, and the source that it
reports from, change nothing. -/
theorem visitModule_in_step (h₁ h₂ : Hoister) :
    (∀ (m₁ m₂ : Module) (i₁ i₂ : Nat),
      anchor? h₁.options.importSource m₁.body = some i₁ →
      anchor? h₂.options.importSource m₂.body = some i₂ →
      m₁.body.drop (i₁ + 1) = m₂.body.drop (i₂ + 1) →
      (∀ n, 1 ≤ n → (numbered h₁.options.stem n ∈ m₁.words ↔
        numbered h₂.options.stem n ∈ m₂.words)) →
      ∃ (xs : List (Nat × Tree)) (tail : List Tree),
        (h₁.visitModule m₁).result =
          { m₁ with
            body := m₁.body.take (i₁ + 1) ++
              (xs.map (Binding.ofNumber h₁.options.stem)).map
                (Binding.declaration h₁.options.declarationKind) ++ tail } ∧
        (h₂.visitModule m₂).result =
          { m₂ with
            body := m₂.body.take (i₂ + 1) ++
              (xs.map (Binding.ofNumber h₂.options.stem)).map
                (Binding.declaration h₂.options.declarationKind) ++
              tail.map
                (Tree.rename (restem h₁.options.stem h₂.options.stem (xs.map Prod.fst))) } ∧
        tail.length = (m₁.body.drop (i₁ + 1)).length ∧
        (∀ x ∈ xs, numbered h₁.options.stem x.1 ∉ m₁.words ∧
          numbered h₂.options.stem x.1 ∉ m₂.words) ∧
        ∀ h ∈ [h₁, h₂], ∀ x ∈ xs,
          ((Binding.ofNumber h.options.stem x).declaration h.options.declarationKind).Declares
            h.options.declarationKind.keyword (numbered h.options.stem x.1) x.2) ∧
    ∀ (verbose : Bool) (source : Option SourceMap) (p : Program),
      (visitProgram { h₁ with options := { h₁.options with verbose }, source } p).result =
        (h₁.visitProgram p).result := by
  refine ⟨fun m₁ m₂ i₁ i₂ hi₁ hi₂ htail hwords => ?_, result_visitProgram_settings h₁⟩
  obtain ⟨xs, hbindings₁, hbindings₂, hrenamed⟩ := exists_restem_of_inStep htail hwords
  refine ⟨xs, h₁.tail m₁ i₁, ?_, ?_, h₁.length_tail m₁ i₁, ?_,
    fun h _ x _ => (Binding.ofNumber h.options.stem x).declares_declaration _⟩
  · rw [result_visitModule hi₁, declarations, hbindings₁]
  · rw [result_visitModule hi₂, declarations, hbindings₂, hrenamed]
  · exact fun x hx =>
      ⟨numbered_notMem_words hbindings₁ hx, numbered_notMem_words hbindings₂ hx⟩

end Hoister

/-! #### The sample behind another import -/

/-- If a number gives a word of a list, and no other word of it starts like a name with a number,
then no other number gives a word of it. -/
theorem numbered_mem_iff {stem : String} {words : List String} {k : Nat}
    (hk : numbered stem k ∈ words)
    (hothers : ∀ w ∈ words, w = numbered stem k ∨ ¬ (stem ++ "_").toList <+: w.toList) (n : Nat) :
    numbered stem n ∈ words ↔ n = k := by
  constructor
  · intro hn
    rcases hothers _ hn with heq | hstart
    · exact numbered_injective heq
    · exact absurd ⟨(toString n).toList, String.toList_append.symm⟩ hstart
  · rintro rfl
    exact hk

/-- The items of the sample behind the import of another library, and before that a use of the first
name that could be made up with another stem. -/
def Module.sampleElsewhere : Module where
  body :=
    [.node ⟨.expressionStatement, none, []⟩ [(.single "expression", .mention "el_1" none)],
      .node ⟨.importDeclaration { value := "preact", raw := none }, none, []⟩ []] ++
    Module.sample.body.drop 1

namespace Hoister

/-- The names with the number `1` are words of both modules, and both walks leave it out. -/
theorem visitModule_in_step_sample :
    let here : Hoister := { options := {} }
    let elsewhere : Hoister :=
      { options :=
          { verbose := true, importSource := "preact", stem := "el", declarationKind := .const } }
    (∀ n, 1 ≤ n → (numbered "hoisted_constant_element" n ∈ Module.sample.words ↔
      numbered "el" n ∈ Module.sampleElsewhere.words)) ∧
    ∃ (xs : List (Nat × Tree)) (tail : List Tree),
      (here.visitModule Module.sample).result =
        { Module.sample with
          body := Module.sample.body.take 1 ++
            (xs.map (Binding.ofNumber "hoisted_constant_element")).map
              (Binding.declaration .var) ++ tail } ∧
      (elsewhere.visitModule Module.sampleElsewhere).result =
        { Module.sampleElsewhere with
          body := Module.sampleElsewhere.body.take 2 ++
            (xs.map (Binding.ofNumber "el")).map (Binding.declaration .const) ++
            tail.map (Tree.rename (restem "hoisted_constant_element" "el" (xs.map Prod.fst))) } ∧
      tail.length = 1 ∧
      (∀ x ∈ xs, ((Binding.ofNumber "hoisted_constant_element" x).declaration .var).Declares
        "var" (numbered "hoisted_constant_element" x.1) x.2) ∧
      ∀ x ∈ xs, ((Binding.ofNumber "el" x).declaration .const).Declares
        "const" (numbered "el" x.1) x.2 := by
  intro here elsewhere
  have hwords : ∀ n, 1 ≤ n → (numbered "hoisted_constant_element" n ∈ Module.sample.words ↔
      numbered "el" n ∈ Module.sampleElsewhere.words) := by
    intro n _
    have hhere : numbered "hoisted_constant_element" n ∈ Module.sample.words ↔ n = 1 :=
      numbered_mem_iff (by decide) (by decide) n
    have helsewhere : numbered "el" n ∈ Module.sampleElsewhere.words ↔ n = 1 :=
      numbered_mem_iff (by decide) (by decide) n
    exact hhere.trans helsewhere.symm
  obtain ⟨xs, tail, hresult₁, hresult₂, hlength, -, hdeclares⟩ :=
    (visitModule_in_step here elsewhere).1
      Module.sample Module.sampleElsewhere 0 1 anchor?_sample (by decide) rfl hwords
  exact ⟨hwords, xs, tail, hresult₁, hresult₂, hlength, hdeclares here List.mem_cons_self,
    hdeclares elsewhere (List.mem_cons_of_mem _ List.mem_cons_self)⟩

end Hoister

end JsxHoist
