import JsxHoist.Proofs.ModuleWalk

/-!
# Names and their scopes

Which names declarations and patterns bind, and what a name refers to at a place in a module.

* `Tree.names` are the names that a declaration or pattern binds; `Binders` says which declarations
  count.
* `Tree.binds` are the names that a node binds for what is inside it: a function its parameters and
  the `var` declarations of its body, a block what is declared in it, and so on for loops, `catch`,
  `switch` and the own names of function and class expressions.
* `Module.referent` is what a name refers to at a place: the innermost node around the place that
  binds it, the module itself, or neither.

Hoisting puts references where constant elements were, and neither binds a name that the module
uses. So it keeps which of these names the items of a module declare (`Hoister.mem_names_tail`,
`Hoister.mem_varNames_tail`, `Hoister.mem_declared_visitModule`).
-/

namespace JsxHoist

/-- The name of a node that is known by its name. -/
def Kind.name? : Kind → Option String
  | importDeclaration _ => some "ImportDeclaration"
  | other name => some name
  | _ => none

/-- Does the node have one of the given names? -/
def Label.isNamed (l : Label) (names : List String) : Bool :=
  l.kind.name?.any (· ∈ names)

/-! ### Names that declarations and patterns bind -/

/-- Which declarations count: the keywords of the variable declarations, and by the name of a node
the fields that lead on to the names it binds. -/
structure Binders where
  keywords : List String
  fields : List (String × List String)

namespace Binders

/-- Patterns and what stands between them and their declarations. -/
def patterns : List (String × List String) :=
  [("VariableDeclarator", ["id"]),
    ("Parameter", ["pat"]),
    ("TsParameterProperty", ["param"]),
    ("ArrayPattern", ["elements"]),
    ("ObjectPattern", ["properties"]),
    ("AssignmentPattern", ["left"]),
    ("RestElement", ["argument"]),
    ("KeyValuePatternProperty", ["value"]),
    ("AssignmentPatternProperty", ["key"])]

/-- Classes and exports. What a default export declares has the form of an expression. -/
def classes : List (String × List String) :=
  [("ClassDeclaration", ["identifier"]),
    ("ClassExpression", ["identifier"]),
    ("ExportDeclaration", ["declaration"]),
    ("ExportDefaultDeclaration", ["decl"])]

/-- All other declarations, and the cases of a `switch`, which hold statements of one block. -/
def others : List (String × List String) :=
  [("UsingDeclaration", ["decls"]),
    ("FunctionDeclaration", ["identifier"]),
    ("FunctionExpression", ["identifier"]),
    ("TsEnumDeclaration", ["id"]),
    ("TsModuleDeclaration", ["id"]),
    ("TsImportEqualsDeclaration", ["id"]),
    ("ImportDeclaration", ["specifiers"]),
    ("ImportDefaultSpecifier", ["local"]),
    ("ImportNamespaceSpecifier", ["local"]),
    ("ImportSpecifier", ["local"]),
    ("SwitchCase", ["consequent"])]

/-- The declarations by `let`, `const` and `class`, exported or not: their names cannot be used
before the declaration has been reached. -/
def initialized : Binders where
  keywords := ["let", "const"]
  fields := patterns ++ classes

/-- The declarations whose names belong to the block that they stand in. -/
def blockLevel : Binders where
  keywords := ["let", "const"]
  fields := patterns ++ classes ++ others

/-- The declarations by `var`, whose names belong to the function that they stand in. -/
def vars : Binders where
  keywords := ["var"]
  fields := patterns

/-- The fields of a node that lead on to the names it binds. -/
def follow (b : Binders) (l : Label) : List String :=
  match l.kind.name? with
  | none => []
  | some name =>
    if name = "VariableDeclaration" then
      if ((l.data.lookup "kind").bind Datum.text?).any (· ∈ b.keywords) then ["declarations"] else []
    else (b.fields.lookup name).getD []

end Binders

namespace Tree

mutual

/-- The names that a declaration or pattern binds. An element binds none. -/
def names (b : Binders) : Tree → List String
  | node l ps =>
    match l.kind with
    | .identifier word => [word]
    | .element => []
    | _ => namesOfParts b (b.follow l) ps

/-- The names that the parts in the given fields bind. -/
def namesOfParts (b : Binders) (fields : List String) : List (Slot × Tree) → List String
  | [] => []
  | (slot, t) :: ps =>
    (if slot.field ∈ fields then t.names b else []) ++ namesOfParts b fields ps

end

/-! ### Scopes -/

/-- The nodes that are functions: functions, arrows and the methods of objects and classes. The
function of a class method has no name of its own and is known by its slot. -/
def isFunction (slot : Slot) (t : Tree) : Bool :=
  slot = .single "function" || t.label.isNamed ["FunctionDeclaration", "FunctionExpression",
    "ArrowFunctionExpression", "Constructor", "MethodProperty", "GetterProperty", "SetterProperty"]

/-- Do `var` declarations inside the node belong to it? -/
def holdsVars (slot : Slot) (t : Tree) : Bool :=
  t.isFunction slot || t.label.isNamed ["StaticBlock", "TsModuleBlock"]

mutual

/-- The names of the `var` declarations in a tree, without those that belong to a node inside it.
Statements inside an element belong to functions there. -/
def varNames (slot : Slot) : Tree → List String
  | node l ps =>
    if (node l ps).isElement || (node l ps).holdsVars slot then []
    else
      (if l.isNamed ["VariableDeclaration"] then (node l ps).names .vars else []) ++
        varNamesOfParts ps

/-- The names of the `var` declarations in the parts of a tree. -/
def varNamesOfParts : List (Slot × Tree) → List String
  | [] => []
  | (slot, t) :: ps => t.varNames slot ++ varNamesOfParts ps

end

/-- The nodes that hold declarations for what is inside them, as a block does. -/
def blocks : List String :=
  ["BlockStatement", "TsModuleBlock", "SwitchStatement", "ForStatement", "ForInStatement",
    "ForOfStatement"]

/-- The declarations that a block can hold. The head of a loop may also be a pattern, which declares
nothing. -/
def blockItems : List String :=
  ["VariableDeclaration", "UsingDeclaration", "FunctionDeclaration", "ClassDeclaration",
    "TsEnumDeclaration", "TsModuleDeclaration", "TsImportEqualsDeclaration", "ExportDeclaration",
    "SwitchCase"]

/-- By the name of a node, the fields that bind names for what is inside it. -/
def heads : List (String × List String) :=
  [("FunctionDeclaration", ["params"]),
    ("FunctionExpression", ["identifier", "params"]),
    ("ArrowFunctionExpression", ["params"]),
    ("Constructor", ["params"]),
    ("MethodProperty", ["params"]),
    ("SetterProperty", ["param"]),
    ("CatchClause", ["param"]),
    ("ClassExpression", ["identifier"])]

/-- The fields of a node that bind names for what is inside it. The name of a default export belongs
to the module. -/
def headFields (slot : Slot) (t : Tree) : List String :=
  if slot = .single "function" then ["params"]
  else
    let fields := (t.label.kind.name?.bind fun name => heads.lookup name).getD []
    if slot = .single "decl" then fields.erase "identifier" else fields

/-- The names that a node binds without a declaration. What an arrow calls `this` and `arguments`
comes from outside. -/
def implicit (slot : Slot) (t : Tree) : List String :=
  if t.label.isNamed ["ClassProperty", "PrivateProperty", "AutoAccessor", "StaticBlock"] then
    ["this"]
  else if t.isFunction slot && !t.label.isNamed ["ArrowFunctionExpression"] then
    ["this", "arguments"]
  else []

/-- The names that a node binds for what is inside it in one of its fields. The key of a method,
decorators and what a `switch` is about stand outside of the scope, and the defaults of parameters
outside of the body. -/
def binds (slot : Slot) (t : Tree) (field : String) : List String :=
  if field ∈ ["key", "decorators", "discriminant"] then []
  else
    t.implicit slot ++ namesOfParts .blockLevel (t.headFields slot) t.parts ++
    (if t.label.isNamed blocks then
      t.parts.flatMap fun p => if p.2.label.isNamed blockItems then p.2.names .blockLevel else []
    else []) ++
    (if t.holdsVars slot && field = "body" then varNamesOfParts t.parts else [])

/-- The path to the innermost node around the end of a path that binds a word. -/
def binder? (word : String) (slot : Slot) (t : Tree) : List Nat → Option (List Nat)
  | [] => none
  | k :: p => t.parts[k]?.bind fun q =>
      ((q.2.binder? word q.1 p).map (k :: ·)).or
        (if word ∈ t.binds slot q.1.field then some [] else none)

end Tree

/-- What a name refers to at a place in a module. -/
inductive Referent where
  /-- What a node around the place binds. -/
  | inner (binder : List Nat)
  /-- What the module declares. -/
  | module
  /-- Nothing in the module. -/
  | outside
deriving DecidableEq, Repr

namespace Module

/-- The names that a module declares. -/
def declared (m : Module) : List String :=
  m.body.flatMap fun t => t.names .blockLevel ++ t.varNames (.item "body")

theorem mem_declared {m : Module} {word : String} :
    word ∈ m.declared ↔ word ∈ m.body.flatMap (Tree.names .blockLevel) ∨
      word ∈ m.body.flatMap (Tree.varNames (.item "body")) := by
  simp only [declared, List.mem_flatMap, List.mem_append, and_or_left, exists_or]

/-- What a name refers to where no node binds it. -/
def topReferent (m : Module) (word : String) : Referent :=
  if word ∈ m.declared then .module else .outside

/-- What a name refers to at the end of a path in an item. -/
def referent (m : Module) (word : String) (item : Nat) (path : List Nat) : Referent :=
  match m.body[item]?.bind fun t => t.binder? word (.item "body") path with
  | some q => .inner (item :: q)
  | none => m.topReferent word

theorem topReferent_ne_inner (m : Module) (word : String) (q : List Nat) :
    m.topReferent word ≠ .inner q := by
  rw [topReferent]
  split <;> nofun

variable {m : Module} {word : String} {item : Nat} {p : List Nat} {t : Tree}

theorem referent_of_binder?_eq_none (ht : m.body[item]? = some t)
    (hp : t.binder? word (.item "body") p = none) : m.referent word item p = m.topReferent word := by
  rw [referent, ht, Option.bind_some, hp]

theorem exists_referent_eq_inner (ht : m.body[item]? = some t)
    (hp : (t.binder? word (.item "body") p).isSome) : ∃ q, m.referent word item p = .inner q := by
  obtain ⟨q, hq⟩ := Option.isSome_iff_exists.1 hp
  refine ⟨item :: q, ?_⟩
  rw [referent, ht, Option.bind_some, hq]

/-- A name refers to the same thing at a place and at the top unless a node around the place binds
it. -/
theorem topReferent_eq_referent_iff :
    m.topReferent word = m.referent word item p ↔ ∀ q, m.referent word item p ≠ .inner q := by
  rw [referent]
  split
  · exact iff_of_false (m.topReferent_ne_inner word _) fun hne => hne _ rfl
  · exact iff_of_true rfl (m.topReferent_ne_inner word)

end Module

/-! ### Names and words -/

namespace Tree

theorem names_other (b : Binders) (name : String) (span : Option Span)
    (data : List (String × Datum)) (ps : List (Slot × Tree)) :
    (node ⟨.other name, span, data⟩ ps).names b =
      namesOfParts b (b.follow ⟨.other name, span, data⟩) ps := by
  rw [names]

/-- A node that is entered has the `var` declarations of its parts, and its own if it is one. -/
theorem varNames_node {slot : Slot} {l : Label} {ps : List (Slot × Tree)}
    (h : ((node l ps).isElement || (node l ps).holdsVars slot) = false) :
    (node l ps).varNames slot =
      (if l.isNamed ["VariableDeclaration"] then (node l ps).names .vars else []) ++
        varNamesOfParts ps := by
  rw [varNames, h, if_neg Bool.false_ne_true]

theorem varNames_of_isElement {t : Tree} (h : t.isElement) (slot : Slot) :
    t.varNames slot = [] := by
  obtain ⟨l, ps⟩ := t
  rw [varNames, h, Bool.true_or, if_pos rfl]

mutual

/-- A tree binds words of its own only. -/
theorem names_subset_words (b : Binders) : ∀ t : Tree, t.names b ⊆ t.words
  | node l ps => by
    intro word hw
    rw [words]
    rw [names] at hw
    split at hw
    · next value hkind =>
      rw [hkind]
      exact List.mem_append_left _ hw
    · exact absurd hw List.not_mem_nil
    · exact List.mem_append_right _ (namesOfParts_subset_wordsOfParts b _ ps hw)

theorem namesOfParts_subset_wordsOfParts (b : Binders) (fields : List String) :
    ∀ ps : List (Slot × Tree), namesOfParts b fields ps ⊆ wordsOfParts ps
  | [] => List.Subset.refl _
  | (slot, t) :: ps => by
    intro word hw
    rw [namesOfParts, List.mem_append] at hw
    rw [wordsOfParts, List.mem_append]
    refine hw.imp (fun hw => ?_) fun hw => namesOfParts_subset_wordsOfParts b fields ps hw
    split at hw
    · exact names_subset_words b t hw
    · exact absurd hw List.not_mem_nil

end

mutual

theorem varNames_subset_words (slot : Slot) : ∀ t : Tree, t.varNames slot ⊆ t.words
  | node l ps => by
    intro word hw
    rw [varNames] at hw
    split at hw
    · exact absurd hw List.not_mem_nil
    · rcases List.mem_append.1 hw with hw | hw
      · split at hw
        · exact names_subset_words .vars (node l ps) hw
        · exact absurd hw List.not_mem_nil
      · rw [words]
        exact List.mem_append_right _ (varNamesOfParts_subset_wordsOfParts ps hw)

theorem varNamesOfParts_subset_wordsOfParts :
    ∀ ps : List (Slot × Tree), varNamesOfParts ps ⊆ wordsOfParts ps
  | [] => List.Subset.refl _
  | (slot, t) :: ps => by
    intro word hw
    rw [varNamesOfParts, List.mem_append] at hw
    rw [wordsOfParts, List.mem_append]
    exact hw.imp (fun hw => varNames_subset_words slot t hw)
      fun hw => varNamesOfParts_subset_wordsOfParts ps hw

end

/-! ### Filling and names -/

theorem names_of_isElement {t : Tree} (h : t.isElement) (b : Binders) : t.names b = [] := by
  obtain ⟨⟨kind, span, data⟩, ps⟩ := t
  cases kind with
  | element => rw [names]
  | _ => simp [isElement, label] at h

mutual

/-- **Filling keeps the names that a tree binds**, as far as they are no words of the trees that
take the places of the sites. -/
theorem mem_names_fill {b : Binders} {word : String} {slot : Slot} :
    ∀ {t : Tree} {us : List Tree}, us.length = (t.sites slot).length →
      (∀ u ∈ us, word ∉ u.words) → (word ∈ (t.fill us).names b ↔ word ∈ t.names b)
  | node l ps, us, hlen, hus => by
    by_cases hc : (node l ps).isConstantElement
    · -- neither the element nor what takes its place binds the word
      rw [sites_of_isConstantElement hc] at hlen
      obtain ⟨u, rfl⟩ := List.length_eq_one_iff.1 hlen
      rw [fill_of_isConstantElement hc, names_of_isElement (isElement_of_isConstantElement hc)]
      refine iff_of_false (fun hw => ?_) List.not_mem_nil
      exact hus u List.mem_cons_self (names_subset_words b u hw)
    · rw [sites_node hc] at hlen
      rw [fill_node hc, names, names]
      split
      · exact Iff.rfl
      · exact Iff.rfl
      · exact mem_namesOfParts_fillParts hlen hus

/-- The same for the parts of a tree. -/
theorem mem_namesOfParts_fillParts {b : Binders} {word : String} {fields : List String} :
    ∀ {ps : List (Slot × Tree)} {us : List Tree}, us.length = (sitesOfParts ps).length →
      (∀ u ∈ us, word ∉ u.words) →
      (word ∈ namesOfParts b fields (fillParts ps us) ↔ word ∈ namesOfParts b fields ps)
  | [], _, _, _ => Iff.rfl
  | (slot, t) :: ps, us, hlen, hus => by
    obtain ⟨vs, ws, rfl, hvs, hws⟩ := exists_split_of_length_eq hlen
    have hfirst := mem_names_fill (b := b) hvs fun u hu => hus u (List.mem_append_left _ hu)
    have hrest : word ∈ namesOfParts b fields (fillParts ps ws) ↔ word ∈ namesOfParts b fields ps :=
      mem_namesOfParts_fillParts hws fun u hu => hus u (List.mem_append_right _ hu)
    rw [fillParts_cons hvs, namesOfParts, namesOfParts, List.mem_append, List.mem_append, hrest]
    split
    · rw [hfirst]
    · exact Iff.rfl

end

mutual

/-- Filling keeps the names of the `var` declarations in a tree, in the same way. -/
theorem mem_varNames_fill {word : String} {slot : Slot} :
    ∀ {t : Tree} {us : List Tree}, us.length = (t.sites slot).length →
      (∀ u ∈ us, word ∉ u.words) → (word ∈ (t.fill us).varNames slot ↔ word ∈ t.varNames slot)
  | node l ps, us, hlen, hus => by
    by_cases hc : (node l ps).isConstantElement
    · rw [sites_of_isConstantElement hc] at hlen
      obtain ⟨u, rfl⟩ := List.length_eq_one_iff.1 hlen
      rw [fill_of_isConstantElement hc, varNames_of_isElement (isElement_of_isConstantElement hc)]
      refine iff_of_false (fun hw => ?_) List.not_mem_nil
      exact hus u List.mem_cons_self (varNames_subset_words slot u hw)
    · have hnames := mem_names_fill (b := .vars) hlen hus
      rw [sites_node hc] at hlen
      have hparts := mem_varNamesOfParts_fillParts hlen hus
      rw [fill_node hc] at hnames ⊢
      -- both trees have the same label, so that they are entered alike
      have helement : (node l (fillParts ps us)).isElement = (node l ps).isElement := rfl
      have hholds : (node l (fillParts ps us)).holdsVars slot = (node l ps).holdsVars slot := rfl
      rw [varNames, varNames, helement, hholds]
      split
      · exact Iff.rfl
      · rw [List.mem_append, List.mem_append, hparts]
        split
        · rw [hnames]
        · exact Iff.rfl

theorem mem_varNamesOfParts_fillParts {word : String} :
    ∀ {ps : List (Slot × Tree)} {us : List Tree}, us.length = (sitesOfParts ps).length →
      (∀ u ∈ us, word ∉ u.words) →
      (word ∈ varNamesOfParts (fillParts ps us) ↔ word ∈ varNamesOfParts ps)
  | [], _, _, _ => Iff.rfl
  | (slot, t) :: ps, us, hlen, hus => by
    obtain ⟨vs, ws, rfl, hvs, hws⟩ := exists_split_of_length_eq hlen
    have hfirst := mem_varNames_fill hvs fun u hu => hus u (List.mem_append_left _ hu)
    have hrest := mem_varNamesOfParts_fillParts hws fun u hu => hus u (List.mem_append_right _ hu)
    rw [fillParts_cons hvs, varNamesOfParts, varNamesOfParts, List.mem_append, List.mem_append,
      hfirst, hrest]

end

theorem namesOfParts_body (b : Binders) (items : List Tree) :
    namesOfParts b ["body"] (body items) = items.flatMap (names b) := by
  induction items with
  | nil => rfl
  | cons t ts ih =>
    rw [List.flatMap_cons, ← ih]
    rfl

theorem varNamesOfParts_body (items : List Tree) :
    varNamesOfParts (body items) = items.flatMap (varNames (.item "body")) := by
  induction items with
  | nil => rfl
  | cons t ts ih =>
    rw [List.flatMap_cons, ← ih]
    rfl

end Tree

/-! ### Hoisting and names -/

theorem Site.words_reference (site : Site) (name : String) :
    (site.reference name).words = [name] := by
  obtain ⟨slot, element⟩ := site
  cases slot <;> rfl

namespace Binding

/-- The declarator of a binding binds its name; the initial value is not followed. -/
theorem names_declarator {binders : Binders}
    (hfields : binders.fields.lookup "VariableDeclarator" = some ["id"]) (b : Binding) :
    Tree.names binders
      (.node ⟨.other "VariableDeclarator", some .zero, [("definite", .bool false)]⟩
        [(.single "id", b.declaredName), (.single "init", b.element)]) = [b.name] := by
  have hne : "VariableDeclarator" ≠ "VariableDeclaration" := by decide
  have hfollow : binders.follow
      ⟨.other "VariableDeclarator", some .zero, [("definite", .bool false)]⟩ = ["id"] := by
    simp only [Binders.follow, Kind.name?, if_neg hne, hfields, Option.getD_some]
  rw [Tree.names_other, hfollow]
  rfl

/-- The declaration of a binding binds no other name. -/
theorem eq_name_of_mem_names_declaration {binders : Binders} {kind : DeclarationKind} {b : Binding}
    {word : String} (hfields : binders.fields.lookup "VariableDeclarator" = some ["id"])
    (hw : word ∈ (b.declaration kind).names binders) : word = b.name := by
  rw [declaration, Tree.names_other, Tree.namesOfParts, names_declarator hfields] at hw
  split at hw
  · exact List.mem_singleton.1 hw
  · exact absurd hw List.not_mem_nil

theorem eq_name_of_mem_varNames_declaration {kind : DeclarationKind} {b : Binding} {word : String}
    (hb : b.element.isElement) (hw : word ∈ (b.declaration kind).varNames (.item "body")) :
    word = b.name := by
  -- there is no statement in the declarator: it holds a variable and an element
  have hdeclarator : Tree.varNames (.item "declarations")
      (.node ⟨.other "VariableDeclarator", some .zero, [("definite", .bool false)]⟩
        [(.single "id", b.declaredName), (.single "init", b.element)]) = [] := by
    rw [Tree.varNames_node rfl, Tree.varNamesOfParts, Tree.varNamesOfParts,
      Tree.varNames_of_isElement hb]
    rfl
  have hparts : Tree.varNamesOfParts (b.declaration kind).parts = [] := by
    rw [declaration, Tree.parts, Tree.varNamesOfParts, hdeclarator]
    rfl
  have hvars : (b.declaration kind).varNames (.item "body") = (b.declaration kind).names .vars := by
    have hnode : (b.declaration kind).varNames (.item "body") =
        (b.declaration kind).names .vars ++ Tree.varNamesOfParts (b.declaration kind).parts :=
      Tree.varNames_node rfl
    rw [hnode, hparts, List.append_nil]
  rw [hvars] at hw
  exact eq_name_of_mem_names_declaration rfl hw

end Binding

namespace Hoister

variable {h : Hoister} {m : Module} {i : Nat} {word : String}

/-- The references that the walk leaves use no word of the module. -/
theorem notMem_words_of_mem_references (hword : word ∈ m.words) {u : Tree}
    (hu : u ∈ Tree.references (h.moduleScope m) (m.sitesAfter i)) : word ∉ u.words := by
  obtain ⟨k, hk⟩ := List.mem_iff_getElem?.1 hu
  obtain ⟨site, hsite⟩ : ∃ site, (m.sitesAfter i)[k]? = some site := by
    have hlt := (List.getElem?_eq_some_iff.1 hk).1
    rw [Tree.length_references] at hlt
    exact ⟨_, List.getElem?_eq_getElem hlt⟩
  obtain ⟨b, hb, href⟩ := exists_standIn?_of_site (h := h) hsite
  obtain rfl : u = site.reference b.name := Option.some.inj (hk.symm.trans href)
  rw [Site.words_reference, List.mem_singleton]
  rintro rfl
  exact name_notMem_words (mem_of_standIn? hb) hword

/-- **The walk keeps what the items declare**: a word of the module is declared by the rewritten
items if and only if it was declared by the items. -/
theorem mem_names_tail (hword : word ∈ m.words) (b : Binders) :
    word ∈ (h.tail m i).flatMap (Tree.names b) ↔
      word ∈ (m.body.drop (i + 1)).flatMap (Tree.names b) := by
  rw [tail, walk_eq, ← Tree.namesOfParts_body, ← Tree.namesOfParts_body, ← Tree.fillParts_body]
  exact Tree.mem_namesOfParts_fillParts (Tree.length_references _ _)
    fun u hu => notMem_words_of_mem_references hword hu

theorem mem_varNames_tail (hword : word ∈ m.words) :
    word ∈ (h.tail m i).flatMap (Tree.varNames (.item "body")) ↔
      word ∈ (m.body.drop (i + 1)).flatMap (Tree.varNames (.item "body")) := by
  rw [tail, walk_eq, ← Tree.varNamesOfParts_body, ← Tree.varNamesOfParts_body,
    ← Tree.fillParts_body]
  exact Tree.mem_varNamesOfParts_fillParts (Tree.length_references _ _)
    fun u hu => notMem_words_of_mem_references hword hu

/-- What the declarations bind is no word of the module. -/
theorem notMem_names_declarations (hword : word ∈ m.words) {binders : Binders}
    (hfields : binders.fields.lookup "VariableDeclarator" = some ["id"]) :
    word ∉ (h.declarations m i).flatMap (Tree.names binders) := by
  rw [declarations, List.flatMap_map, List.mem_flatMap]
  rintro ⟨b, hb, hw⟩
  obtain rfl := Binding.eq_name_of_mem_names_declaration hfields hw
  exact name_notMem_words hb hword

theorem notMem_varNames_declarations (hword : word ∈ m.words) :
    word ∉ (h.declarations m i).flatMap (Tree.varNames (.item "body")) := by
  rw [declarations, List.flatMap_map, List.mem_flatMap]
  rintro ⟨b, hb, hw⟩
  have helement := Tree.isElement_of_isConstantElement (isConstantElement_of_mem_bindings hb)
  obtain rfl := Binding.eq_name_of_mem_varNames_declaration helement hw
  exact name_notMem_words hb hword

/-- A word that the declarations do not have, and that the walk keeps, is kept in the module. -/
theorem mem_flatMap_body_visitModule (hi : anchor? h.options.importSource m.body = some i)
    {f : Tree → List String} (hdeclarations : word ∉ (h.declarations m i).flatMap f)
    (htail : word ∈ (h.tail m i).flatMap f ↔ word ∈ (m.body.drop (i + 1)).flatMap f) :
    word ∈ (h.visitModule m).result.body.flatMap f ↔ word ∈ m.body.flatMap f := by
  have hbody : m.body.flatMap f =
      (m.body.take (i + 1)).flatMap f ++ (m.body.drop (i + 1)).flatMap f := by
    rw [← List.flatMap_append, List.take_append_drop]
  rw [result_visitModule hi, List.flatMap_append, List.flatMap_append, hbody]
  simp only [List.mem_append, hdeclarations, htail, or_false]

/-- **Hoisting keeps what a module declares**, as far as its own words go. -/
theorem mem_declared_visitModule (hi : anchor? h.options.importSource m.body = some i)
    (hword : word ∈ m.words) :
    word ∈ (h.visitModule m).result.declared ↔ word ∈ m.declared := by
  rw [Module.mem_declared, Module.mem_declared,
    mem_flatMap_body_visitModule hi (notMem_names_declarations hword rfl)
      (mem_names_tail hword .blockLevel),
    mem_flatMap_body_visitModule hi (notMem_varNames_declarations hword) (mem_varNames_tail hword)]

theorem topReferent_visitModule (hi : anchor? h.options.importSource m.body = some i)
    (hword : word ∈ m.words) :
    (h.visitModule m).result.topReferent word = m.topReferent word := by
  simp only [Module.topReferent, mem_declared_visitModule hi hword]

end Hoister

end JsxHoist
