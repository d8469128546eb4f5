import JsxHoist.Options.Basic
import JsxHoist.Tree.Basic

/-!
# Bindings

A hoisted element is bound to a name: the declaration of the binding goes to the top of the module,
and a reference to it takes the place of the element.

* `Tree.Mentions` and `Tree.Declares` say what a tree looks like that uses or declares a variable,
  node by node.
* `Tree.mention` and `Binding.declaration` build the only such trees (`Tree.mentions_iff`,
  `Tree.declares_iff`).
-/

namespace JsxHoist

/-- A name bound to an element. -/
structure Binding where
  name : String
  element : Tree
deriving Inhabited

/-- A use of a variable. -/
def Tree.mention (name : String) (span : Option Span) : Tree :=
  .node ⟨.identifier name, span, [("ctxt", .int 0), ("optional", .bool false)]⟩ []

/-- What replaces an element that is bound to a name. Among children and as the value of an
attribute an expression needs braces. -/
def Slot.reference (slot : Slot) (name : String) (span : Option Span) : Tree :=
  match slot with
  | .child | .attrValue =>
    .node ⟨.container, span, []⟩ [(.single "expression", Tree.mention name span)]
  | _ => Tree.mention name span

namespace Binding

/-- The name of a binding at its declaration. -/
def declaredName (b : Binding) : Tree :=
  .node ⟨.identifier b.name, some .zero,
    [("ctxt", .int 0), ("optional", .bool false), ("typeAnnotation", .null)]⟩ []

/-- The declaration of a binding. -/
def declaration (kind : DeclarationKind) (b : Binding) : Tree :=
  .node ⟨.other "VariableDeclaration", some .zero,
      [("ctxt", .int 0), ("kind", .text kind.keyword), ("declare", .bool false)]⟩
    [(.item "declarations",
      .node ⟨.other "VariableDeclarator", some .zero, [("definite", .bool false)]⟩
        [(.single "id", b.declaredName), (.single "init", b.element)])]

end Binding

/-! ### The trees that use or declare a variable -/

namespace Tree

/-- The tree **mentions** a name at a span: it is an identifier with that value and that span, of no
particular context, and has no parts. -/
structure Mentions (t : Tree) (name : String) (span : Option Span) : Prop where
  label : t.label =
    { kind := .identifier name, span, data := [("ctxt", .int 0), ("optional", .bool false)] }
  parts : t.parts = []

/-- The tree **declares** a name with a keyword and an initial value: it is a declaration with one
declarator, whose parts are the name, without a type, and the value. None of the three nodes has a
place in the source. -/
structure Declares (t : Tree) (keyword name : String) (init : Tree) : Prop where
  label : t.label =
    { kind := .other "VariableDeclaration"
      span := some .zero
      data := [("ctxt", .int 0), ("kind", .text keyword), ("declare", .bool false)] }
  declarator : ∃ declarator declared : Tree,
    t.parts = [(.item "declarations", declarator)] ∧
    declarator.label =
      { kind := .other "VariableDeclarator"
        span := some .zero
        data := [("definite", .bool false)] } ∧
    declarator.parts = [(.single "id", declared), (.single "init", init)] ∧
    declared.label =
      { kind := .identifier name
        span := some .zero
        data := [("ctxt", .int 0), ("optional", .bool false), ("typeAnnotation", .null)] } ∧
    declared.parts = []

theorem mentions_iff {t : Tree} {name : String} {span : Option Span} :
    t.Mentions name span ↔ t = mention name span := by
  constructor
  · intro h
    exact eq_node h.label h.parts
  · rintro rfl
    exact ⟨rfl, rfl⟩

theorem declares_iff {t : Tree} {kind : DeclarationKind} {name : String} {init : Tree} :
    t.Declares kind.keyword name init ↔ t = Binding.declaration kind ⟨name, init⟩ := by
  constructor
  · rintro ⟨hlabel, declarator, declared, hparts, hlabel', hparts', hlabel'', hparts''⟩
    -- from the inside out: the name, the declarator, the declaration
    obtain rfl := eq_node hlabel'' hparts''
    obtain rfl := eq_node hlabel' hparts'
    exact eq_node hlabel hparts
  · rintro rfl
    exact ⟨rfl, _, _, rfl, rfl, rfl, rfl, rfl⟩

end Tree

theorem Binding.declares_declaration (b : Binding) (kind : DeclarationKind) :
    (b.declaration kind).Declares kind.keyword b.name b.element :=
  Tree.declares_iff.2 rfl

end JsxHoist
