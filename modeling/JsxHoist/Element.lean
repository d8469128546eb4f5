import JsxHoist.Tree.Basic

/-!
# Constant elements

An element is **constant** when it evaluates to the same value every time: it is self-closing, has
no children and no closing tag, and each of its attributes is a bare flag, has a string as its
value, or has a string, number or boolean literal in braces.
-/

namespace JsxHoist

namespace Tree

/-- Is the tree a string, number or boolean literal? -/
def isPrimitive : Tree → Bool
  | node ⟨.string _ _, _, _⟩ [] => true
  | node ⟨.number, _, _⟩ [] => true
  | node ⟨.boolean, _, _⟩ [] => true
  | _ => false

/-- Is the value of an attribute always the same? Other literals than strings count only in
braces. -/
def isImmutableValue : Tree → Bool
  | node ⟨.string _ _, _, _⟩ [] => true
  | node ⟨.container, _, _⟩ [(_, e)] => e.isPrimitive
  | _ => false

/-- Is the item of an attribute list always the same? A spread is not. -/
def isImmutableAttribute : Tree → Bool
  | node ⟨.attr _, _, _⟩ [] => true
  | node ⟨.attr _, _, _⟩ [(.attrValue, v)] => v.isImmutableValue
  | _ => false

/-- The items of the attribute list of an opening tag. -/
def attributes (opening : Tree) : List Tree :=
  opening.parts.filterMap fun p => if p.1 = .attr then some p.2 else none

/-- Is the tree a constant element? -/
def isConstantElement : Tree → Bool
  | node ⟨.element, _, _⟩ [(.opening, o)] =>
    match o.label.kind with
    | .opening _ true => o.attributes.all isImmutableAttribute
    | _ => false
  | _ => false

/-- The opening tag of an element. -/
def opening? : Tree → Option Tree
  | node ⟨.element, _, _⟩ ((.opening, o) :: _) => some o
  | _ => none

/-- The name of an element. -/
def tag? (t : Tree) : Option JsxName :=
  t.opening?.bind fun o =>
    match o.label.kind with
    | .opening tag _ => some tag
    | _ => none

end Tree

end JsxHoist
