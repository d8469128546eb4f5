import JsxHoist.JsxName

/-!
# Syntax trees

A tree is a label with parts, each in a slot, in the order in which they are visited.

* `Kind` tells apart the few kinds of node that hoisting depends on; every other node is known by
  its name alone.
* `Slot` says where a part stands, since a reference among the children of an element looks
  different from one in an expression.
* `Label` keeps all fields without a tree in them as they are.
* `Tree.words` collects the words that a tree uses as names.
-/

namespace JsxHoist

/-- A string literal. `raw` is its text with the quotes, if it was written in a file. -/
structure StringLiteral where
  value : String
  raw : Option String
  span : Option Span := none
  data : List (String × Datum) := []
deriving Inhabited

/-- What a node is. -/
inductive Kind where
  /-- Any use of a word as a name: a variable, a property, a label, a binding. -/
  | identifier (value : String)
  | string (value : String) (raw : Option String)
  | number
  | boolean
  /-- A JSX element. -/
  | element
  /-- The opening tag of an element; `selfClosing` if it ends in a slash. -/
  | opening (tag : JsxName) (selfClosing : Bool)
  | closing (tag : JsxName)
  /-- A named attribute of an element. A spread of attributes is not of this kind. -/
  | attr (name : JsxName)
  /-- An expression in braces, as a child or the value of an attribute. -/
  | container
  | expressionStatement
  | importDeclaration (source : StringLiteral)
  /-- An absent item of a list. -/
  | hole
  /-- A node without a name, such as an argument of a call. -/
  | untyped
  /-- Any other node, by its name. -/
  | other (name : String)
deriving Inhabited

/-- Where a part stands in its tree. -/
inductive Slot where
  /-- The opening tag of an element. -/
  | opening
  /-- An item of the attribute list of an opening tag. -/
  | attr
  /-- The value of an attribute. -/
  | attrValue
  /-- A child of an element or fragment. -/
  | child
  /-- The only tree of any other field. -/
  | single (field : String)
  /-- An item of any other list. -/
  | item (field : String)
deriving DecidableEq, Repr, Inhabited

namespace Slot

/-- The field that the slot belongs to. -/
def field : Slot → String
  | opening => "opening"
  | attr => "attributes"
  | attrValue => "value"
  | child => "children"
  | single field => field
  | item field => field

/-- Does the field of the slot hold a list? -/
def repeated : Slot → Bool
  | attr | child | item _ => true
  | opening | attrValue | single _ => false

end Slot

/-- A node without its parts: its kind, its place in the source and all else recorded about it. -/
structure Label where
  kind : Kind
  span : Option Span := none
  data : List (String × Datum) := []
deriving Inhabited

/-- A syntax tree. -/
inductive Tree where
  | node (label : Label) (parts : List (Slot × Tree))
deriving Inhabited

/-- The words that a node itself uses as names. -/
def Kind.words : Kind → List String
  | identifier value => [value]
  | opening tag _ => tag.words
  | closing tag => tag.words
  | attr name => name.words
  | _ => []

namespace Tree

/-- The root without its parts. -/
def label : Tree → Label
  | node l _ => l

/-- The parts of the root, in visiting order. -/
def parts : Tree → List (Slot × Tree)
  | node _ ps => ps

/-- A tree is its root with its parts. -/
theorem eq_node {t : Tree} {l : Label} {ps : List (Slot × Tree)} (hlabel : t.label = l)
    (hparts : t.parts = ps) : t = node l ps := by
  subst hlabel hparts
  cases t
  rfl

/-- The span of the root. -/
def span (t : Tree) : Option Span :=
  t.label.span

mutual

/-- Every word that the tree uses as a name, at any depth, in visiting order. -/
def words : Tree → List String
  | node l ps => l.kind.words ++ wordsOfParts ps

/-- Every word that a list of parts uses as a name. -/
def wordsOfParts : List (Slot × Tree) → List String
  | [] => []
  | (_, t) :: ps => t.words ++ wordsOfParts ps

end

theorem wordsOfParts_eq_flatMap (ps : List (Slot × Tree)) :
    wordsOfParts ps = ps.flatMap fun p => p.2.words := by
  induction ps with
  | nil => rfl
  | cons p ps ih => simp [wordsOfParts, ih]

end Tree

end JsxHoist
