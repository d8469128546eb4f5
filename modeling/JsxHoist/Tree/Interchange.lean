import JsxHoist.Tree.Layout

/-!
# Trees as data

The exchange form of a tree: a node is a record with a `type`, a `span` and its fields, an absent
tree is null, and a list of trees is a list.

* `Tree.ofDatum?` reads a record. The fields that `Layout.childFields` names become the parts, in
  that order; null and empty lists among them hold no part and stay in the label.
* `Tree.toDatum` writes a tree.
-/

namespace JsxHoist

/-- The fields of a record without those of the given names. -/
def without (names : List String) (fields : List (String × Datum)) : List (String × Datum) :=
  fields.filter fun f => f.1 ∉ names

/-! ### Spans -/

/-- The span that a record with a `start` and an `end` is. -/
def Span.ofDatum? (d : Datum) : Option Span := do
  let start ← (← d.field? "start").nat?
  let stop ← (← d.field? "end").nat?
  return ⟨start, stop⟩

/-- The record of a span. -/
def Span.toDatum (s : Span) : Datum :=
  .record [("start", .int s.start), ("end", .int s.stop)]

/-- The field of a record that holds its span. -/
def spanField (span : Option Span) : List (String × Datum) :=
  span.toList.map fun s => ("span", s.toDatum)

/-! ### Names and string literals

These are read from trees, since their parts have been read before them. -/

/-- The word that a tree is. -/
def Ident.ofTree? : Tree → Option Ident
  | .node ⟨.identifier value, span, data⟩ [] => some { value, span, data }
  | _ => none

/-- The record of a word in a name. -/
def Ident.toDatum (i : Ident) : Datum :=
  .record ([("type", .text "Identifier"), ("value", .text i.value)] ++ spanField i.span ++ i.data)

/-- The JSX name that a tree is. -/
def JsxName.ofTree? : Tree → Option JsxName
  | .node ⟨.other "JSXMemberExpression", span, data⟩
      [(.single "object", object), (.single "property", property)] => do
    return .member (← JsxName.ofTree? object) (← Ident.ofTree? property) span data
  | .node ⟨.other "JSXNamespacedName", span, data⟩
      [(.single "namespace", scope), (.single "name", name)] => do
    return .namespaced (← Ident.ofTree? scope) (← Ident.ofTree? name) span data
  | t => (Ident.ofTree? t).map .plain

/-- The record of a JSX name. -/
def JsxName.toDatum : JsxName → Datum
  | .plain word => word.toDatum
  | .member object property span data =>
    .record ([("type", .text "JSXMemberExpression"), ("object", object.toDatum),
      ("property", property.toDatum)] ++ spanField span ++ data)
  | .namespaced scope name span data =>
    .record ([("type", .text "JSXNamespacedName"), ("namespace", scope.toDatum),
      ("name", name.toDatum)] ++ spanField span ++ data)

/-- A literal as it is written; null if it stands in no file. -/
def rawToDatum : Option String → Datum
  | none => .null
  | some raw => .text raw

/-- Reads what `rawToDatum` writes. -/
def rawOfDatum? : Datum → Option (Option String)
  | .null => some none
  | .text raw => some (some raw)
  | _ => none

/-- The string literal that a tree is. -/
def StringLiteral.ofTree? : Tree → Option StringLiteral
  | .node ⟨.string value raw, span, data⟩ [] => some { value, raw, span, data }
  | _ => none

/-- The record of a string literal. -/
def StringLiteral.toDatum (s : StringLiteral) : Datum :=
  .record ([("type", .text "StringLiteral"), ("value", .text s.value), ("raw", rawToDatum s.raw)]
    ++ spanField s.span ++ s.data)

/-! ### Reading -/

/-- A node in the making: its kind, its data and its parts. -/
structure Draft where
  kind : Kind
  data : List (String × Datum)
  parts : List (Slot × Tree)
deriving Inhabited

namespace Draft

/-- Takes the tree of a field out of the parts. -/
def takePart? (d : Draft) (field : String) : Option (Tree × Draft) :=
  (d.parts.lookup (.single field)).map fun t =>
    (t, { d with parts := d.parts.filter (·.1 ≠ .single field) })

/-- Takes the value of a field out of the data. -/
def takeData? (d : Draft) (field : String) : Option (Datum × Draft) :=
  (d.data.lookup field).map fun v => (v, { d with data := without [field] d.data })

/-- Recognises the kinds of node that hoisting tells apart, and moves the fields that such a kind
records into it. Fails on any other node, and on one that lacks such a field. -/
def recognise? (d : Draft) : Option Draft := do
  match d.kind with
  | .other "Identifier" =>
    let (value, d) ← d.takeData? "value"
    return { d with kind := .identifier (← value.text?) }
  | .other "StringLiteral" =>
    let (value, d) ← d.takeData? "value"
    let (raw, d) ← d.takeData? "raw"
    return { d with kind := .string (← value.text?) (← rawOfDatum? raw) }
  | .other "NumericLiteral" => return { d with kind := .number }
  | .other "BooleanLiteral" => return { d with kind := .boolean }
  | .other "JSXElement" => return { d with kind := .element }
  | .other "JSXOpeningElement" =>
    let (tag, d) ← d.takePart? "name"
    let (selfClosing, d) ← d.takeData? "selfClosing"
    return { d with kind := .opening (← JsxName.ofTree? tag) (← selfClosing.bool?) }
  | .other "JSXClosingElement" =>
    let (tag, d) ← d.takePart? "name"
    return { d with kind := .closing (← JsxName.ofTree? tag) }
  | .other "JSXAttribute" =>
    let (name, d) ← d.takePart? "name"
    return { d with kind := .attr (← JsxName.ofTree? name) }
  | .other "JSXExpressionContainer" => return { d with kind := .container }
  | .other "ExpressionStatement" => return { d with kind := .expressionStatement }
  | .other "ImportDeclaration" =>
    let (source, d) ← d.takePart? "source"
    return { d with kind := .importDeclaration (← StringLiteral.ofTree? source) }
  | _ => none

end Draft

/-- The trees that a field holds. -/
inductive Content where
  /-- No tree: the field is data. -/
  | data
  | single (t : Tree)
  | items (ts : List Tree)
deriving Inhabited

namespace Content

/-- The content of a field as parts of a node with the given name. -/
def toParts (name : Option String) (field : String) : Content → List (Slot × Tree)
  | data => []
  | single t => [(Layout.slot name field false, t)]
  | items ts => ts.map fun t => (Layout.slot name field true, t)

end Content

namespace Tree

/-- A node from the fields of its record and the trees that they hold. -/
def assemble (fields : List (String × Datum)) (contents : List (String × Content)) : Tree :=
  let name := (fields.lookup "type").bind Datum.text?
  let span := (fields.lookup "span").bind Span.ofDatum?
  let parts := (Layout.childFields name).flatMap fun field =>
    ((contents.lookup field).getD .data).toParts name field
  let taken := name.toList.map (fun _ => "type") ++ span.toList.map (fun _ => "span") ++
    parts.map fun p => p.1.field
  let draft : Draft := ⟨(name.map Kind.other).getD .untyped, without taken fields, parts⟩
  let draft := draft.recognise?.getD draft
  node ⟨draft.kind, span, draft.data⟩ draft.parts

mutual

/-- The trees in a field. A list counts only if it is not empty and each of its items is a record
or null. -/
def contentOf : Datum → Content
  | .record fields => .single (assemble fields (contentsOf fields))
  | .list [] => .data
  | .list items => ((itemsOf? items).map .items).getD .data
  | _ => .data

/-- The trees in each field of a record. -/
def contentsOf : List (String × Datum) → List (String × Content)
  | [] => []
  | (field, d) :: rest => (field, contentOf d) :: contentsOf rest

/-- The trees in a list; null is a hole. -/
def itemsOf? : List Datum → Option (List Tree)
  | [] => some []
  | .null :: rest => (itemsOf? rest).map (node { kind := .hole } [] :: ·)
  | d :: rest =>
    match contentOf d, itemsOf? rest with
    | .single t, some ts => some (t :: ts)
    | _, _ => none

end

/-- The tree that a record holds. -/
def ofDatum? (d : Datum) : Option Tree :=
  match contentOf d with
  | .single t => some t
  | _ => none

/-- The trees that a list holds. -/
def listOfDatum? : Datum → Option (List Tree)
  | .list items => itemsOf? items
  | _ => none

end Tree

/-! ### Writing -/

/-- The fields of a record that its kind determines. -/
def Kind.fields : Kind → List (String × Datum)
  | identifier value => [("type", .text "Identifier"), ("value", .text value)]
  | string value raw =>
    [("type", .text "StringLiteral"), ("value", .text value), ("raw", rawToDatum raw)]
  | number => [("type", .text "NumericLiteral")]
  | boolean => [("type", .text "BooleanLiteral")]
  | element => [("type", .text "JSXElement")]
  | opening tag selfClosing =>
    [("type", .text "JSXOpeningElement"), ("name", tag.toDatum), ("selfClosing", .bool selfClosing)]
  | closing tag => [("type", .text "JSXClosingElement"), ("name", tag.toDatum)]
  | attr name => [("type", .text "JSXAttribute"), ("name", name.toDatum)]
  | container => [("type", .text "JSXExpressionContainer")]
  | expressionStatement => [("type", .text "ExpressionStatement")]
  | importDeclaration source => [("type", .text "ImportDeclaration"), ("source", source.toDatum)]
  | hole => []
  | untyped => []
  | other name => [("type", .text name)]

/-- Puts a written part before the fields of the parts that follow it: items of one list are
collected in one field. -/
def addPart (slot : Slot) (d : Datum) (fields : List (String × Datum)) : List (String × Datum) :=
  if slot.repeated then
    match fields with
    | (field, .list items) :: rest =>
      if field = slot.field then (field, .list (d :: items)) :: rest
      else (slot.field, .list [d]) :: fields
    | _ => (slot.field, .list [d]) :: fields
  else (slot.field, d) :: fields

namespace Tree

mutual

/-- The record of a tree. -/
def toDatum : Tree → Datum
  | node l ps =>
    match l.kind with
    | .hole => .null
    | kind => .record (kind.fields ++ spanField l.span ++ l.data ++ partFields ps)

/-- The fields that hold the parts of a tree. -/
def partFields : List (Slot × Tree) → List (String × Datum)
  | [] => []
  | (slot, t) :: ps => addPart slot t.toDatum (partFields ps)

end

end Tree

end JsxHoist
