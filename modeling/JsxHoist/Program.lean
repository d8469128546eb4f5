import JsxHoist.Tree.Interchange

/-!
# Programs

A program is a module, which can import, or a script, which cannot.
-/

namespace JsxHoist

/-- A module: its items, its place in the source and all else recorded about it. -/
structure Module where
  body : List Tree
  span : Span := .zero
  data : List (String × Datum) := []
deriving Inhabited

/-- A program. Nothing in a script is ever looked at, so it is kept as data. -/
inductive Program where
  | module (m : Module)
  | script (content : Datum)
deriving Inhabited

namespace Module

/-- Every word that the module uses as a name. -/
def words (m : Module) : List String :=
  m.body.flatMap Tree.words

/-- The module that a record is. -/
def ofDatum? (d : Datum) : Option Module := do
  guard ((← d.field? "type").text? = some "Module")
  let span ← Span.ofDatum? (← d.field? "span")
  let body ← Tree.listOfDatum? (← d.field? "body")
  return { body, span, data := without ["type", "span", "body"] d.fields }

/-- The record of a module. -/
def toDatum (m : Module) : Datum :=
  .record ([("type", .text "Module"), ("span", m.span.toDatum),
    ("body", .list (m.body.map Tree.toDatum))] ++ m.data)

end Module

namespace Program

/-- The program that a record is. -/
def ofDatum? (d : Datum) : Option Program := do
  match (← d.field? "type").text? with
  | some "Module" => (Module.ofDatum? d).map .module
  | some "Script" => some (.script d)
  | _ => none

/-- The record of a program. -/
def toDatum : Program → Datum
  | .module m => m.toDatum
  | .script content => content

end Program

end JsxHoist
