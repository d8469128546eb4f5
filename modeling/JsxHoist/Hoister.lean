import JsxHoist.Event
import JsxHoist.LibraryImport
import JsxHoist.Options.Reader
import JsxHoist.Program
import JsxHoist.SourceMap
import JsxHoist.Tree.Hoisting

/-!
# The hoister

A hoister moves the constant elements of a module into declarations behind the library import. It
can be used for one program after another, and for single trees.

* `Hoister.visitModule`: a module with an anchor starts with a scope of its own. Its bindings are
  declared and forgotten; its supply of names stays for single trees that follow. All but the walk
  over the items is in `Hoister.visitModuleBy`, which takes any walk.
* `Hoister.visitTree` and `Hoister.visitItems` only replace elements by references; the scope
  goes on from one call to the next.
-/

namespace JsxHoist

/-- A hoister: its options, the source that spans point into, if known, and its scope. -/
structure Hoister where
  options : Options
  source : Option SourceMap := none
  scope : Scope := {}
deriving Inhabited

/-- What comes of a visit. -/
structure Visit (α : Type) where
  /-- What was visited, as it is afterwards. -/
  result : α
  /-- What the hoister tells, in order. -/
  events : List Event
  /-- The hoister afterwards. -/
  hoister : Hoister

namespace Hoister

/-! ### Reports -/

/-- The name of the file that a module with the given span comes from. -/
def fileName (h : Hoister) (span : Span) : String :=
  match h.source with
  | some map => if span.IsDummy then "unknown" else displayName (map.fileName span.start)
  | none => "unknown"

/-- The source text of an element, if the element has a place in the source. -/
def sourceText? (h : Hoister) (element : Tree) : Option String := do
  (← h.source).text? (← (← element.span).identity?)

/-- An element in a report: its source text, or else its bare tag. -/
def elementText (h : Hoister) (element : Tree) : String :=
  (h.sourceText? element).getD ("<" ++ (element.tag?.map JsxName.text).getD "" ++ " />")

/-- The report on the bindings made for a module. -/
def report (h : Hoister) (span : Span) (bindings : List Binding) : List Event :=
  let file := h.fileName span
  .hoisting file bindings.length ::
    bindings.map fun b => .hoisted file b.name (h.elementText b.element)

/-! ### Visits -/

/-- The scope in which a module is visited: no bindings yet, and every word of the module taken. -/
def moduleScope (h : Hoister) (m : Module) : Scope where
  names := { stem := h.options.stem, taken := m.words }

/-- Visits a module: walks over the items behind its anchor, and declares the bindings that the walk
made between the anchor and what the walk left. Without an anchor nothing changes. -/
def visitModuleBy (walk : List Tree → Scope → List Tree × Scope) (h : Hoister) (m : Module) :
    Visit Module :=
  match anchor? h.options.importSource m.body with
  | none => ⟨m, [.importMissing h.options.importSource], h⟩
  | some i =>
    let (tail, scope) := walk (m.body.drop (i + 1)) (h.moduleScope m)
    let bindings := scope.registry.bindings.toList
    let declarations := bindings.map (Binding.declaration h.options.declarationKind)
    { result := { m with body := m.body.take (i + 1) ++ declarations ++ tail }
      events := if h.options.verbose then h.report m.span bindings else []
      hoister := { h with scope := { scope with registry := {} } } }

/-- Hoists the constant elements behind the anchor of a module. -/
def visitModule (h : Hoister) (m : Module) : Visit Module :=
  h.visitModuleBy Tree.hoistItems m

/-- Hoists in a program. Scripts stay as they are. -/
def visitProgram (h : Hoister) : Program → Visit Program
  | .module m =>
    let v := h.visitModule m
    { v with result := .module v.result }
  | .script content => ⟨.script content, [.scriptSkipped], h⟩

/-- Replaces the constant elements of a single tree that stands in a slot. -/
def visitTree (h : Hoister) (slot : Slot) (t : Tree) : Visit Tree :=
  let (t, scope) := t.hoist slot h.scope
  ⟨t, [], { h with scope }⟩

/-- Replaces the constant elements of a list of statements. -/
def visitItems (h : Hoister) (items : List Tree) : Visit (List Tree) :=
  let (items, scope) := Tree.hoistItems items h.scope
  ⟨items, [], { h with scope }⟩

end Hoister

end JsxHoist
