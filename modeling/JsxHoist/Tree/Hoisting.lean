import JsxHoist.Element
import JsxHoist.NameSupply
import JsxHoist.Registry

/-!
# Hoisting

The walk over a tree that replaces each constant element by a reference to a binding. A `Scope` is
what the walk carries along: the bindings made so far and the names that are left. A constant
element is not entered; every other node is, and its parts are visited in order.
-/

namespace JsxHoist

/-- The bindings made so far and the supply of names for more. -/
structure Scope where
  registry : Registry := {}
  names : NameSupply := {}
deriving Inhabited

namespace Scope

/-- The name for an element: that of the binding entered under its span, if its span identifies
it and there is one, and else that of a new binding. -/
def bind (s : Scope) (element : Tree) : String × Scope :=
  let id? := element.span.bind Span.identity?
  match id?.bind s.registry.get? with
  | some b => (b.name, s)
  | none =>
    let (name, names) := s.names.fresh
    (name, { registry := s.registry.insert id? ⟨name, element⟩, names })

end Scope

namespace Tree

mutual

/-- Replaces the constant elements of a tree that stands in a slot. -/
def hoist (slot : Slot) : Tree → Scope → Tree × Scope
  | node l ps, s =>
    if (node l ps).isConstantElement then
      let (name, s) := s.bind (node l ps)
      (slot.reference name l.span, s)
    else
      let (ps, s) := hoistParts ps s
      (node l ps, s)

/-- Replaces the constant elements in the parts of a tree, from left to right. -/
def hoistParts : List (Slot × Tree) → Scope → List (Slot × Tree) × Scope
  | [], s => ([], s)
  | (slot, t) :: ps, s =>
    let (t, s) := t.hoist slot s
    let (ps, s) := hoistParts ps s
    ((slot, t) :: ps, s)

end

/-- A constant element becomes a reference. -/
theorem hoist_of_isConstantElement {t : Tree} (h : t.isConstantElement) (slot : Slot)
    (s : Scope) : t.hoist slot s = (slot.reference (s.bind t).1 t.span, (s.bind t).2) := by
  cases t with
  | node l ps => simp [hoist, h, span, label]

/-- Any other tree keeps its label and its slots. -/
theorem hoist_node {l : Label} {ps : List (Slot × Tree)}
    (h : ¬ (node l ps).isConstantElement) (slot : Slot) (s : Scope) :
    (node l ps).hoist slot s = (node l (hoistParts ps s).1, (hoistParts ps s).2) := by
  simp [hoist, h]

@[simp]
theorem hoistParts_nil (s : Scope) : hoistParts [] s = ([], s) := rfl

@[simp]
theorem hoistParts_cons (slot : Slot) (t : Tree) (ps : List (Slot × Tree)) (s : Scope) :
    hoistParts ((slot, t) :: ps) s =
      ((slot, (t.hoist slot s).1) :: (hoistParts ps (t.hoist slot s).2).1,
        (hoistParts ps (t.hoist slot s).2).2) := rfl

/-- Replaces the constant elements in a list of statements, from left to right. -/
def hoistItems : List Tree → Scope → List Tree × Scope
  | [], s => ([], s)
  | t :: ts, s =>
    let (t, s) := t.hoist (.item "body") s
    let (ts, s) := hoistItems ts s
    (t :: ts, s)

@[simp]
theorem hoistItems_nil (s : Scope) : hoistItems [] s = ([], s) := rfl

@[simp]
theorem hoistItems_cons (t : Tree) (ts : List Tree) (s : Scope) :
    hoistItems (t :: ts) s =
      ((t.hoist (.item "body") s).1 :: (hoistItems ts (t.hoist (.item "body") s).2).1,
        (hoistItems ts (t.hoist (.item "body") s).2).2) := rfl

/-- The walk over two lists in turn is the walk over both as one. -/
theorem hoistItems_append (ts us : List Tree) (s : Scope) :
    hoistItems (ts ++ us) s =
      ((hoistItems ts s).1 ++ (hoistItems us (hoistItems ts s).2).1,
        (hoistItems us (hoistItems ts s).2).2) := by
  induction ts generalizing s with
  | nil => rfl
  | cons t ts ih => simp [ih]

@[simp]
theorem length_hoistItems (ts : List Tree) (s : Scope) :
    (hoistItems ts s).1.length = ts.length := by
  induction ts generalizing s with
  | nil => rfl
  | cons t ts ih => simp [ih]

end Tree

end JsxHoist
