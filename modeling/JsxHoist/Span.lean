/-!
# Source spans

A `Span` is a range of byte positions in a source file; the first byte has position `1`.
Nodes that no source text stands behind carry a *dummy* span, and only a span that is not dummy
identifies the node it belongs to (`Span.identity?`).
-/

namespace JsxHoist

/-- A half-open range of byte positions. Nothing forces `start ≤ stop`: synthetic nodes may carry
any pair. -/
structure Span where
  /-- The position of the first byte. -/
  start : Nat
  /-- The position after the last byte. -/
  stop : Nat
deriving DecidableEq, Repr, Inhabited

namespace Span

/-- The span of generated nodes. -/
def zero : Span := ⟨0, 0⟩

/-- The first of the start positions set aside for nodes that no file contains: from `2 ^ 16` below
the largest 32-bit position on. -/
def reservedStart : Nat := 0xFFFFFFFF - 0x10000

/-- A span is dummy when it is `zero` or starts in the reserved range. -/
def IsDummy (s : Span) : Prop :=
  s = zero ∨ reservedStart ≤ s.start

instance (s : Span) : Decidable s.IsDummy :=
  inferInstanceAs (Decidable (_ ∨ _))

/-- What a span says about identity: two nodes with the same span that is not dummy are copies of
one node, and a dummy span says nothing. -/
def identity? (s : Span) : Option Span :=
  if s.IsDummy then none else some s

theorem identity?_eq_some_iff {s i : Span} : s.identity? = some i ↔ ¬ s.IsDummy ∧ i = s := by
  simp only [identity?]
  split <;> simp_all [eq_comm]

end Span

end JsxHoist
