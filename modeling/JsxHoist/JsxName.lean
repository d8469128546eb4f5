import JsxHoist.Datum
import JsxHoist.Span

/-!
# Names in JSX

The name of an element or attribute: `a`, a member path `a.b.c`, or a name in a namespace, `a:b`.
No expression stands in such a name, so it belongs to the label of a tree and is no part of it.
-/

namespace JsxHoist

/-- A word in a JSX name, with where it stands and what else is recorded about it. -/
structure Ident where
  /-- The word itself. -/
  value : String
  span : Option Span := none
  data : List (String × Datum) := []
deriving Inhabited

/-- The name of an element or attribute. -/
inductive JsxName where
  | plain (word : Ident)
  | member (object : JsxName) (property : Ident) (span : Option Span) (data : List (String × Datum))
  | namespaced (scope name : Ident) (span : Option Span) (data : List (String × Datum))
deriving Inhabited

namespace JsxName

/-- The name as it is written: members are joined by dots, a namespace by a colon. -/
def text : JsxName → String
  | plain word => word.value
  | member object property _ _ => object.text ++ "." ++ property.value
  | namespaced scope name _ _ => scope.value ++ ":" ++ name.value

/-- The words of a name, from left to right. -/
def words : JsxName → List String
  | plain word => [word.value]
  | member object property _ _ => object.words ++ [property.value]
  | namespaced scope name _ _ => [scope.value, name.value]

end JsxName

end JsxHoist
