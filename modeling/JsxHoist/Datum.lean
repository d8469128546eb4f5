/-!
# Untouched data

Syntax trees hold fields that hoisting neither reads nor changes: flags, raw number texts, marks
of token positions. They are carried along as a `Datum`, and a whole tree can be laid out as one
(`JsxHoist.Tree.Interchange`).
-/

namespace JsxHoist

/-- Plain structured data. The fields of a record keep the order in which they were given. -/
inductive Datum where
  | null
  | bool (b : Bool)
  | int (n : Int)
  | text (s : String)
  | list (items : List Datum)
  | record (fields : List (String × Datum))
deriving Inhabited

namespace Datum

/-- The content of a text, if the datum is one. -/
def text? : Datum → Option String
  | text s => some s
  | _ => none

/-- The value of a flag, if the datum is one. -/
def bool? : Datum → Option Bool
  | bool b => some b
  | _ => none

/-- A natural number, if the datum is one. -/
def nat? : Datum → Option Nat
  | int (.ofNat n) => some n
  | _ => none

/-- The fields of a record; anything else has none. -/
def fields : Datum → List (String × Datum)
  | record fs => fs
  | _ => []

/-- A field of a record, if it is there. -/
def field? (d : Datum) (name : String) : Option Datum :=
  d.fields.lookup name

end Datum

end JsxHoist
