import JsxHoist.Json.Reader
import JsxHoist.Options.Basic

/-!
# Reading options

Options are written as a JSON object with the members `verbose`, `importSource`, `prefix` and
`declarationKind`, or as an array of these values in this order. What is missing takes its default.

* In an object each of the four keys may stand once, in any order; other members are ignored,
  whatever their values (`Options.ofMembers?`).
* Blank text, which holds only characters with the Unicode property `White_Space`, stands for the
  defaults (`Options.ofText`).
* A host that must go on with some options takes the defaults when the text is refused
  (`Options.ofHost`).
-/

namespace JsxHoist

/-! ### Blank text -/

/-- The ranges of code points with the property `White_Space`, ends included. -/
def blankRanges : List (Nat × Nat) :=
  [(0x9, 0xD), (0x20, 0x20), (0x85, 0x85), (0xA0, 0xA0), (0x1680, 0x1680), (0x2000, 0x200A),
    (0x2028, 0x2029), (0x202F, 0x202F), (0x205F, 0x205F), (0x3000, 0x3000)]

/-- Is the character white space? -/
def IsBlankChar (c : Char) : Prop :=
  ∃ r ∈ blankRanges, r.1 ≤ c.toNat ∧ c.toNat ≤ r.2

instance (c : Char) : Decidable (IsBlankChar c) :=
  inferInstanceAs (Decidable (∃ r ∈ blankRanges, _))

/-- Does the text hold white space only? The empty text does. -/
def IsBlank (text : String) : Prop :=
  ∀ c ∈ text.toList, IsBlankChar c

instance (text : String) : Decidable (IsBlank text) :=
  List.decidableBAll IsBlankChar text.toList

/-! ### Values of options -/

namespace Json

/-- The flag that a value is. -/
def bool? : Json → Option Bool
  | bool b => some b
  | _ => none

/-- The text that a value is. -/
def text? : Json → Option String
  | string text => text
  | _ => none

end Json

/-- A kind is written as its keyword, or as an object with the keyword as its only key and no
value. -/
def DeclarationKind.ofJson? : Json → Option DeclarationKind
  | .string (some word) => ofKeyword? word
  | .object [(some word, .null)] => ofKeyword? word
  | _ => none

/-! ### Options from values and texts -/

namespace Options

/-- What the members of an object say under a key: the default if the key is missing, and nothing
if it is repeated. -/
def memberOr {α : Type} (fallback : α) (read? : Json → Option α) (key : String)
    (members : List (Option String × Json)) : Option α :=
  match members.filter (·.1 = some key) with
  | [] => some fallback
  | [m] => read? m.2
  | _ => none

/-- What an array says at an index: the default if the array is too short. -/
def itemOr {α : Type} (fallback : α) (read? : Json → Option α) (i : Nat) (items : List Json) :
    Option α :=
  match items[i]? with
  | none => some fallback
  | some v => read? v

/-- Options from the members of an object. Every key must denote a text. -/
def ofMembers? (members : List (Option String × Json)) : Option Options := do
  let standard : Options := {}
  guard (members.all (·.1.isSome))
  let verbose ← memberOr standard.verbose Json.bool? "verbose" members
  let importSource ← memberOr standard.importSource Json.text? "importSource" members
  let stem ← memberOr standard.stem Json.text? "prefix" members
  let declarationKind ←
    memberOr standard.declarationKind DeclarationKind.ofJson? "declarationKind" members
  return { verbose, importSource, stem, declarationKind }

/-- Options from the items of an array, of which there may be no more than options. -/
def ofItems? (items : List Json) : Option Options := do
  let standard : Options := {}
  guard (items.length ≤ 4)
  let verbose ← itemOr standard.verbose Json.bool? 0 items
  let importSource ← itemOr standard.importSource Json.text? 1 items
  let stem ← itemOr standard.stem Json.text? 2 items
  let declarationKind ← itemOr standard.declarationKind DeclarationKind.ofJson? 3 items
  return { verbose, importSource, stem, declarationKind }

/-- Options from a JSON value; they need not be valid. -/
def ofJson? : Json → Option Options
  | .object members => ofMembers? members
  | .array items => ofItems? items
  | _ => none

/-- Valid options from a text. A fault of form is named before any other. -/
def ofText (text : String) : Except OptionsError Options :=
  if IsBlank text then .ok {}
  else
    match (Json.ofText? text).bind ofJson? with
    | none => .error .invalidJson
    | some o => o.validate.map fun _ => o

/-- The options to run with when the host hands over `text?`: the defaults if there is no text,
and also, together with the reason, if the text is refused. -/
def ofHost : Option String → Options × Option OptionsError
  | none => ({}, none)
  | some text =>
    match ofText text with
    | .ok o => (o, none)
    | .error e => ({}, some e)

end Options

end JsxHoist
