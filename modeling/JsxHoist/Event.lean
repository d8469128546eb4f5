import JsxHoist.Datum
import JsxHoist.Options.Basic

/-!
# Events

What a hoister tells about its work, and how it is worded.
-/

namespace JsxHoist

/-- How much an event matters. -/
inductive Level where
  | warn
  | info
  | debug
deriving DecidableEq, Repr, Inhabited

/-- The level as it is written. -/
def Level.text : Level → String
  | warn => "WARN"
  | info => "INFO"
  | debug => "DEBUG"

/-- Something that a hoister has to tell. -/
inductive Event where
  /-- The options text was refused, and the defaults are used. -/
  | optionsIgnored (reason : OptionsError)
  /-- A module does not import the library, so nothing is hoisted. -/
  | importMissing (source : String)
  /-- A script cannot import, so nothing is hoisted. -/
  | scriptSkipped
  /-- The heading of a report, with the number of bindings. -/
  | hoisting (file : String) (count : Nat)
  /-- A line of a report, for one binding. -/
  | hoisted (file binding element : String)
deriving DecidableEq, Repr, Inhabited

namespace Event

/-- The level of an event. -/
def level : Event → Level
  | optionsIgnored _ => .warn
  | importMissing _ => .debug
  | scriptSkipped => .debug
  | hoisting _ _ => .info
  | hoisted _ _ _ => .info

/-- The wording of an event. -/
def message : Event → String
  | optionsIgnored _ => "ignoring plugin config"
  | importMissing _ => "no library import, module left untouched"
  | scriptSkipped => "script has no imports, left untouched"
  | hoisting _ _ => "hoisting constant elements"
  | hoisted _ _ _ => "hoisted"

/-- What an event tells besides its message. For options that were refused, `detail?` is as in
`OptionsError.message`. -/
def fields (e : Event) (detail? : Option String := none) : List (String × Datum) :=
  match e with
  | optionsIgnored reason => [("error", .text (reason.message detail?))]
  | importMissing source => [("import_source", .text source)]
  | scriptSkipped => []
  | hoisting file count => [("file", .text file), ("count", .int count)]
  | hoisted file binding element =>
    [("file", .text file), ("binding", .text binding), ("element", .text element)]

end Event

end JsxHoist
