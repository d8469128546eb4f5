import JsxHoist.Json.Token

/-!
# Reading JSON text

`Json.ofText?` reads a text that is one JSON value and nothing else. It runs a machine over the
tokens of the text, one step a token, with a frame for each array and object that is still open,
so that values may nest to any depth.
-/

namespace JsxHoist

namespace Json

/-- An array or object that is still open, with its last item or member first. -/
inductive Frame where
  | array (items : List Json)
  /-- An object whose member under `key` is being read. -/
  | object (members : List (Option String × Json)) (key : Option String)
deriving Inhabited

/-- What has been read, and with it what may follow. The innermost open frame comes first. -/
inductive Progress where
  /-- A value must follow. -/
  | value (frames : List Frame)
  /-- An array has just been opened: a value or the end of the array must follow. -/
  | item (frames : List Frame)
  /-- An object has just been opened: a key or the end of the object must follow. -/
  | member (frames : List Frame)
  /-- A comma between members: a key must follow. -/
  | nextKey (members : List (Option String × Json)) (frames : List Frame)
  /-- A key: a colon must follow. -/
  | colon (members : List (Option String × Json)) (key : Option String) (frames : List Frame)
  /-- A whole value: a comma or the end of the innermost frame must follow. -/
  | complete (v : Json) (frames : List Frame)
deriving Inhabited

namespace Progress

/-- Reads the first token of a value. -/
def openValue (frames : List Frame) : Token → Option Progress
  | .scalar v => some (complete v frames)
  | .leftBracket => some (item frames)
  | .leftBrace => some (member frames)
  | _ => none

/-- Reads the key of a member. -/
def openMember (members : List (Option String × Json)) (frames : List Frame) :
    Token → Option Progress
  | .scalar (.string key) => some (colon members key frames)
  | _ => none

/-- Reads one token. -/
def step : Progress → Token → Option Progress
  | value frames, t => openValue frames t
  | item frames, .rightBracket => some (complete (.array []) frames)
  | item frames, t => openValue (.array [] :: frames) t
  | member frames, .rightBrace => some (complete (.object []) frames)
  | member frames, t => openMember [] frames t
  | nextKey members frames, t => openMember members frames t
  | colon members k frames, .colon => some (value (.object members k :: frames))
  | complete v (.array items :: frames), .comma => some (value (.array (v :: items) :: frames))
  | complete v (.array items :: frames), .rightBracket =>
    some (complete (.array (v :: items).reverse) frames)
  | complete v (.object members k :: frames), .comma => some (nextKey ((k, v) :: members) frames)
  | complete v (.object members k :: frames), .rightBrace =>
    some (complete (.object ((k, v) :: members).reverse) frames)
  | _, _ => none

/-- The value that has been read, if it is whole and nothing is open. -/
def result? : Progress → Option Json
  | complete v [] => some v
  | _ => none

end Progress

/-- The value that a list of tokens writes. -/
def ofTokens? (ts : List Token) : Option Json :=
  (ts.foldlM Progress.step (.value [])).bind Progress.result?

/-- The value that a text writes, if it is strict JSON. -/
def ofText? (text : String) : Option Json :=
  (Token.scan text.toList).bind ofTokens?

end Json

end JsxHoist
