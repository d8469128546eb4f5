import JsxHoist.Span

/-!
# Source maps

A source map knows the files that spans point into: the name of the file that holds a position, and
the text that a span covers. Reports take both from it; hoisting itself never looks at the source.

Positions count the bytes of a file's content, to which a byte order mark at the start of the file
does not belong (`withoutMark`).
-/

namespace JsxHoist

/-- What is known about the source that spans point into. -/
structure SourceMap where
  /-- The name of the file that holds a position. -/
  fileName : Nat → String
  /-- The text that a span covers, if the source has it. -/
  text? : Span → Option String
deriving Inhabited

/-- The bytes of a text that a span covers, read as a text. The first byte has position `1`, and
the span must lie in the text. -/
def snippet? (text : String) (s : Span) : Option String :=
  let bytes := text.toUTF8
  if 0 < s.start ∧ s.start ≤ s.stop ∧ s.stop ≤ bytes.size + 1 then
    String.fromUTF8? (bytes.extract (s.start - 1) (s.stop - 1))
  else none

/-- Removes a beginning of a text, if the text begins so. -/
def stripStart? (start text : List Char) : Option (List Char) :=
  if start.isPrefixOf text then some (text.drop start.length) else none

/-- The character that marks the byte order when it is the first of a file. -/
def byteOrderMark : Char := '\ufeff'

/-- The content of a file: its text without a byte order mark at the start. A mark anywhere else,
also right after the first, is content. -/
def withoutMark (text : String) : String :=
  ((stripStart? [byteOrderMark] text.toList).map String.ofList).getD text

/-- The source map of a single file. -/
def SourceMap.ofFile (name text : String) : SourceMap where
  fileName _ := name
  text? := snippet? (withoutMark text)

/-- The name of a file as reports show it: with forward slashes, and without the scheme of a file
address. -/
def displayName (name : String) : String :=
  let path := name.toList.map fun c => if c = '\\' then '/' else c
  String.ofList
    (((stripStart? "file:///".toList path).or (stripStart? "file://".toList path)).getD path)

end JsxHoist
