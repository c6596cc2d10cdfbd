import Padwork.Json.Token

/-!
# JSON values

The grammatical part of RFC 8259. A reader takes one token at a time and keeps the
arrays and objects that are still open on a stack, so values may be nested to any
depth. Objects keep all their members in order, also those with equal keys.
-/
namespace Padwork

inductive Json where
  | null
  | bool (value : Bool)
  | number (numeral : Json.Numeral)
  | text (units : Json.Units)
  | array (elements : List Json)
  | object (members : List (Json.Units × Json))

namespace Json

/-- An open array or object, with the parts before the value that is being read, in reverse. -/
inductive Frame where
  | array (elements : List Json)
  | object (members : List (Units × Json)) (key : Units)

/-- Where a reader is inside the open frames. -/
inductive Reader where
  | valueDue (stack : List Frame)
  | arrayStart (stack : List Frame)
  | objectStart (stack : List Frame)
  | keyDue (members : List (Units × Json)) (stack : List Frame)
  | colonDue (members : List (Units × Json)) (key : Units) (stack : List Frame)
  | complete (value : Json) (stack : List Frame)

namespace Reader

def start : Reader := .valueDue []

def feedValue (stack : List Frame) : Token → Option Reader
  | .null => some (.complete .null stack)
  | .bool value => some (.complete (.bool value) stack)
  | .number numeral => some (.complete (.number numeral) stack)
  | .text units => some (.complete (.text units) stack)
  | .arrayOpen => some (.arrayStart stack)
  | .objectOpen => some (.objectStart stack)
  | .arrayClose | .objectClose | .comma | .colon => none

def feedKey (members : List (Units × Json)) (stack : List Frame) : Token → Option Reader
  | .text units => some (.colonDue members units stack)
  | _ => none

def feedComplete (value : Json) : List Frame → Token → Option Reader
  | .array elements :: stack, .comma => some (.valueDue (.array (value :: elements) :: stack))
  | .array elements :: stack, .arrayClose =>
    some (.complete (.array (value :: elements).reverse) stack)
  | .object members key :: stack, .comma => some (.keyDue ((key, value) :: members) stack)
  | .object members key :: stack, .objectClose =>
    some (.complete (.object ((key, value) :: members).reverse) stack)
  | _, _ => none

def feed (r : Reader) (token : Token) : Option Reader :=
  match r with
  | .valueDue stack => feedValue stack token
  | .arrayStart stack =>
    if token = .arrayClose then some (.complete (.array []) stack)
    else feedValue (.array [] :: stack) token
  | .objectStart stack =>
    if token = .objectClose then some (.complete (.object []) stack) else feedKey [] stack token
  | .keyDue members stack => feedKey members stack token
  | .colonDue members key stack =>
    if token = .colon then some (.valueDue (.object members key :: stack)) else none
  | .complete value stack => feedComplete value stack token

def value? : Reader → Option Json
  | .complete value [] => some value
  | _ => none

end Reader

def ofTokens? (tokens : List Token) : Option Json :=
  (tokens.foldlM Reader.feed .start).bind Reader.value?

def parse? (text : String) : Option Json := (tokens? text).bind ofTokens?

end Json

end Padwork
