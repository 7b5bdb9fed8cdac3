import ItemStore.Json.Scan
import ItemStore.Json.Text
import ItemStore.Text.Base64
import ItemStore.Value

/-
Values and plain JSON.

Written as JSON a value loses its finer types: dates are ISO texts, bytes are
base64 texts, and a number that is not finite is null. In the other direction
every JSON document is a value; the keys of an object come out in ascending order.

Writing is the `serialize` of a value, and reading is `from` a JSON value. The way there and
back loses the finer types and nothing else, as long as the text is not nested deeper than
readers of JSON go.
-/
set_option autoImplicit false

namespace ItemStore.Value

open Json

mutual

/-- The value as a JSON document. -/
def toDocument : Value → Document
  | null => .null
  | bool b => .bool b
  | number x => if x.isFinite then .number (.double x) else .null
  | string s => .string s
  | date t => .string (String.ofList t.text)
  | binary bytes => .string (String.ofList (Text.Base64.encode bytes))
  | list items => .list (itemsToDocuments items)
  | map entries => .record (entriesToMembers entries)

/-- The documents of several values. -/
def itemsToDocuments : List Value → List Document
  | [] => []
  | v :: vs => v.toDocument :: itemsToDocuments vs

/-- The members for the entries of a map. -/
def entriesToMembers : List (String × Value) → List (String × Document)
  | [] => []
  | (k, v) :: entries => (k, v.toDocument) :: entriesToMembers entries

end

/-- The value as compact JSON text. This is the text of `serialize`. -/
def json (v : Value) : String := v.toDocument.render

mutual

/-- The value of a whole document. What is cut off counts as null. This is `from` a JSON
value, which takes numbers of any kind as doubles. -/
def ofDocument : Document → Value
  | .null => null
  | .bool b => bool b
  | .number n => number n.toFloat
  | .string s => string s
  | .array items _ => list (ofDocuments items)
  | .object members _ => map (Entries.ofListSorted (ofMembers members))
  | .cut => null

/-- The values of several documents. -/
def ofDocuments : List Document → List Value
  | [] => []
  | d :: ds => ofDocument d :: ofDocuments ds

/-- The values under several keys. -/
def ofMembers : List (String × Document) → List (String × Value)
  | [] => []
  | (k, d) :: ms => (k, ofDocument d) :: ofMembers ms

end

/-- The value of a well-formed JSON text. A text that is nested too deeply is not
well-formed in this sense, as it cannot be read. -/
def ofJson? (text : String) : Option Value := (parse? text).map ofDocument

end ItemStore.Value
