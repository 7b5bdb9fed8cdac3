import ItemStore.Json.Number

/-
What a JSON text says.

A document is what a reader that goes through a text from left to right gets to
see of it. For a well-formed text that is the usual tree. For a text that stops
being JSON somewhere it is the tree up to that place: the value that breaks is
`cut`, and the arrays and objects around it are not `closed`. A reader of some
format works on documents and can thus report the first thing that is wrong with
a text, be it a member it does not know or a missing bracket further on.
-/
set_option autoImplicit false

namespace ItemStore.Json

/-- A JSON document, possibly cut off. Members are kept in order, repeated keys
included. A reader that works on documents sees faults in the order of the text, which
is the order in which they are told. -/
inductive Document where
  | null
  | bool (b : Bool)
  | number (n : Number)
  | string (s : String)
  | array (items : List Document) (closed : Bool)
  | object (members : List (String × Document)) (closed : Bool)
  /-- Here the text stops being JSON. -/
  | cut

namespace Document

/-- An array that stands in its text as a whole. -/
abbrev list (items : List Document) : Document := .array items true

/-- An object that stands in its text as a whole. -/
abbrev record (members : List (String × Document)) : Document := .object members true

mutual

/-- Whether nothing of the document is cut off. -/
def isWhole : Document → Bool
  | .cut => false
  | .array items closed => closed && areWhole items
  | .object members closed => closed && areWholeMembers members
  | _ => true

/-- Whether nothing of any document is cut off. -/
def areWhole : List Document → Bool
  | [] => true
  | d :: ds => d.isWhole && areWhole ds

/-- Whether nothing of any member is cut off. -/
def areWholeMembers : List (String × Document) → Bool
  | [] => true
  | (_, d) :: ms => d.isWhole && areWholeMembers ms

end

mutual

/-- How deep arrays and objects are nested. Readers go 127 levels deep and no further,
so this is what a theorem about reading has to ask for. -/
def depth : Document → Nat
  | .array items _ => depthOfItems items + 1
  | .object members _ => depthOfMembers members + 1
  | _ => 0

/-- The depth of the deepest document. -/
def depthOfItems : List Document → Nat
  | [] => 0
  | d :: ds => max d.depth (depthOfItems ds)

/-- The depth of the deepest member. -/
def depthOfMembers : List (String × Document) → Nat
  | [] => 0
  | (_, d) :: ms => max d.depth (depthOfMembers ms)

end

end Document

end ItemStore.Json
