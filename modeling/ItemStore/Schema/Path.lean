import ItemStore.Schema
import ItemStore.Text.Split

/-
Dotted paths into a schema.

A path is a text cut at its dots, so every text is a path, and the empty text is
the path with one empty segment. In a map a segment is the name of a field; in a
list any segment at all leads to the element, since a schema does not care for
positions. Nothing lies below a scalar, a set or a key mark.
-/
set_option autoImplicit false

namespace ItemStore

/-- A dotted path such as `address.street` or `tags.[0]`. This is `AttributePath`, which
can be made of any text at all. -/
structure Path where
  text : String
  deriving DecidableEq, Repr

namespace Path

/-- The texts between the dots. This is `segments`. Its list is never empty, and
different texts have different segments. -/
def segments (p : Path) : List String := (Text.splitOn '.' p.text.toList).map String.ofList

/-- The first segment: the attribute of the item that the path starts from. This is
`root_attribute`. -/
def root (p : Path) : String := p.segments.headD ""

/-- Whether the path is a single segment. This is `is_top_level`. A top-level path has a
name token with the number of its test, any other path has name tokens without one. -/
def isTopLevel (p : Path) : Bool := !p.text.toList.contains '.'

/-- The path without its last segment, if it has more than one. An update asks the
schema of it whether the last segment names a field or an element. -/
def parent? (p : Path) : Option Path :=
  match p.segments.dropLast with
  | [] => none
  | segments => some ⟨".".intercalate segments⟩

/-- A character that a token may contain. -/
def isTokenChar (c : Char) : Bool := c.isAlphanum || c = '_'

/-- The characters of a segment that a token may contain. This is `sanitize`. Letters of
other scripts are dropped, so different segments may come out alike, and some come out
empty. -/
def sanitize (segment : String) : String :=
  String.ofList (segment.toList.filter isTokenChar)

/-- The path as one word: its sanitized segments with low lines between them. This is
`value_token`, the word in all value tokens of a test of the path. -/
def word (p : Path) : String := "_".intercalate (p.segments.map sanitize)

end Path

namespace Schema

/-- The node one segment below. This is `step`. The text of a segment is not looked at
in a list, so `tags.0`, `tags.[0]` and `tags.x` lead to the same node. -/
def step? (s : Schema) (segment : String) : Option Schema :=
  match s with
  | .list _ element => some element
  | .map _ fields => Entries.get? segment fields
  | _ => none

/-- The node that some segments lead to. It is a fold over the segments and so a walk
that can be stopped anywhere, which is what makes resolving go segment by segment. -/
def descend? (s : Schema) (segments : List String) : Option Schema :=
  segments.foldlM step? s

/-- The node a path leads to. This is `resolve`. -/
def resolve? (s : Schema) (p : Path) : Option Schema := s.descend? p.segments

/-- The node a path leads to; a path that leads nowhere is an error. This is `require`.
The error tells the whole path and not how far it led. -/
def resolve (s : Schema) (p : Path) : Except Error Schema :=
  match s.resolve? p with
  | some node => .ok node
  | none => .error (.pathNotFound p.text)

/-- **Walking on.** Segments can be followed in two goes. -/
theorem descend?_append (s : Schema) (first rest : List String) :
    s.descend? (first ++ rest) = (s.descend? first).bind fun node => node.descend? rest := by
  simp [descend?, List.foldlM_append]

end Schema

end ItemStore
