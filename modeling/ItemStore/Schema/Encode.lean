import ItemStore.Decimal.Text
import ItemStore.Descriptor
import ItemStore.Schema
import ItemStore.Value

/-
Encoding values for the store.

A value is encoded along its schema. The schema decides everything: which type a
value gets, which keys of a map are looked at and in which order they are written.
Keys that the schema does not declare are never sent. The first value that does
not fit is reported with its place, a dotted path of map keys and list positions
from the root; a key mark adds nothing to the path.

The entry points are `encode`, `encode_optional` and `encode_item`. All of them go
through `encodeAt`, which carries the place along, so the path in an error is right
however deep the error arises.
-/
set_option autoImplicit false

namespace ItemStore

/-- The place of something inside the value at `path`. This is `join`; the empty path is
the root, and nothing is put in front of the first name. -/
def placeOf (path name : String) : String :=
  if path = "" then name else path ++ "." ++ name

/-- The place of a list item or set member inside the value at `path`. This is
`join_index`: positions stand in a place as plain numbers, without brackets. -/
def placeAt (path : String) (index : Nat) : String := placeOf path (toString index)

/-- The text of a finite number; the store has no others. This is `format_number`, the
one place where a value of the right shape is refused for what it is. -/
def encodeNumber (path : String) (x : Float) : Except Error String :=
  if x.isFinite then .ok (Decimal.plain x)
  else .error (.shapeMismatch path "finite number" (Decimal.plain x))

/-- Applies `encode` to the items of a list, each with its own place. Its argument is
the encoder of one item, because lists and the three kinds of sets differ in nothing
else. -/
def encodeItems {α : Type} (encode : String → Value → Except Error α) (path : String) :
    (index : Nat) → List Value → Except Error (List α)
  | _, [] => .ok []
  | index, v :: vs => do
    let first ← encode (placeAt path index) v
    let rest ← encodeItems encode path (index + 1) vs
    .ok (first :: rest)

/-- The text of a date that is given as an instant or as any ISO text. Both go through
the same formatting (`format_date`), so a text is normalized to UTC and milliseconds on
its way into the store. -/
def encodeDate (path : String) : Value → Except Error String
  | .date t => .ok (String.ofList t.text)
  | .string s =>
    match Time.Instant.read? s.toList with
    | some t => .ok (String.ofList t.text)
    | none => .error (.invalidDate path s)
  | v => .error (.shapeMismatch path ScalarKind.date.text v.kindName)

namespace ScalarKind

/-- Encodes a value that is not null as a scalar. This is `encode_scalar`. -/
def encode (kind : ScalarKind) (path : String) (v : Value) : Except Error Descriptor :=
  match kind, v with
  | .string, .string s => .ok (.string s)
  | .number, .number x => (encodeNumber path x).map .number
  | .boolean, .bool b => .ok (.bool b)
  | .date, v => (encodeDate path v).map .string
  | .binary, .binary bytes => .ok (.binary bytes)
  | kind, v => .error (.shapeMismatch path kind.text v.kindName)

end ScalarKind

namespace SetKind

/-- The string of a set member. -/
def stringMember (path : String) : Value → Except Error String
  | .string s => .ok s
  | v => .error (.shapeMismatch path ScalarKind.string.text v.kindName)

/-- The number text of a set member. -/
def numberMember (path : String) : Value → Except Error String
  | .number x => encodeNumber path x
  | v => .error (.shapeMismatch path ScalarKind.number.text v.kindName)

/-- The bytes of a set member. -/
def binaryMember (path : String) : Value → Except Error (List UInt8)
  | .binary bytes => .ok bytes
  | v => .error (.shapeMismatch path ScalarKind.binary.text v.kindName)

/-- Encodes the items of a list as the members of a set. -/
def encodeMembers (kind : SetKind) (path : String) (items : List Value) :
    Except Error Descriptor :=
  match kind with
  | .string => (encodeItems stringMember path 0 items).map .stringSet
  | .number => (encodeItems numberMember path 0 items).map .numberSet
  | .binary => (encodeItems binaryMember path 0 items).map .binarySet

/-- Encodes a value that is not null as a set. This is `encode_set`. Members that repeat
are kept: a set is as long as the list it was made of. -/
def encode (kind : SetKind) (path : String) : Value → Except Error Descriptor
  | .list items => kind.encodeMembers path items
  | v => .error (.shapeMismatch path kind.text v.kindName)

end SetKind

namespace Schema

mutual

/-- Encodes the value at a place. This is `encode_value`. Null is decided on before the
node is looked at, so only the modifiers of the outermost node count for it. -/
def encodeAt (s : Schema) (path : String) (v : Value) : Except Error Descriptor :=
  if v.isNull then
    if s.isNullable then .ok .null else .error (.valueNotNullable path)
  else
    match s with
    | .scalar _ kind => kind.encode path v
    | .set _ kind => kind.encode path v
    | .map _ fields =>
      match v with
      | .map entries => (encodeFields fields path entries).map .map
      | v => .error (.shapeMismatch path "map" v.kindName)
    | .list _ element =>
      match v with
      | .list items => (encodeItems element.encodeAt path 0 items).map .list
      | v => .error (.shapeMismatch path "list" v.kindName)
    | .partitionKey _ inner => inner.encodeAt path v
    | .sortKey _ inner => inner.encodeAt path v

/-- Encodes what a map has under the names of some fields, in the order of the fields.
Because the fields lead, keys of the map that no field declares are never seen, and
their order never matters. -/
def encodeFields (fields : List (String × Schema)) (path : String)
    (entries : List (String × Value)) : Except Error (List (String × Descriptor)) :=
  match fields with
  | [] => .ok []
  | (name, field) :: fields =>
    match Entries.get? name entries with
    | some v => do
      let first ← field.encodeAt (placeOf path name) v
      let rest ← encodeFields fields path entries
      .ok ((name, first) :: rest)
    | none =>
      if field.isOptional then encodeFields fields path entries
      else .error (.valueNotOptional (placeOf path name))

end

/-- Encodes a value. This is `encode`. -/
def encode (s : Schema) (v : Value) : Except Error Descriptor := s.encodeAt "" v

/-- Encodes a value that may be absent; an absent one is fine if it is optional. This is
`encode_optional`. Absence is settled at the root only, with the empty path in the
error. -/
def encodeOptional (s : Schema) : Option Value → Except Error (Option Descriptor)
  | some v => (s.encode v).map some
  | none => if s.isOptional then .ok none else .error (.valueNotOptional "")

/-- Encodes a map as an item. This is `encode_item`. A schema that is no map, or a null
that is accepted, encodes to something that is no item, and that is a shape mismatch at
the root. -/
def encodeItem (s : Schema) (v : Value) : Except Error Item := do
  match ← s.encode v with
  | .map item => .ok item
  | d => .error (.shapeMismatch "" Tag.map.text d.tag.text)

end Schema

end ItemStore
