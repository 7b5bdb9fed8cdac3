import ItemStore.Decimal.Read
import ItemStore.Schema.Encode
import ItemStore.Text.Blank

/-
Decoding what the store returns.

A descriptor is decoded along its schema into a value with exactly the keys that
the descriptor carries: nothing is made up for a field that is missing, and a null
is accepted everywhere. An attribute that the schema does not declare is an error
in strict mode and is skipped in lenient mode; at each map this is settled before
anything inside the map is decoded.

The entry points are `decode`, which is strict, `decode_with_mode` and `decode_item`.
The last one has an item where the others have a descriptor, and so it asks for a map as
schema itself: it does not look behind a key mark, as the others do.
-/
set_option autoImplicit false

namespace ItemStore

/-- What to do about attributes that the schema does not declare. A table has one in its
configuration, and every item it returns is decoded with it. -/
inductive DecodeMode where
  /-- They are an error. -/
  | strict
  /-- They are skipped. -/
  | lenient
  deriving DecidableEq, Repr

/-- The finite number a stored text names, blanks around it aside. This is
`parse_number`. What stands in a store may have been written by others, so blanks around
a number are allowed although `encodeNumber` never writes any. -/
def decodeNumber (path : String) (text : String) : Except Error Float :=
  match (Decimal.read? (Text.trim text.toList)).filter Float.isFinite with
  | some x => .ok x
  | none => .error (.invalidNumber path text)

/-- Applies `decode` to the elements of a list, each with its own place. -/
def decodeItems {α : Type} (decode : String → α → Except Error Value) (path : String) :
    (index : Nat) → List α → Except Error (List Value)
  | _, [] => .ok []
  | index, d :: ds => do
    let first ← decode (placeAt path index) d
    let rest ← decodeItems decode path (index + 1) ds
    .ok (first :: rest)

/-- The instant a stored text names. This is `parse_date`. It accepts any offset, where
the encoder writes none but UTC. -/
def decodeDate (path : String) (text : String) : Except Error Value :=
  match Time.Instant.read? text.toList with
  | some t => .ok (.date t)
  | none => .error (.invalidDate path text)

/-- Decodes a descriptor that is not null as a scalar. This is `decode_scalar`. Both
sides of a mismatch are named by their tags, so a date is expected as `S`. -/
def ScalarKind.decode (kind : ScalarKind) (path : String) (d : Descriptor) :
    Except Error Value :=
  match kind, d with
  | .string, .string s => .ok (.string s)
  | .number, .number text => (decodeNumber path text).map .number
  | .boolean, .bool b => .ok (.bool b)
  | .date, .string s => decodeDate path s
  | .binary, .binary bytes => .ok (.binary bytes)
  | kind, d => .error (.shapeMismatch path kind.tag.text d.tag.text)

/-- Decodes a descriptor that is not null as a set. This is `decode_set`. -/
def SetKind.decode (kind : SetKind) (path : String) (d : Descriptor) : Except Error Value :=
  match kind, d with
  | .string, .stringSet members => .ok (.list (members.map .string))
  | .number, .numberSet members =>
    (decodeItems (fun place text => (decodeNumber place text).map .number) path 0 members).map
      .list
  | .binary, .binarySet members => .ok (.list (members.map .binary))
  | kind, d => .error (.shapeMismatch path kind.tag.text d.tag.text)

/-- Whether the attributes of a map may be decoded: in strict mode the first one that is
not declared is an error. It runs before any field of the map is decoded. So of an
attribute that is not declared and one that is malformed, the one that is not declared
is reported, whichever comes first in the item. -/
def DecodeMode.checkNames (mode : DecodeMode) (fields : List (String × Schema))
    (path : String) (entries : List (String × Descriptor)) : Except Error Unit :=
  match mode with
  | .lenient => .ok ()
  | .strict =>
    match (Entries.keys entries).find? fun name => !Entries.has name fields with
    | some name => .error (.pathNotFound (placeOf path name))
    | none => .ok ()

namespace Schema

mutual

/-- Decodes the descriptor at a place. This is `decode_value`. It asks for null before
it asks the schema, so modifiers play no part in decoding. -/
def decodeAt (mode : DecodeMode) (s : Schema) (path : String) (d : Descriptor) :
    Except Error Value :=
  if d.isNull then .ok .null
  else
    match s with
    | .scalar _ kind => kind.decode path d
    | .set _ kind => kind.decode path d
    | .map _ fields =>
      match d with
      | .map entries => do
        -- all names are looked at before any field is decoded
        mode.checkNames fields path entries
        let decoded ← decodeFields mode fields path entries
        .ok (.map decoded)
      | d => .error (.shapeMismatch path Tag.map.text d.tag.text)
    | .list _ element =>
      match d with
      | .list items => (decodeItems (element.decodeAt mode) path 0 items).map .list
      | d => .error (.shapeMismatch path Tag.list.text d.tag.text)
    | .partitionKey _ inner => inner.decodeAt mode path d
    | .sortKey _ inner => inner.decodeAt mode path d

/-- Decodes what a map has under the names of some fields, in the order of the fields.
This is `decode_fields` without its first step, the names. Fields lead here as they do
in `encodeFields`, so decoding puts the keys of a map into the order of their
declaration. -/
def decodeFields (mode : DecodeMode) (fields : List (String × Schema)) (path : String)
    (entries : List (String × Descriptor)) : Except Error (List (String × Value)) :=
  match fields with
  | [] => .ok []
  | (name, field) :: fields =>
    match Entries.get? name entries with
    | some d => do
      let first ← field.decodeAt mode (placeOf path name) d
      let rest ← decodeFields mode fields path entries
      .ok ((name, first) :: rest)
    | none => decodeFields mode fields path entries

end

/-- Decodes a descriptor. This is `decode_with_mode`. -/
def decode (s : Schema) (mode : DecodeMode) (d : Descriptor) : Except Error Value :=
  s.decodeAt mode "" d

/-- Decodes an item with the schema of a map. This is `decode_item`. It repeats the case
of a map in `decodeAt` for the outermost map, which comes without a tag; key marks
around that map are not looked behind. -/
def decodeItem (s : Schema) (mode : DecodeMode) (item : Item) : Except Error Value :=
  match s.fields? with
  | some fields => do
    mode.checkNames fields "" item
    let decoded ← decodeFields mode fields "" item
    .ok (.map decoded)
  | none => .error (.shapeMismatch "" s.text Tag.map.text)

end Schema

end ItemStore
