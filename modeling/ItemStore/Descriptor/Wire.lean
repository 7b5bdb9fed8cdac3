import ItemStore.Descriptor
import ItemStore.Json.Scan
import ItemStore.Json.Text
import ItemStore.Text.Base64

/-
The wire text of descriptors.

A descriptor travels as an object with its tag as the only key. Bytes are base64
text. The members of a number set travel as JSON numbers where their text is one,
which puts them into canonical form, and as strings otherwise; the number of a
number attribute always travels as a string and is left alone.

Reading goes through the document from left to right and stops at the first thing
that is wrong. Most faults are all alike to a sender; the three that say something
about descriptors rather than about JSON have causes of their own.

Writing is `serialize` and reading `deserialize`, with `visit_map` as its heart. Both
are split into a document and a text, because all that is particular to descriptors
happens between documents, and the texts are those of JSON in general.
-/
set_option autoImplicit false

namespace ItemStore

open Json

/-- Why a text was refused. Only the last three have texts of their own; what the first
one says is up to the reader of JSON. -/
inductive Refusal where
  /-- The text is not JSON, or a value is not of the type it should have. -/
  | malformed
  /-- A descriptor has no key or a second one. -/
  | notOneKey
  /-- A null marker says `false`. -/
  | nullNotTrue
  /-- A descriptor has a key that is no tag. -/
  | unknownTag (tag : String)
  deriving DecidableEq, Repr

/-- The tags between backquotes. -/
def Tag.listing : String := ", ".intercalate (Tag.all.map fun tag => "`" ++ tag.text ++ "`")

/-- The text of a refusal that is about descriptors. -/
def Refusal.message? : Refusal → Option String
  | malformed => none
  | notOneKey => some "type descriptor must have exactly one key"
  | nullNotTrue => some "NULL descriptor must be true"
  | unknownTag tag => some ("unknown field `" ++ tag ++ "`, expected one of " ++ Tag.listing)

namespace Descriptor

/-! ## Writing -/

/-- A member of a number set: a number if its whole text is one, else a string. This is
`from_decimal`. The text of the number that is written is not always this text: `1.50`
is written as `1.5`. -/
def memberDocument (text : String) : Document :=
  match Number.ofText? text.toList with
  | some n => .number n
  | none => .string text

/-- Bytes as base64 text. This is `encode_binary`. -/
def bytesDocument (bytes : List UInt8) : Document :=
  .string (String.ofList (Text.Base64.encode bytes))

mutual

/-- The document a descriptor travels as. This is `serialize`. The number of a number
attribute is a string here in any case, so it keeps the text it has. -/
def toDocument : Descriptor → Document
  | string s => .record [("S", .string s)]
  | number text => .record [("N", .string text)]
  | binary bytes => .record [("B", bytesDocument bytes)]
  | stringSet members => .record [("SS", .list (members.map .string))]
  | numberSet members => .record [("NS", .list (members.map memberDocument))]
  | binarySet members => .record [("BS", .list (members.map bytesDocument))]
  | bool b => .record [("BOOL", .bool b)]
  | null => .record [("NULL", .null)]
  | list items => .record [("L", .list (itemsToDocuments items))]
  | map entries => .record [("M", .record (entriesToMembers entries))]

/-- The documents of several descriptors. -/
def itemsToDocuments : List Descriptor → List Document
  | [] => []
  | d :: ds => d.toDocument :: itemsToDocuments ds

/-- The members for the entries of a map. -/
def entriesToMembers : List (String × Descriptor) → List (String × Document)
  | [] => []
  | (k, d) :: entries => (k, d.toDocument) :: entriesToMembers entries

end

/-- The wire text. -/
def wire (d : Descriptor) : String := d.toDocument.render

/-! ## Reading -/

/-- The text of a member of a number set: a string as it is, a number in canonical form.
This is `into_decimal`. A string need not be the text of a number: it is taken as it is,
and only decoding looks into it. -/
def memberOfDocument : Document → Except Refusal String
  | .number n => .ok (String.ofList n.text)
  | .string s => .ok s
  | _ => .error .malformed

/-- A string. -/
def stringOfDocument : Document → Except Refusal String
  | .string s => .ok s
  | _ => .error .malformed

/-- The bytes of a base64 string. Padding is required and spare bits have to be zero, so
different texts never name the same bytes. -/
def bytesOfDocument : Document → Except Refusal (List UInt8)
  | .string s =>
    match Text.Base64.decode? s.toList with
    | some bytes => .ok bytes
    | none => .error .malformed
  | _ => .error .malformed

/-- A result, unless the array or object it came from is cut off. The check comes after
the members have been read, so a fault among them is told rather than the missing
bracket. -/
def ifClosed {α : Type} (closed : Bool) (result : α) : Except Refusal α :=
  if closed then .ok result else .error .malformed

/-- The members of an array, each read by `read`. The reader of a member is a parameter,
because sets, lists of items and sets of bytes differ in nothing else. -/
def arrayOfDocument {α : Type} (read : Document → Except Refusal α) :
    Document → Except Refusal (List α)
  | .array items closed => do
    let members ← items.mapM read
    ifClosed closed members
  | _ => .error .malformed

/-- A descriptor, unless its object goes on after its payload. A second key is told as
such even if the object is cut off behind it. -/
def onlyMember (d : Descriptor) (more : List (String × Document)) (closed : Bool) :
    Except Refusal Descriptor :=
  if more.isEmpty then ifClosed closed d else .error .notOneKey

mutual

/-- The descriptor a document denotes. This is `visit_map`. The payload is read before
it is known whether another key follows, so a fault in the payload is told first. -/
def ofDocument : Document → Except Refusal Descriptor
  | .object [] true => .error .notOneKey
  | .object ((key, payload) :: more) closed =>
    match Tag.ofText? key with
    | none => .error (.unknownTag key)
    | some tag => do
      let d ← ofPayload tag payload
      onlyMember d more closed
  | _ => .error .malformed

/-- The descriptor with a given tag and payload. These are the cases of `visit_map`, one
for each tag; a payload of any other form is malformed. -/
def ofPayload : Tag → Document → Except Refusal Descriptor
  | .string, payload => (stringOfDocument payload).map string
  | .number, payload => (stringOfDocument payload).map number
  | .binary, payload => (bytesOfDocument payload).map binary
  | .stringSet, payload => (arrayOfDocument stringOfDocument payload).map stringSet
  | .numberSet, payload => (arrayOfDocument memberOfDocument payload).map numberSet
  | .binarySet, payload => (arrayOfDocument bytesOfDocument payload).map binarySet
  | .bool, .bool b => .ok (bool b)
  | .null, .null => .ok null
  | .null, .bool true => .ok null
  | .null, .bool false => .error .nullNotTrue
  | .list, .array items closed => do
    let items ← ofDocuments items
    ifClosed closed (list items)
  | .map, .object members closed => do
    let entries ← ofMembers members
    ifClosed closed (map (Entries.ofList entries))
  | _, _ => .error .malformed

/-- The descriptors of several documents. -/
def ofDocuments : List Document → Except Refusal (List Descriptor)
  | [] => .ok []
  | d :: ds => do
    let first ← ofDocument d
    let rest ← ofDocuments ds
    .ok (first :: rest)

/-- The descriptors under several keys. Repeated keys are kept here, and it is the map
made of them that lets the last one win. -/
def ofMembers : List (String × Document) → Except Refusal (List (String × Descriptor))
  | [] => .ok []
  | (k, d) :: ms => do
    let first ← ofDocument d
    let rest ← ofMembers ms
    .ok ((k, first) :: rest)

end

/-- The descriptor of a wire text. What follows the document is looked at last, after
the descriptor has been made. -/
def read (text : String) : Except Refusal Descriptor := do
  let (document, ended) := scanText text
  let d ← ofDocument document
  ifClosed ended d

end Descriptor

namespace Item

/-- The document an item travels as: an object of descriptors. -/
def toDocument (item : Item) : Document := .record (Descriptor.entriesToMembers item)

/-- The item a document denotes; a repeated name keeps its first place and takes its
last value. -/
def ofDocument : Document → Except Refusal Item
  | .object members closed => do
    let entries ← Descriptor.ofMembers members
    Descriptor.ifClosed closed (Entries.ofList entries)
  | _ => .error .malformed

/-- The wire text of an item. -/
def wire (item : Item) : String := (toDocument item).render

/-- The item of a wire text. -/
def read (text : String) : Except Refusal Item := do
  let (document, ended) := scanText text
  let item ← ofDocument document
  Descriptor.ifClosed ended item

end Item

end ItemStore
