/-
Kinds of attributes and the tags they are stored under.

The store marks every value with a tag: one for each scalar type, one for each
type of set, one for lists, one for maps and one for the null marker. A schema
speaks of kinds instead. Kinds and tags do not match one to one, because a date
has no tag of its own and travels as a string.

Operations are named in these comments as their callers name them, between backquotes:
`tag` of a descriptor, `descriptor_tag` of a kind. A definition that has such a name
beside it does what that operation does, in its failures as well.
-/
set_option autoImplicit false

namespace ItemStore

/-- The ten tags of the store. -/
inductive Tag where
  | string
  | number
  | binary
  | stringSet
  | numberSet
  | binarySet
  | bool
  | null
  | list
  | map
  deriving DecidableEq, Repr

/-- The tag as the store spells it. These texts are the only keys a descriptor can have
on the wire (`tag`), and the only operands that `attribute_type` takes. -/
def Tag.text : Tag → String
  | string => "S"
  | number => "N"
  | binary => "B"
  | stringSet => "SS"
  | numberSet => "NS"
  | binarySet => "BS"
  | bool => "BOOL"
  | null => "NULL"
  | list => "L"
  | map => "M"

/-- All tags, in the order in which they are listed to people. The refusal of an unknown
tag recites them, so the order is part of a message. -/
def Tag.all : List Tag :=
  [string, number, binary, stringSet, numberSet, binarySet, bool, null, list, map]

/-- The tag with a given spelling. The spelling is exact: `s` is no tag. -/
def Tag.ofText? (text : String) : Option Tag := Tag.all.find? fun tag => tag.text = text

/-- Kinds of scalar attributes. A schema says one of them at each of its scalar leaves
(`ScalarKind`). -/
inductive ScalarKind where
  | string
  | number
  | boolean
  | date
  | binary
  deriving DecidableEq, Repr

namespace ScalarKind

/-- The name used in messages. This is `as_str`, and what a shape mismatch gives as
expected. -/
def text : ScalarKind → String
  | string => "string"
  | number => "number"
  | boolean => "boolean"
  | date => "date"
  | binary => "binary"

/-- The tag that values of the kind are stored under. This is `descriptor_tag`. It is
not injective: a date has the tag of a string, which is why decoding asks the schema and
not the tag. -/
def tag : ScalarKind → Tag
  | string => .string
  | number => .number
  | boolean => .bool
  | date => .string
  | binary => .binary

/-- All scalar kinds. -/
def all : List ScalarKind := [string, number, boolean, date, binary]

end ScalarKind

/-- Kinds of sets, by their members. There are sets of three kinds only (`SetKind`);
truth values and dates have none. -/
inductive SetKind where
  | string
  | number
  | binary
  deriving DecidableEq, Repr

namespace SetKind

/-- The kind of one member. This is `member_kind`, and the kind that an operand of
`contains` is encoded with. -/
def member : SetKind → ScalarKind
  | string => .string
  | number => .number
  | binary => .binary

/-- The name used in messages. -/
def text (kind : SetKind) : String := kind.member.text ++ " set"

/-- The tag that sets of the kind are stored under. This is `descriptor_tag` for sets,
and injective, unlike the one for scalars. -/
def tag : SetKind → Tag
  | string => .stringSet
  | number => .numberSet
  | binary => .binarySet

/-- All set kinds. -/
def all : List SetKind := [string, number, binary]

end SetKind

/-- Reading a spelled tag gives it back. -/
theorem Tag.ofText?_text (tag : Tag) : Tag.ofText? tag.text = some tag := by
  cases tag <;> decide +kernel

end ItemStore
