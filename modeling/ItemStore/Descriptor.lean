import ItemStore.Entries
import ItemStore.Kind
import ItemStore.Text.Quoted

/-
Descriptors: values as the store holds them.

A descriptor is a value with its tag. Numbers are kept as the text they came
in, so nothing is lost to rounding on the way through. Maps remember the order
of their entries, but two maps with the same entries in another order are the
same value.
-/
set_option autoImplicit false

namespace ItemStore

/-- A value of the store, marked with its type. This is `TypeDescriptor`. A number is
the text it came with, and a set is a list of its members: neither is brought into a
normal form when it is built, only on the wire. -/
inductive Descriptor where
  | string (s : String)
  | number (text : String)
  | binary (bytes : List UInt8)
  | stringSet (members : List String)
  | numberSet (members : List String)
  | binarySet (members : List (List UInt8))
  | bool (b : Bool)
  | null
  | list (items : List Descriptor)
  | map (entries : List (String × Descriptor))

/-- A stored item: named attributes in order, each name once. Order does not count when
items are compared, but it does on the wire, where a request is written as it was put
together. -/
abbrev Item := List (String × Descriptor)

namespace Descriptor

/-- The tag the value is stored under. This is `tag`, and what a shape mismatch names on
both sides when decoding. -/
def tag : Descriptor → Tag
  | string _ => .string
  | number _ => .number
  | binary _ => .binary
  | stringSet _ => .stringSet
  | numberSet _ => .numberSet
  | binarySet _ => .binarySet
  | bool _ => .bool
  | null => .null
  | list _ => .list
  | map _ => .map

/-- Whether the value is the null marker. This is `is_null`. Decoding asks it before
anything else, so the marker stands for null under every schema. -/
def isNull : Descriptor → Bool
  | null => true
  | _ => false

/-- The text of a string. This is `as_s`. -/
def string? : Descriptor → Option String
  | string s => some s
  | _ => none

/-- The text of a number. This is `as_n`. -/
def number? : Descriptor → Option String
  | number text => some text
  | _ => none

/-- The items of a list. This is `as_l`. -/
def items? : Descriptor → Option (List Descriptor)
  | list items => some items
  | _ => none

/-- The entries of a map. This is `as_m`. -/
def entries? : Descriptor → Option (List (String × Descriptor))
  | map entries => some entries
  | _ => none

/-- What a descriptor shows of its content: short values in full, others by size. -/
def summary : Descriptor → String
  | string s => s
  | number text => text
  | binary bytes => toString bytes.length ++ " bytes"
  | stringSet members => Text.quotedList members
  | numberSet members => Text.quotedList members
  | binarySet members => toString members.length ++ " items"
  | bool b => if b then "true" else "false"
  | null => "null"
  | list items => toString items.length ++ " items"
  | map entries => toString entries.length ++ " keys"

/-- The descriptor in one line: its tag and a summary between braces. -/
def line (d : Descriptor) : String := "\x7b" ++ d.tag.text ++ ": " ++ d.summary ++ "\x7d"

/-! ## Equality -/

mutual

/-- Whether two descriptors are the same value: equal, except that the entries of maps
may come in any order. This is the equality that `bind_value` and `merge` decide by, and
the reason why it is not `=`: a token may be bound again to a map that lists its entries
the other way round. -/
def same : Descriptor → Descriptor → Bool
  | string a, string b => a = b
  | number a, number b => a = b
  | binary a, binary b => a = b
  | stringSet a, stringSet b => a = b
  | numberSet a, numberSet b => a = b
  | binarySet a, binarySet b => a = b
  | bool a, bool b => a = b
  | null, null => true
  | list a, list b => sameItems a b
  | map a, map b => a.length = b.length && sameEntries a b
  | _, _ => false

/-- Whether two lists hold the same values in the same order. -/
def sameItems : List Descriptor → List Descriptor → Bool
  | [], [] => true
  | a :: as, b :: bs => a.same b && sameItems as bs
  | _, _ => false

/-- Whether everything in the first list is stored in the second one as well. -/
def sameEntries : List (String × Descriptor) → List (String × Descriptor) → Bool
  | [], _ => true
  | (k, a) :: as, bs =>
    (match Entries.get? k bs with
      | some b => a.same b
      | none => false) && sameEntries as bs

end

end Descriptor

/-- Whether two items are the same, the order of their attributes aside. -/
def Item.same (a b : Item) : Bool := (Descriptor.map a).same (.map b)

end ItemStore
