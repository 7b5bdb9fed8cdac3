import ItemStore.Decimal.Read
import ItemStore.Decimal.Text
import ItemStore.Entries
import ItemStore.Time.Instant
import ItemStore.Text.Quoted

/-
Values as an application holds them.

A value knows more types than the store does (a date is not a string, a number
is a double) and fewer (a set is a list). A field that an application leaves
undefined is a key that the map does not have.
-/
set_option autoImplicit false

namespace ItemStore

/-- A nested application value. The entries of a map are in order, each key once. A set
is a list here, and a field that is left undefined is a key that is not there, so there
is no constructor for either. -/
inductive Value where
  | null
  | bool (b : Bool)
  | number (x : Float)
  | string (s : String)
  | date (t : Time.Instant)
  | binary (bytes : List UInt8)
  | list (items : List Value)
  | map (entries : List (String × Value))

namespace Value

/-- The name of the value's shape in messages. This is `kind_name`; a shape mismatch
gives it as what was found when encoding. -/
def kindName : Value → String
  | null => "null"
  | bool _ => "boolean"
  | number _ => "number"
  | string _ => "string"
  | date _ => "date"
  | binary _ => "binary"
  | list _ => "list"
  | map _ => "map"

/-- Whether the value is an explicit null. This is `is_null`. A key that is missing is
not null: the two are told apart by every codec below. -/
def isNull : Value → Bool
  | null => true
  | _ => false

/-- The text of a string. This is `as_str`. -/
def string? : Value → Option String
  | string s => some s
  | _ => none

/-- The number of a number. This is `as_f64`. -/
def number? : Value → Option Float
  | number x => some x
  | _ => none

/-- The items of a list. This is `as_list`. -/
def items? : Value → Option (List Value)
  | list items => some items
  | _ => none

/-- The entries of a map. This is `as_map`. -/
def entries? : Value → Option (List (String × Value))
  | map entries => some entries
  | _ => none

/-- What a map has under a key. This is `get`, which is nothing for a value that is no
map. -/
def get? (v : Value) (key : String) : Option Value := v.entries?.bind (Entries.get? key)

/-- A short text for messages: scalars in full, the rest by its size. It is shown where
an operand of `attribute_type` is no tag, and so takes part in the text of an error. -/
def summary : Value → String
  | null => "null"
  | bool b => if b then "true" else "false"
  | number x => Decimal.plain x
  | string s => Text.quoted s
  | date t => String.ofList t.text
  | binary bytes => "<" ++ toString bytes.length ++ " bytes>"
  | list items => "[" ++ toString items.length ++ " items]"
  | map entries => "\x7b" ++ toString entries.length ++ " keys\x7d"

/-- An integer as a number, rounded if it has more digits than a double. Beyond fifteen
digits neighbouring integers may come out as one number, so it is not injective. -/
def ofInt (i : Int) : Value := .number (Decimal.signedNearest (i < 0) i.natAbs 0)

end Value

end ItemStore
