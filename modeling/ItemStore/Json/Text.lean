import ItemStore.Json.Document

/-
Writing documents.

The text is compact: no blanks, members in the order of the document. Inside a
string only the quote, the backslash and the controls are escaped; everything
else stands for itself.
-/
set_option autoImplicit false

namespace ItemStore.Json

/-- Four hexadecimal digits. -/
def hex4 (n : Nat) : List Char :=
  [n / 4096 % 16, n / 256 % 16, n / 16 % 16, n % 16].map Nat.digitChar

/-- How a character is written inside a string. Every character has one spelling here,
while readers accept several. -/
def escapeChar (c : Char) : List Char :=
  if c = '"' then ['\\', '"']
  else if c = '\\' then ['\\', '\\']
  else if c = '\x08' then ['\\', 'b']
  else if c = '\t' then ['\\', 't']
  else if c = '\n' then ['\\', 'n']
  else if c = '\x0c' then ['\\', 'f']
  else if c = '\r' then ['\\', 'r']
  else if c.toNat < 0x20 then '\\' :: 'u' :: hex4 c.toNat
  else [c]

/-- A string with its quotes. -/
def stringText (s : String) : List Char :=
  '"' :: s.toList.flatMap escapeChar ++ ['"']

namespace Document

mutual

/-- The compact text of a document; nothing is written for what is cut off. There is no
blank anywhere, so a document has one text. -/
def text : Document → List Char
  | .null => "null".toList
  | .bool true => "true".toList
  | .bool false => "false".toList
  | .number n => n.text
  | .string s => stringText s
  | .array items _ => '[' :: itemsText items ++ [']']
  | .object members _ => '\x7b' :: membersText members ++ ['\x7d']
  | .cut => []

/-- Documents with commas between them. -/
def itemsText : List Document → List Char
  | [] => []
  | [d] => d.text
  | d :: ds => d.text ++ ',' :: itemsText ds

/-- Members with commas between them. -/
def membersText : List (String × Document) → List Char
  | [] => []
  | [(k, d)] => stringText k ++ ':' :: d.text
  | (k, d) :: ms => stringText k ++ ':' :: d.text ++ ',' :: membersText ms

end

/-- The text of a document as a string. -/
def render (d : Document) : String := String.ofList d.text

end Document

end ItemStore.Json
