import ItemStore.Text.Printable

/-
Quoted texts, as they appear when a string value or a set of strings is shown.

A text stands between double quotes; a quote and a backslash are written with a
backslash before them, five controls have a letter of their own, and every other
character that leaves no mark is spelled by its code point in hexadecimal.
-/
set_option autoImplicit false

namespace ItemStore.Text

/-- Lower-case hexadecimal digits without leading zeros. -/
def hexText (n : Nat) : List Char := Nat.toDigits 16 n

/-- How one character is written inside a quoted text. -/
def quoteChar (c : Char) : List Char :=
  if c = '"' then ['\\', '"']
  else if c = '\\' then ['\\', '\\']
  else if c = '\n' then ['\\', 'n']
  else if c = '\r' then ['\\', 'r']
  else if c = '\t' then ['\\', 't']
  else if c = '\x00' then ['\\', '0']
  else if isPrintable c then [c]
  else "\\u\x7b".toList ++ hexText c.toNat ++ ['\x7d']

/-- The text between double quotes. This is how `summary` shows a string. -/
def quoted (s : String) : String :=
  String.ofList ('"' :: s.toList.flatMap quoteChar ++ ['"'])

/-- Several quoted texts between square brackets. This is how `summary` shows the
members of a set. -/
def quotedList (ss : List String) : String :=
  "[" ++ ", ".intercalate (ss.map quoted) ++ "]"

end ItemStore.Text
