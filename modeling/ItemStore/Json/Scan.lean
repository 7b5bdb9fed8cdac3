import ItemStore.Json.Document

/-
Reading texts into documents.

The scanner takes a document off the front of a text and returns the rest. It
never fails: where the text stops being JSON the document is cut and nothing of
the text is left over. Nesting is bounded, and the bound is what the scanner
recurses on: a value inside an array is scanned with one level less. Runs of
items and members are bounded by the length of the text, since each of them takes
at least one character.
-/
set_option autoImplicit false

namespace ItemStore.Json

/-- White space between the parts of a JSON text. -/
def isSpace (c : Char) : Bool := c = ' ' || c = '\t' || c = '\n' || c = '\r'

/-- The text without the white space it starts with. -/
def skipSpace (cs : List Char) : List Char := cs.dropWhile isSpace

/-! ## Strings -/

/-- The value of a hexadecimal digit of either case. -/
def hexValue? (c : Char) : Option Nat :=
  let n := c.toNat
  if 48 ≤ n ∧ n ≤ 57 then some (n - 48)
  else if 97 ≤ n ∧ n ≤ 102 then some (n - 87)
  else if 65 ≤ n ∧ n ≤ 70 then some (n - 55)
  else none

/-- The value of four hexadecimal digits. -/
def hexValue4? (a b c d : Char) : Option Nat := do
  let a ← hexValue? a
  let b ← hexValue? b
  let c ← hexValue? c
  let d ← hexValue? d
  some (((a * 16 + b) * 16 + c) * 16 + d)

/-- The character behind a backslash and one more character. -/
def unescape? (c : Char) : Option Char :=
  if c = '"' ∨ c = '\\' ∨ c = '/' then some c
  else if c = 'b' then some '\x08'
  else if c = 'f' then some '\x0c'
  else if c = 'n' then some '\n'
  else if c = 'r' then some '\r'
  else if c = 't' then some '\t'
  else none

/-- The first half of a character that is spelled in two. -/
def isHighHalf (n : Nat) : Bool := 0xD800 ≤ n && n ≤ 0xDBFF

/-- The second half of a character that is spelled in two. -/
def isLowHalf (n : Nat) : Bool := 0xDC00 ≤ n && n ≤ 0xDFFF

/-- The character that two halves spell. -/
def joinHalves (high low : Nat) : Char :=
  Char.ofNat ((high - 0xD800) * 1024 + (low - 0xDC00) + 0x10000)

/-- Puts a character in front of what was read. -/
def consChar (c : Char) (read : Option (List Char × List Char)) :
    Option (List Char × List Char) :=
  read.map fun (cs, rest) => (c :: cs, rest)

/-- The characters of a string up to its closing quote, and the text behind it. Half a
character on its own, a control and an unknown escape are refused. The recursion is on
the text, six characters at a time where a code point is spelled out. -/
def scanString? : List Char → Option (List Char × List Char)
  | [] => none
  | '"' :: cs => some ([], cs)
  | '\\' :: 'u' :: a :: b :: c :: d :: cs =>
    match hexValue4? a b c d with
    | none => none
    | some n =>
      -- a first half has to be followed by a second one
      if isHighHalf n then
        match cs with
        | '\\' :: 'u' :: e :: f :: g :: h :: cs =>
          match hexValue4? e f g h with
          | none => none
          | some m => if isLowHalf m then consChar (joinHalves n m) (scanString? cs) else none
        | _ => none
      else if isLowHalf n then none
      else consChar (Char.ofNat n) (scanString? cs)
  | '\\' :: c :: cs =>
    match unescape? c with
    | none => none
    | some c => consChar c (scanString? cs)
  | c :: cs => if c.toNat < 0x20 ∨ c = '\\' then none else consChar c (scanString? cs)
termination_by structural cs => cs

/-! ## Values -/

/-- The items of an array up to its closing bracket. The text starts at an item. The
bound is there for the recursion alone; the caller gives one more than there are
characters. -/
def scanItems (scan : List Char → Document × List Char) :
    (bound : Nat) → List Char → (List Document × Bool) × List Char
  | 0, _ => (([], false), [])
  | bound + 1, cs =>
    let (item, cs) := scan cs
    match skipSpace cs with
    | ',' :: cs =>
      let ((items, closed), rest) := scanItems scan bound cs
      ((item :: items, closed), rest)
    | ']' :: rest => (([item], true), rest)
    | _ => (([item], false), [])

/-- The members of an object up to its closing brace, where the value under a key is
scanned by `scan key`. The text starts at a key. -/
def scanMembers (scan : String → List Char → Document × List Char) :
    (bound : Nat) → List Char → (List (String × Document) × Bool) × List Char
  | 0, _ => (([], false), [])
  | bound + 1, cs =>
    match skipSpace cs with
    | '"' :: cs =>
      match scanString? cs with
      | none => (([], false), [])
      | some (key, cs) =>
        let key := String.ofList key
        match skipSpace cs with
        | ':' :: cs =>
          let (value, cs) := scan key cs
          match skipSpace cs with
          | ',' :: cs =>
            let ((members, closed), rest) := scanMembers scan bound cs
            (((key, value) :: members, closed), rest)
          | '\x7d' :: rest => (([(key, value)], true), rest)
          | _ => (([(key, value)], false), [])
        | _ => (([(key, .cut)], false), [])
    | _ => (([], false), [])

/-- A string whose opening quote has been read. -/
def scanQuoted (cs : List Char) : Document × List Char :=
  match scanString? cs with
  | some (s, rest) => (.string (String.ofList s), rest)
  | none => (.cut, [])

/-- An array whose opening bracket has been read. -/
def scanArray (scan : List Char → Document × List Char) (cs : List Char) :
    Document × List Char :=
  match skipSpace cs with
  | ']' :: rest => (.list [], rest)
  | cs =>
    -- every item takes a character at least, so the bound is never met
    let ((items, closed), rest) := scanItems scan (cs.length + 1) cs
    (.array items closed, rest)

/-- An object whose opening brace has been read. -/
def scanObject (scan : String → List Char → Document × List Char) (cs : List Char) :
    Document × List Char :=
  match skipSpace cs with
  | '\x7d' :: rest => (.record [], rest)
  | cs =>
    let ((members, closed), rest) := scanMembers scan (cs.length + 1) cs
    (.object members closed, rest)

/-- A number. -/
def scanNumber (cs : List Char) : Document × List Char :=
  match Number.take? cs with
  | some (n, rest) => (.number n, rest)
  | none => (.cut, [])

/-- The document a text starts with and the rest of the text. At most `levels` arrays
and objects may be nested. The recursion is on the levels, so nesting that is too deep
and a text that breaks off are the same to it. -/
def scan : (levels : Nat) → List Char → Document × List Char
  | levels, cs =>
    match skipSpace cs with
    | 'n' :: 'u' :: 'l' :: 'l' :: rest => (.null, rest)
    | 't' :: 'r' :: 'u' :: 'e' :: rest => (.bool true, rest)
    | 'f' :: 'a' :: 'l' :: 's' :: 'e' :: rest => (.bool false, rest)
    | '"' :: cs => scanQuoted cs
    | '[' :: cs =>
      match levels with
      | 0 => (.cut, [])
      | levels + 1 => scanArray (scan levels) cs
    | '\x7b' :: cs =>
      match levels with
      | 0 => (.cut, [])
      | levels + 1 => scanObject (fun _ => scan levels) cs
    | cs => scanNumber cs

/-- How deep arrays and objects may be nested in a text. -/
def maxLevels : Nat := 127

/-- The document at the front of a text, and whether only white space follows it. -/
def scanText (s : String) : Document × Bool :=
  let (d, rest) := scan maxLevels s.toList
  (d, (skipSpace rest).isEmpty)

/-- The document that a well-formed text is. Neither a part that is cut off nor a text
behind the document is accepted. -/
def parse? (s : String) : Option Document :=
  let (d, ended) := scanText s
  if d.isWhole && ended then some d else none

end ItemStore.Json
