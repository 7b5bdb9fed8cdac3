import ItemStore.Json.Scan

/-
Records, and what is skipped in them.

A record is an object of which a reader knows some members. The values of the
others are only passed over: they have to be JSON, but nothing is made of them, so
they may be nested to any depth and may hold numbers that no double can express and
halves of characters.
-/
set_option autoImplicit false

namespace ItemStore.Json

/-- The text behind the closing quote of a string. -/
def skipString? : List Char → Option (List Char)
  | [] => none
  | '"' :: cs => some cs
  | '\\' :: 'u' :: a :: b :: c :: d :: cs =>
    if (hexValue4? a b c d).isSome then skipString? cs else none
  | '\\' :: c :: cs => if (unescape? c).isSome then skipString? cs else none
  | c :: cs => if c.toNat < 0x20 ∨ c = '\\' then none else skipString? cs

/-- The text behind the closing bracket of an array. The text starts at an item. -/
def skipItems? (skip : List Char → Option (List Char)) :
    (bound : Nat) → List Char → Option (List Char)
  | 0, _ => none
  | bound + 1, cs => do
    let cs ← skip cs
    match skipSpace cs with
    | ',' :: cs => skipItems? skip bound cs
    | ']' :: rest => some rest
    | _ => none

/-- The text behind the closing brace of an object. The text starts at a key. -/
def skipMembers? (skip : List Char → Option (List Char)) :
    (bound : Nat) → List Char → Option (List Char)
  | 0, _ => none
  | bound + 1, cs =>
    match skipSpace cs with
    | '"' :: cs => do
      let cs ← skipString? cs
      match skipSpace cs with
      | ':' :: cs => do
        let cs ← skip cs
        match skipSpace cs with
        | ',' :: cs => skipMembers? skip bound cs
        | '\x7d' :: rest => some rest
        | _ => none
      | _ => none
    | _ => none

/-- The text behind the value it starts with. It only looks at the form of the text: a
number need not be one that a double can express. -/
def skip? : (levels : Nat) → List Char → Option (List Char)
  | levels, cs =>
    match skipSpace cs with
    | 'n' :: 'u' :: 'l' :: 'l' :: rest => some rest
    | 't' :: 'r' :: 'u' :: 'e' :: rest => some rest
    | 'f' :: 'a' :: 'l' :: 's' :: 'e' :: rest => some rest
    | '"' :: cs => skipString? cs
    | '[' :: cs =>
      match levels with
      | 0 => none
      | levels + 1 =>
        match skipSpace cs with
        | ']' :: rest => some rest
        | cs => skipItems? (skip? levels) (cs.length + 1) cs
    | '\x7b' :: cs =>
      match levels with
      | 0 => none
      | levels + 1 =>
        match skipSpace cs with
        | '\x7d' :: rest => some rest
        | cs => skipMembers? (skip? levels) (cs.length + 1) cs
    | cs => (Number.lex? cs).map Prod.snd

/-- Passes over the value at the front of a text. There are no more levels of nesting than
characters. -/
def scanSkipped (cs : List Char) : Document × List Char :=
  match skip? cs.length cs with
  | some rest => (.null, rest)
  | none => (.cut, [])

/-- The document at the front of a text, where the values of unknown members are passed
over if the text is an object, and whether only white space follows it. Only an object
has members that are not known; a list of members is scanned like any other document. -/
def scanRecordText (known : String → Bool) (s : String) : Document × Bool :=
  match skipSpace s.toList with
  | '\x7b' :: cs =>
    let (d, rest) :=
      scanObject
        (fun key cs => if known key then scan (maxLevels - 1) cs else scanSkipped cs) cs
    (d, (skipSpace rest).isEmpty)
  | _ => scanText s

end ItemStore.Json
