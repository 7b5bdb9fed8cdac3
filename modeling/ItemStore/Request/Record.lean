import ItemStore.Descriptor.Wire
import ItemStore.Json.Skip

/-
Records of named members.

A record travels as an object. Its members may come in any order, members that
nobody knows are ignored, a known member must not come twice, and some members may
be left out. A record may also travel as a list of its members in their fixed order.
Either way the members are read from left to right.
-/
set_option autoImplicit false

namespace ItemStore

open Json

/-- How a type of record is read. All records of this library, a configuration, a
response and six requests, are read by the same two functions and differ in this
description only. -/
structure RecordShape (α : Type) where
  /-- The record in which every member that may be left out is. -/
  initial : α
  /-- The members in their fixed order. -/
  members : List String
  /-- The members that an object has to have. -/
  required : List String
  /-- The members that a list of members may lack at its end. -/
  lacking : List String
  /-- Reads a member into the record. -/
  set : String → Document → α → Except Refusal α

namespace RecordShape

variable {α : Type}

/-- Reads the members of an object; `seen` are the members that came before. A member
that comes twice is refused when it comes the second time, after the first one has been
read; so a fault in the first one is told. -/
def readMembers (shape : RecordShape α) (seen : List String) :
    List (String × Document) → α → Except Refusal (α × List String)
  | [], record => .ok (record, seen)
  | (name, d) :: rest, record =>
    if name ∈ shape.members then
      if name ∈ seen then .error .malformed
      else do
        let record ← shape.set name d record
        shape.readMembers (name :: seen) rest record
    else shape.readMembers seen rest record

/-- Reads a list of members, given the names of those that are still to come. -/
def readItems (shape : RecordShape α) :
    (names : List String) → List Document → α → Except Refusal (α × List String)
  | names, [], record => .ok (record, names)
  | [], _ :: _, _ => .error .malformed
  | name :: names, d :: ds, record => do
    let record ← shape.set name d record
    shape.readItems names ds record

/-- The record a document denotes. What is missing is asked last, so anything that is
wrong with a member that is there comes first. -/
def read (shape : RecordShape α) : Document → Except Refusal α
  | .object members closed => do
    let (record, seen) ← shape.readMembers [] members shape.initial
    if closed ∧ shape.required.all (· ∈ seen) then .ok record else .error .malformed
  | .array items closed => do
    let (record, left) ← shape.readItems shape.members items shape.initial
    if closed ∧ left.all (· ∈ shape.lacking) then .ok record else .error .malformed
  | _ => .error .malformed

/-- The record of a text. -/
def readText (shape : RecordShape α) (text : String) : Except Refusal α := do
  let (document, ended) := scanRecordText (· ∈ shape.members) text
  let record ← shape.read document
  Descriptor.ifClosed ended record

end RecordShape

/-! ## Members -/

/-- The member for something that is left out when it is absent. -/
def optionalMember {α : Type} (name : String) (write : α → Document) :
    Option α → List (String × Document)
  | some a => [(name, write a)]
  | none => []

/-- The member for a table that is left out when it is empty. -/
def tableMember {α : Type} (name : String) (write : α → Document) (table : List (String × α)) :
    List (String × Document) :=
  if table.isEmpty then []
  else [(name, .record (table.map fun (token, a) => (token, write a)))]

/-- Something that may be null. Null and absence are the same for a member that may be
left out. -/
def optionOfDocument {α : Type} (read : Document → Except Refusal α) :
    Document → Except Refusal (Option α)
  | .null => .ok none
  | d => (read d).map some

/-- A truth value. -/
def boolOfDocument : Document → Except Refusal Bool
  | .bool b => .ok b
  | _ => .error .malformed

/-- A whole number of 32 bits. A number with a point is refused even if it is whole. -/
def wordOfDocument : Document → Except Refusal Nat
  | .number (.integer i) =>
    if 0 ≤ i ∧ i ≤ 4294967295 then .ok i.toNat else .error .malformed
  | _ => .error .malformed

/-- A whole number as a JSON number. -/
def wordDocument (n : Nat) : Document := .number (.integer n)

/-- An enumeration: its spelling, or an object with the spelling as its only key and
nothing under it, where `isNothing` tells what nothing is. -/
def choiceOfDocument {α : Type} (ofText? : String → Option α) (isNothing : Document → Bool) :
    Document → Except Refusal α
  | .string s =>
    match ofText? s with
    | some a => .ok a
    | none => .error .malformed
  | .object [(s, payload)] closed =>
    match ofText? s with
    | some a => if closed && isNothing payload then .ok a else .error .malformed
    | none => .error .malformed
  | _ => .error .malformed

/-- Nothing, in a text that is read as it comes. -/
def isNull : Document → Bool
  | .null => true
  | _ => false

/-- Nothing, in a document that was read as a whole before: an empty object counts too. -/
def isNullOrEmpty : Document → Bool
  | .null => true
  | .object [] _ => true
  | _ => false

/-- An enumeration in a text of its own. -/
def choiceOfText {α : Type} (ofText? : String → Option α) (text : String) :
    Except Refusal α := do
  let (document, ended) := scanText text
  let choice ← choiceOfDocument ofText? isNull document
  Descriptor.ifClosed ended choice

/-- A table of name tokens. -/
def namesOfDocument : Document → Except Refusal (List (String × String))
  | .object members closed => do
    let names ← members.mapM fun (token, d) => do
      let name ← Descriptor.stringOfDocument d
      .ok (token, name)
    Descriptor.ifClosed closed (Entries.ofListSorted names)
  | _ => .error .malformed

/-- A table of value tokens. -/
def valuesOfDocument : Document → Except Refusal (List (String × Descriptor))
  | .object members closed => do
    let values ← Descriptor.ofMembers members
    Descriptor.ifClosed closed (Entries.ofListSorted values)
  | _ => .error .malformed

end ItemStore
