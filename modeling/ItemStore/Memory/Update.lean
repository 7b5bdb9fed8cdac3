import ItemStore.Decimal.Read
import ItemStore.Decimal.Text
import ItemStore.Memory.Fault
import ItemStore.Request
import ItemStore.Text.Blank

/-
Carrying out update expressions.

An expression is read just as far as a store has to understand it: assignments
before the first `REMOVE `, removals after it, and a right side that is a value, a
sum, a difference or two lists one after the other. Only top-level attributes can be
changed. Clauses are carried out one by one, so a clause sees what the clauses
before it have done, and when a clause cannot be carried out the item stays as
those before it have left it.

This is `apply_update` with `split_clauses` and `evaluate`. It understands what
`compileUpdate` writes for top-level attributes, with the exception that a name token that
ends in `REMOVE` can cut an expression in the wrong place.
-/
set_option autoImplicit false

namespace ItemStore.Memory

open Text

/-! ## The parts of an expression -/

/-- The pieces between the commas that stand outside parentheses; `depth` is the number
of parentheses that are open. This is `split_clauses` without trimming. The count may
become negative, and then no comma counts until it is made up for. -/
def splitOutside : (depth : Int) → List Char → List (List Char)
  | _, [] => [[]]
  | depth, c :: cs =>
    if c = '(' then consPiece c (splitOutside (depth + 1) cs)
    else if c = ')' then consPiece c (splitOutside (depth - 1) cs)
    else if c = ',' ∧ depth = 0 then [] :: splitOutside depth cs
    else consPiece c (splitOutside depth cs)

/-- The clauses of a list of assignments. -/
def assignmentClauses (cs : List Char) : List (List Char) :=
  ((splitOutside 0 cs).map trim).filter fun clause => !clause.isEmpty

/-- An update expression in parts. -/
structure UpdateText where
  /-- The clauses that assign. -/
  assignments : List (List Char)
  /-- The tokens of the attributes to remove. -/
  removals : List (List Char)

/-- The parts of an update expression. The mark for removals is looked for in the text
as a whole and not clause by clause. -/
def UpdateText.ofExpression (expression : List Char) : UpdateText :=
  let (before, removals) :=
    match cut? "REMOVE ".toList expression with
    | some (before, after) => (before, (splitList after).map trim)
    | none => (expression, [])
  match after? "SET ".toList (trim before) with
  | some cs => { assignments := assignmentClauses cs, removals }
  | none => { assignments := [], removals }

/-! ## Looking up tokens -/

/-- The attribute that a name token stands for. This is `lookup_name`. Dotted paths are
no tokens, so nested attributes are refused here. -/
def attributeOf (b : Bindings) (token : List Char) : Except Fault String :=
  match Entries.get? (String.ofList token) b.names with
  | some name => .ok name
  | none => .error (.unboundName (String.ofList token))

/-- The value that a value token stands for. -/
def valueOf (b : Bindings) (token : List Char) : Except Fault Descriptor :=
  match Entries.get? (String.ofList token) b.values with
  | some value => .ok value
  | none => .error (.unboundValue (String.ofList token))

/-! ## Right sides -/

/-- The number in a descriptor. This is `parse_number` of the store, which takes
infinities and does not trim. -/
def numberOf? (d : Descriptor) : Option Float := d.number?.bind fun n => Decimal.read? n.toList

/-- The arguments of a call that appends. -/
def appendArguments? (source : List Char) : Option (List Char) :=
  match after? "list_append(".toList source with
  | some rest => if rest.getLast? = some ')' then some rest.dropLast else none
  | none => none

/-- The list that an attribute holds; an absent attribute counts as empty. -/
def listIn (item : Item) (name : String) : Except Fault (List Descriptor) :=
  match Entries.get? name item with
  | none => .ok []
  | some d =>
    match d.items? with
    | some items => .ok items
    | none => .error (.appendOn d.tag)

/-- A list and another one after it. The target is looked at before the value, so that
of two faults the one of the target is told. -/
def appended (b : Bindings) (item : Item) (arguments : List Char) : Except Fault Descriptor :=
  match cut? ", ".toList arguments with
  | none => .error .malformedAppend
  | some (target, source) => do
    let name ← attributeOf b target
    let items ← listIn item name
    let more ← valueOf b source
    match more.items? with
    | some more => .ok (.list (items ++ more))
    | none => .error (.appendWith more.tag)

/-- A number calculated from an attribute and a value. The result is written as
`encodeNumber` would write it, but also when it is not finite. -/
def calculated (b : Bindings) (item : Item) (operation : Float → Float → Float)
    (target amount : List Char) : Except Fault Descriptor := do
  let name ← attributeOf b target
  match Entries.get? name item with
  | none => .error .arithmeticOnMissing
  | some d =>
    match numberOf? d with
    | none => .error .arithmeticOnOther
    | some base => do
      let value ← valueOf b amount
      match numberOf? value with
      | none => .error .arithmeticWithOther
      | some amount => .ok (.number (Decimal.plain (operation base amount)))

/-- What the right side of an assignment comes to. This is `evaluate`. -/
def evaluate (b : Bindings) (item : Item) (source : List Char) : Except Fault Descriptor :=
  match appendArguments? source with
  | some arguments => appended b item arguments
  -- the operators are looked for one after the other, the sum first
  | none =>
    match cut? " + ".toList source with
    | some (target, amount) => calculated b item (· + ·) target amount
    | none =>
      match cut? " - ".toList source with
      | some (target, amount) => calculated b item (· - ·) target amount
      | none => valueOf b source

/-! ## Changing an item -/

/-- Carries out an assignment. -/
def assign (b : Bindings) (item : Item) (clause : List Char) : Except Fault Item :=
  match cut? " = ".toList clause with
  | none => .error (.malformedClause (String.ofList clause))
  | some (target, source) => do
    let name ← attributeOf b target
    let value ← evaluate b item source
    .ok (Entries.insert name value item)

/-- Carries out a removal. -/
def remove (b : Bindings) (item : Item) (token : List Char) : Except Fault Item := do
  let name ← attributeOf b token
  .ok (Entries.erase name item)

/-- Takes steps one after the other up to the first that fails; the item comes out as it
is then. What was done before a failure is part of the result, because the store works
on the entry itself. -/
def steps {α : Type} (step : Item → α → Except Fault Item) :
    Item → List α → Option Fault × Item
  | item, [] => (none, item)
  | item, a :: as =>
    match step item a with
    | .ok item => steps step item as
    | .error fault => (some fault, item)

/-- Steps in two goes: the second go starts where the first one ended, and is not taken
when the first one failed. -/
theorem steps_append {α : Type} (step : Item → α → Except Fault Item) (item : Item)
    (as bs : List α) :
    steps step item (as ++ bs) =
      match steps step item as with
      | (some fault, item) => (some fault, item)
      | (none, item) => steps step item bs := by
  induction as generalizing item with
  | nil => rfl
  | cons a as ih =>
    simp only [List.cons_append, steps]
    cases step item a with
    | ok item => exact ih item
    | error fault => rfl

/-- Carries out an update expression: assignments first, then removals. This is
`apply_update`. -/
def applyUpdate (b : Bindings) (expression : String) (item : Item) : Option Fault × Item :=
  let parts := UpdateText.ofExpression expression.toList
  match steps (assign b) item parts.assignments with
  | (some fault, item) => (some fault, item)
  | (none, item) => steps (remove b) item parts.removals

end ItemStore.Memory
