import ItemStore.Expression.Bindings
import ItemStore.Schema.Encode

/-
Updates: lists of changes to an item.

Every action changes the attribute at one path. Assignments, arithmetic and
appending make up the `SET` part of the expression and removals the `REMOVE` part,
each in the order of the actions. The value of the `k`-th action has a token that
ends in `u` and `k`, which no condition uses, so an update and a condition can
share their tables.
-/
set_option autoImplicit false

namespace ItemStore

/-- What an action does with its attribute. These are the cases of `UpdateAction`,
without the path that all of them have. -/
inductive Change where
  /-- Assign a value. -/
  | set (v : Value)
  /-- Add to a number. -/
  | increment (amount : Value)
  /-- Subtract from a number. -/
  | decrement (amount : Value)
  /-- Append to a list. -/
  | append (values : List Value)
  /-- Take the attribute away. -/
  | remove

/-- A change of the attribute at a path. -/
structure Action where
  path : Path
  change : Change

/-- The parts of an update expression and its tables, as far as it is compiled. -/
structure UpdateClauses where
  sets : List String
  removes : List String
  bindings : Bindings

/-- Nothing is compiled. -/
def UpdateClauses.empty : UpdateClauses := { sets := [], removes := [], bindings := .empty }

/-- Adds an assignment whose right side is made from the attribute's form in expressions
and the token of a value. The name stands on the left in any case, the source on the
right is where the kinds of assignment differ. -/
def UpdateClauses.assign (clauses : UpdateClauses) (name token : String) (value : Descriptor)
    (source : String) : Except Error UpdateClauses := do
  let bindings ← clauses.bindings.bindValue token value
  .ok { clauses with sets := clauses.sets ++ [name ++ " = " ++ source], bindings }

/-- A number that is added or subtracted. The node has to be a number itself: a key mark around
a number is not looked through. -/
def encodeAmount (path : Path) (node : Schema) (amount : Value) : Except Error Descriptor :=
  match node with
  | .scalar _ .number => (Schema.ofKind .number).encode amount
  | _ => .error (.invalidUpdate (.notANumber path.text))

/-- Values that are appended to a list. -/
def encodeAppended (path : Path) (node : Schema) (values : List Value) :
    Except Error Descriptor :=
  match node with
  | .list _ _ => node.encode (.list values)
  | _ => .error (.invalidUpdate (.notAList path.text))

/-- Whether the attribute at a path may be removed: an element of a list always, a field
of a map if it is optional. This is `check_removable`. An action whose path is a single
segment has the schema itself as its parent. -/
def checkRemovable (schema : Schema) (path : Path) (node : Schema) : Except Error Unit := do
  let parent ←
    match path.parent? with
    | some parent => schema.resolve parent
    | none => .ok schema
  if parent.fields?.isSome ∧ node.isOptional = false then
    .error (.invalidUpdate (.required path.text))
  else .ok ()

/-- Adds the `k`-th action; `seen` are the paths of the actions before it. The checks
come in the order in which their faults are told: a path that came before, a path that
leads nowhere, a key attribute, and then what the change asks for. -/
def UpdateClauses.add (schema : Schema) (k : Nat) (seen : List Path) (action : Action)
    (clauses : UpdateClauses) : Except Error UpdateClauses := do
  let path := action.path
  if path ∈ seen then .error (.invalidUpdate (.repeatedPath path.text))
  let node ← schema.resolve path
  if ((schema.field? path.root).map Schema.isKey).getD false then
    .error (.invalidUpdate (.keyAttribute path.root))
  let (name, bindings) := clauses.bindings.bindPath path ""
  let clauses := { clauses with bindings }
  -- every action has a token, but a removal does not bind it
  let token := path.valueToken ("u" ++ toString k)
  match action.change with
  | .set v => do
    let value ← node.encode v
    clauses.assign name token value token
  | .increment amount => do
    let value ← encodeAmount path node amount
    clauses.assign name token value (name ++ " + " ++ token)
  | .decrement amount => do
    let value ← encodeAmount path node amount
    clauses.assign name token value (name ++ " - " ++ token)
  | .append values => do
    let value ← encodeAppended path node values
    clauses.assign name token value ("list_append(" ++ name ++ ", " ++ token ++ ")")
  | .remove => do
    checkRemovable schema path node
    .ok { clauses with removes := clauses.removes ++ [name] }

/-- Adds actions from the `k`-th one on. The count goes over all actions, removals
included, so the token of a value tells the place of its action. -/
def UpdateClauses.addAll (schema : Schema) :
    (k : Nat) → (seen : List Path) → List Action → UpdateClauses → Except Error UpdateClauses
  | _, _, [], clauses => .ok clauses
  | k, seen, action :: actions, clauses => do
    let clauses ← clauses.add schema k seen action
    clauses.addAll schema (k + 1) (action.path :: seen) actions

/-- A part of an update expression: nothing if there is nothing in it. -/
def updateClause (keyword : String) (parts : List String) : List String :=
  if parts.isEmpty then [] else [keyword ++ " " ++ ", ".intercalate parts]

/-- The text of the expression. -/
def UpdateClauses.expression (clauses : UpdateClauses) : String :=
  " ".intercalate (updateClause "SET" clauses.sets ++ updateClause "REMOVE" clauses.removes)

/-- Compiles an update of items of the given schema. This is `compile` of an update. The
tables are its own, and the condition of the same request goes on with them. -/
def compileUpdate (schema : Schema) (actions : List Action) : Except Error Compiled := do
  if actions.isEmpty then .error (.invalidUpdate .noActions)
  let clauses ← UpdateClauses.empty.addAll schema 0 [] actions
  .ok { expression := clauses.expression, bindings := clauses.bindings }

end ItemStore
