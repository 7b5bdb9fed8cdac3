import ItemStore.Expression.Operator

/-
What can go wrong, and how it is said.

Every failure is a cause with the places and texts that belong to it; nothing is
worded where it arises. `Error.message` is the only place that knows sentences.

The faults of a condition, a key and an update are types of their own because they share
one lead each in the message: `Invalid condition`, `Invalid key`, `Invalid update`.
-/
set_option autoImplicit false

namespace ItemStore

/-- The form of what stands to the right of an operator. -/
inductive OperandForm where
  | single
  | pair
  | list
  | size
  deriving DecidableEq, Repr

/-- The name of the form in messages. This is `describe`. -/
def OperandForm.text : OperandForm → String
  | single => "single value"
  | pair => "pair"
  | list => "list"
  | size => "size comparison"

/-- Faults of a condition. They arise in `compile` and, the last two, in
`check_key_paths`. -/
inductive ConditionFault where
  | unknownOperator (text : String)
  | unknownConnective (text : String)
  /-- A connective without conditions under it. -/
  | noConditions (connective : Connective)
  /-- An operator that needs an operand stands without one. -/
  | needsValue (operator : Operator)
  /-- An operator does not go with the form of its operand. -/
  | wrongOperand (operator : Operator) (form : OperandForm)
  /-- A type test with something other than a tag. -/
  | notATag (value : String)
  /-- A membership test with no candidates. -/
  | noCandidates
  /-- A key condition tests something other than a key attribute. -/
  | notAKeyAttribute (path : String)
  /-- A filter tests a key attribute. -/
  | keyInFilter (path : String)
  deriving DecidableEq, Repr

/-- The fault in words. -/
def ConditionFault.message : ConditionFault → String
  | unknownOperator text => "unknown operator '" ++ text ++ "'"
  | unknownConnective text => "unknown logical operator '" ++ text ++ "'"
  | noConditions connective => "'" ++ connective.text ++ "' needs at least one condition"
  | needsValue operator => "'" ++ operator.text ++ "' needs a value"
  | wrongOperand operator form =>
    "'" ++ operator.text ++ "' does not accept a " ++ form.text ++ " operand"
  | notATag value => "'" ++ value ++ "' is not an attribute type tag"
  | noCandidates => "'in' needs at least one value"
  | notAKeyAttribute path =>
    "'" ++ path ++ "' is not a key attribute and cannot be used in a key condition"
  | keyInFilter path => "key attribute '" ++ path ++ "' cannot be used in a filter"

/-- Faults of a primary key. They arise in `compile_key`; that an attribute is missing
is an error by itself, `missingPrimaryKey`. -/
inductive KeyFault where
  /-- The entity has no partition key to begin with. -/
  | noPartitionKey
  /-- The key is not a map but a value of another kind. -/
  | notAMap (kind : String)
  /-- The key has an attribute that is not a key attribute. -/
  | extraAttribute (name : String)
  deriving DecidableEq, Repr

/-- The fault in words. -/
def KeyFault.message : KeyFault → String
  | noPartitionKey => "entity declares no partition key"
  | notAMap kind => "expected a map, found " ++ kind
  | extraAttribute name => "'" ++ name ++ "' is not a key attribute"

/-- Faults of an update. They arise in `compile` of an update, in the order in which an
action is looked at. -/
inductive UpdateFault where
  | noActions
  | repeatedPath (path : String)
  | keyAttribute (name : String)
  | notANumber (path : String)
  | notAList (path : String)
  | required (path : String)
  deriving DecidableEq, Repr

/-- The fault in words. -/
def UpdateFault.message : UpdateFault → String
  | noActions => "no update actions"
  | repeatedPath path => "'" ++ path ++ "' is updated more than once"
  | keyAttribute name => "key attribute '" ++ name ++ "' cannot be updated"
  | notANumber path => "'" ++ path ++ "' is not a number"
  | notAList path => "'" ++ path ++ "' is not a list"
  | required path => "'" ++ path ++ "' is required and cannot be removed"

/-- A failure to declare a schema, to encode, decode or compile against one, or to run
what was compiled. Places in values are dotted paths; the empty path is the root. -/
inductive Error where
  /-- Two fields of one map, or two entities or indexes of one table, share a name. -/
  | duplicateFieldName (name : String)
  | unknownEntity (name : String)
  | unknownIndex (name : String)
  /-- A path leads nowhere in the schema. -/
  | pathNotFound (path : String)
  /-- A required attribute is absent. -/
  | valueNotOptional (path : String)
  /-- A null stands where none is allowed. -/
  | valueNotNullable (path : String)
  /-- A value or descriptor is not of the declared shape. -/
  | shapeMismatch (path expected found : String)
  /-- A stored number is not the text of a finite number. -/
  | invalidNumber (path text : String)
  /-- A text is not an ISO 8601 instant. -/
  | invalidDate (path text : String)
  | invalidCondition (fault : ConditionFault)
  /-- A token would stand for two different things. -/
  | placeholderConflict (token : String)
  /-- An operation that addresses by key was built without one. -/
  | missingKeyCondition
  /-- A key attribute is absent. -/
  | missingPrimaryKey (name : String)
  | invalidKey (fault : KeyFault)
  | invalidUpdate (fault : UpdateFault)
  /-- The guard against existing items was combined with a condition. -/
  | conditionAlreadySet
  /-- Whatever ran the operation failed. -/
  | transport (message : String)
  deriving DecidableEq, Repr

/-- The failure in words. Whatever a caller sees of a failure is this text; paths and
names stand in it as they were given, without quotes of their own being escaped. -/
def Error.message : Error → String
  | duplicateFieldName name => "Duplicate field name: " ++ name
  | unknownEntity name => "Unknown entity: " ++ name
  | unknownIndex name => "Unknown index: " ++ name
  | pathNotFound path => "Path not found in schema: " ++ path
  | valueNotOptional path => "Value at '" ++ path ++ "' is required but missing"
  | valueNotNullable path => "Value at '" ++ path ++ "' is not nullable"
  | shapeMismatch path expected found =>
    "Shape mismatch at '" ++ path ++ "': expected " ++ expected ++ ", found " ++ found
  | invalidNumber path text => "Invalid number at '" ++ path ++ "': " ++ text
  | invalidDate path text => "Invalid date at '" ++ path ++ "': " ++ text
  | invalidCondition fault => "Invalid condition: " ++ fault.message
  | placeholderConflict token =>
    "Placeholder " ++ token ++ " is already bound to a different target"
  | missingKeyCondition => "Key condition is required"
  | missingPrimaryKey name => "Missing primary key attribute: " ++ name
  | invalidKey fault => "Invalid key: " ++ fault.message
  | invalidUpdate fault => "Invalid update: " ++ fault.message
  | conditionAlreadySet => "A condition is already set for this operation"
  | transport message => "Transport error: " ++ message

end ItemStore
