/-
The operators of conditions.

A condition is a tree of tests under connectives. Operators are spelled as in
the store's expression language; connectives are spelled in lower case when they
are named and in upper case inside an expression.
-/
set_option autoImplicit false

namespace ItemStore

/-- What a test does with its attribute. This is `Operator`, with the same fourteen
members. -/
inductive Operator where
  | eq
  | ne
  | lt
  | le
  | gt
  | ge
  | beginsWith
  | between
  | isIn
  | hasType
  | exists
  | notExists
  | contains
  | size
  deriving DecidableEq, Repr

namespace Operator

/-- The operator's spelling. This is `as_str`. For comparators and functions it is also
what the expression contains; `between` and `in` are written in upper case there. -/
def text : Operator → String
  | eq => "="
  | ne => "<>"
  | lt => "<"
  | le => "<="
  | gt => ">"
  | ge => ">="
  | beginsWith => "begins_with"
  | between => "between"
  | isIn => "in"
  | hasType => "attribute_type"
  | .exists => "attribute_exists"
  | notExists => "attribute_not_exists"
  | contains => "contains"
  | size => "size"

/-- All operators. -/
def all : List Operator :=
  [eq, ne, lt, le, gt, ge, beginsWith, between, isIn, hasType, .exists, notExists, contains,
    size]

/-- The operator with a given spelling. The spelling is exact, in contrast to that of a
connective. -/
def ofText? (text : String) : Option Operator := all.find? fun op => op.text = text

/-- Whether the operator compares two values. This is `is_comparator`. A `size` test has
an operator of its own inside its operand, which is held to this too. -/
def isComparator : Operator → Bool
  | eq | ne | lt | le | gt | ge => true
  | _ => false

end Operator

/-- How the conditions under a node are combined. This is `LogicalOperator`. -/
inductive Connective where
  | and
  | or
  | not
  deriving DecidableEq, Repr

namespace Connective

/-- The name of the connective. This is `as_str`. -/
def text : Connective → String
  | and => "and"
  | or => "or"
  | not => "not"

/-- The connective inside an expression. This is `keyword`. -/
def keyword : Connective → String
  | and => "AND"
  | or => "OR"
  | not => "NOT"

/-- All connectives. -/
def all : List Connective := [and, or, not]

/-- The connective with a given name, in any mixture of cases. -/
def ofText? (text : String) : Option Connective :=
  all.find? fun c => c.text.toList = text.toList.map Char.toLower

end Connective

end ItemStore
