import ItemStore.Expression.Bindings
import ItemStore.Schema.Encode

/-
Conditions and their expressions.

A condition is a tree of tests. Each test takes the next number of a running count
and puts it at the end of the tokens for its values, so that no two tests share a
value token; the name of a top-level attribute carries the number as well, whereas
the segments of a longer path have tokens without a number. The count goes on
through all conditions of one operation.

Compiling goes through the tree from left to right and stops at the first fault.
Nothing is changed in place: the count and the tables that a failed compilation had
got to are simply not returned.

The entry points are `compile`, `compile_with` and `compile_into`, here `compileAlone`,
`compileFrom` and `compile`. They differ in where count and tables come from.
`CompileContext` is the count, `Progress` the count and the tables.
-/
set_option autoImplicit false

namespace ItemStore

/-- What stands to the right of an operator. This is `Operand`, and `none` is the form
of a comparison that has no value. -/
inductive Operand where
  /-- Nothing. -/
  | none
  | single (v : Value)
  /-- Two bounds. -/
  | pair (low high : Value)
  /-- Candidates. -/
  | list (values : List Value)
  /-- A comparison of the attribute's size. -/
  | size (comparator : Operator) (v : Value)

/-- A condition on an item. This is `Condition`. Every pair of an operator and an
operand can be written down, also those that do not go together; `compile` refuses them. -/
inductive Condition where
  | test (path : Path) (operator : Operator) (operand : Operand)
  | group (connective : Connective) (conditions : List Condition)

namespace Condition

mutual

/-- The paths that the condition tests, from left to right. This is `paths`. A query
looks at it to see whether key condition and filter keep to their attributes. -/
def paths : Condition → List Path
  | test path _ _ => [path]
  | group _ conditions => pathsOfAll conditions

/-- The paths that several conditions test. -/
def pathsOfAll : List Condition → List Path
  | [] => []
  | c :: cs => c.paths ++ pathsOfAll cs

end

end Condition

/-- How far the compilation of an operation has got. -/
structure Progress where
  /-- The number of the next test. -/
  position : Nat
  /-- What the tokens used so far stand for. -/
  bindings : Bindings

/-- The beginning of an operation. -/
def Progress.start : Progress := { position := 0, bindings := .empty }

/-! ## One test -/

/-- Where the values of a test get their tokens from. -/
structure TestSite where
  path : Path
  /-- The number of the test. -/
  index : Nat

namespace TestSite

/-- The suffix of the token for the only value of a test. -/
def suffix (site : TestSite) : String := toString site.index

/-- The suffix of the token for the `k`-th value of a test that has several. Since a
number has no low line in it, the suffix of one test is never that of another. -/
def suffixAt (site : TestSite) (k : Nat) : String :=
  toString site.index ++ "_v" ++ toString k

/-- Binds a value to the token with a given suffix. This is `bind` of a leaf. The token
is fixed before the value is known, so a token that is taken is an error and not a
reason to look for another. -/
def bind (site : TestSite) (suffix : String) (value : Descriptor) (b : Bindings) :
    Except Error (String × Bindings) := do
  let token := site.path.valueToken suffix
  let b ← b.bindValue token value
  .ok (token, b)

/-- Encodes a value and binds it to the token with a given suffix. -/
def bindEncoded (site : TestSite) (node : Schema) (suffix : String) (v : Value)
    (b : Bindings) : Except Error (String × Bindings) := do
  let value ← node.encode v
  site.bind suffix value b

/-- Encodes and binds several values, numbered from `k` on. They are encoded and bound
in turns, so that of two faults the one further left is told. -/
def bindAll (site : TestSite) (node : Schema) :
    (k : Nat) → List Value → Bindings → Except Error (List String × Bindings)
  | _, [], b => .ok ([], b)
  | k, v :: vs, b => do
    let (token, b) ← site.bindEncoded node (site.suffixAt k) v b
    let (tokens, b) ← site.bindAll node (k + 1) vs b
    .ok (token :: tokens, b)

end TestSite

/-- What the operand of `contains` is compared with: an element of a list, a member of a
set, part of anything else. A key mark is looked through, once, but what is neither a
list nor a set keeps its mark. -/
def Schema.memberNode (s : Schema) : Schema :=
  match s.unwrapKey with
  | .list _ element => element
  | .set _ kind => .ofKind kind.member
  | _ => s

/-- The tag a value spells. -/
def Value.tag? (v : Value) : Option Tag := v.string?.bind Tag.ofText?

/-- The form of an operand, if there is one. -/
def Operand.form? : Operand → Option OperandForm
  | none => .none
  | single _ => some .single
  | pair _ _ => some .pair
  | list _ => some .list
  | size _ _ => some .size

/-- The fault of an operator that does not go with its operand. This is the last case of
`render_comparison`, put beside the case of a missing operand in `render`. -/
def operandFault (operator : Operator) (operand : Operand) : ConditionFault :=
  match operand.form? with
  | some form => .wrongOperand operator form
  | none => .needsValue operator

/-- The fault of an operator that does not go with its operand, as an error. -/
def operandError (operator : Operator) (operand : Operand) : Error :=
  .invalidCondition (operandFault operator operand)

/-- A function call in an expression. -/
def call (function : String) (arguments : List String) : String :=
  function ++ "(" ++ ", ".intercalate arguments ++ ")"

/-- A comparison in an expression. -/
def comparison (left : String) (operator : Operator) (right : String) : String :=
  left ++ " " ++ operator.text ++ " " ++ right

/-- The expression for an operator with one value. These are the cases of
`render_comparison` with one value. The node that the value is encoded with depends on
the operator, and with `attribute_type` there is none. -/
def renderSingle (site : TestSite) (name : String) (node : Schema) (operator : Operator)
    (v : Value) (b : Bindings) : Except Error (String × Bindings) :=
  match operator with
  | .beginsWith => do
    let (token, b) ← site.bindEncoded node site.suffix v b
    .ok (call operator.text [name, token], b)
  | .contains => do
    let (token, b) ← site.bindEncoded node.memberNode site.suffix v b
    .ok (call operator.text [name, token], b)
  | .hasType =>
    -- the operand is the name of a type, whatever the node of the attribute
    match v.tag? with
    | some tag => do
      let (token, b) ← site.bind site.suffix (.string tag.text) b
      .ok (call operator.text [name, token], b)
    | none => .error (.invalidCondition (.notATag v.summary))
  | operator =>
    if operator.isComparator then do
      let (token, b) ← site.bindEncoded node site.suffix v b
      .ok (comparison name operator token, b)
    else .error (operandError operator (.single v))

/-- The expression for an operator and its operand, given the attribute's form in
expressions and its node. This is `render_comparison` together with the tests that have
no operand. What does not go together falls to the last case, after everything that
does. -/
def renderTest (site : TestSite) (name : String) (node : Schema) (operator : Operator)
    (operand : Operand) (b : Bindings) : Except Error (String × Bindings) :=
  match operator, operand with
  | .exists, .none => .ok (call operator.text [name], b)
  | .notExists, .none => .ok (call operator.text [name], b)
  | operator, .single v => renderSingle site name node operator v b
  | .between, .pair low high => do
    let (low, b) ← site.bindEncoded node (site.suffixAt 0) low b
    let (high, b) ← site.bindEncoded node (site.suffixAt 1) high b
    .ok (name ++ " BETWEEN " ++ low ++ " AND " ++ high, b)
  | .isIn, .list values =>
    if values.isEmpty then .error (.invalidCondition .noCandidates)
    else do
      let (tokens, b) ← site.bindAll node 0 values b
      .ok (name ++ " IN (" ++ ", ".intercalate tokens ++ ")", b)
  | .size, .size comparator v =>
    if comparator.isComparator then do
      let (token, b) ← site.bindEncoded (.ofKind .number) site.suffix v b
      .ok (comparison (call operator.text [name]) comparator token, b)
    else .error (operandError operator operand)
  | operator, operand => .error (operandError operator operand)

/-- The suffix of the name tokens of a test: its number for a top-level attribute. Two
tests of one top-level attribute hence have two name tokens, and two tests of one nested
attribute share theirs. -/
def TestSite.nameSuffix (site : TestSite) : String :=
  if site.path.isTopLevel then toString site.index else ""

/-- Compiles one test. This is `render` at a leaf. The order of its steps is the order
in which faults are told: first the path, then the operand. -/
def compileTest (schema : Schema) (path : Path) (operator : Operator) (operand : Operand)
    (progress : Progress) : Except Error (String × Progress) := do
  let site : TestSite := { path, index := progress.position }
  let node ← schema.resolve path
  -- the names are bound first, and the values do not change them any more
  let (name, b) := progress.bindings.bindPath path site.nameSuffix
  let (text, b) ← renderTest site name node operator operand b
  .ok (text, { position := progress.position + 1, bindings := b })

/-! ## Trees of tests -/

/-- Expressions under a connective, in parentheses. Brackets are put around every group,
so an expression needs no precedence to be read. A negation of several conditions is one
of their conjunction. -/
def joinParts (connective : Connective) (parts : List String) : String :=
  match connective, parts with
  -- a single part has brackets of its own where it needs them
  | .not, [part] => "(NOT " ++ part ++ ")"
  | .not, parts => "(NOT (" ++ " AND ".intercalate parts ++ "))"
  | connective, parts => "(" ++ (" " ++ connective.keyword ++ " ").intercalate parts ++ ")"

namespace Condition

mutual

/-- Compiles a condition on items of the given schema. This is `compile_into`. There the
tables of a failed compilation are thrown away with a copy of them; here they are not
returned. -/
def compile (schema : Schema) : Condition → Progress → Except Error (String × Progress)
  | test path operator operand, progress => compileTest schema path operator operand progress
  | group connective conditions, progress =>
    if conditions.isEmpty then .error (.invalidCondition (.noConditions connective))
    else do
      let (parts, progress) ← compileAll schema conditions progress
      .ok (joinParts connective parts, progress)

/-- Compiles several conditions, one after the other. -/
def compileAll (schema : Schema) :
    List Condition → Progress → Except Error (List String × Progress)
  | [], progress => .ok ([], progress)
  | c :: cs, progress => do
    let (part, progress) ← c.compile schema progress
    let (parts, progress) ← compileAll schema cs progress
    .ok (part :: parts, progress)

end

/-- Compiles a condition into tables of its own, counting on from a position; the new
position comes with the result. This is `compile_with`. -/
def compileFrom (schema : Schema) (c : Condition) (position : Nat) :
    Except Error (Compiled × Nat) := do
  let (expression, progress) ← c.compile schema { position, bindings := .empty }
  .ok ({ expression, bindings := progress.bindings }, progress.position)

/-- Compiles a condition for itself. This is `compile`. -/
def compileAlone (schema : Schema) (c : Condition) : Except Error Compiled :=
  (c.compileFrom schema 0).map Prod.fst

end Condition

end ItemStore
