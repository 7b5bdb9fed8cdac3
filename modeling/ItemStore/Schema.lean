import ItemStore.Entries
import ItemStore.Error
import ItemStore.Kind

/-
Schemas: what the attributes of an item must look like.

A schema is a tree. Its leaves are scalars and sets, its inner nodes are maps with
named fields and lists whose elements are all alike, and a partition or sort key is
a mark around the node of its attribute. Every node says for itself whether null
may stand in its place and whether it may be left out of the map around it.

Declaring a schema and using it are the same tree. What has to be checked in
between is that no map has two fields of one name; `validate` does it, and the
rest of the library is meant for trees that passed.

Declarations are made by `string`, `map`, `partition_key` and their like and checked by
`build`; what is checked is named `SchemaNode`. Here both are `Schema`, because the
second is the first with nothing changed.
-/
set_option autoImplicit false

namespace ItemStore

/-- What may stand in the place of a proper value. They belong to the node that they
stand on, also where the node is a key mark: a nullable attribute inside a key mark that
is not nullable accepts no null. -/
structure Modifiers where
  /-- An explicit null is accepted. -/
  nullable : Bool
  /-- The attribute may be missing from its map. -/
  optional : Bool
  deriving DecidableEq, Repr

/-- Neither null nor absence is accepted. -/
def Modifiers.none : Modifiers := { nullable := false, optional := false }

/-- A schema node. The fields of a map are in order. This is `SchemaNode` with its
`NodeKind`. A key mark is a node around a node and not a flag, so what `encode` does at
a key it does in a case of its own. -/
inductive Schema where
  | scalar (modifiers : Modifiers) (kind : ScalarKind)
  | set (modifiers : Modifiers) (kind : SetKind)
  | map (modifiers : Modifiers) (fields : List (String × Schema))
  | list (modifiers : Modifiers) (element : Schema)
  | partitionKey (modifiers : Modifiers) (inner : Schema)
  | sortKey (modifiers : Modifiers) (inner : Schema)

namespace Schema

/-- The modifiers of the node itself. -/
def modifiers : Schema → Modifiers
  | scalar m _ => m
  | set m _ => m
  | map m _ => m
  | list m _ => m
  | partitionKey m _ => m
  | sortKey m _ => m

/-- Whether an explicit null is accepted. This is `is_nullable`. -/
def isNullable (s : Schema) : Bool := s.modifiers.nullable

/-- Whether the attribute may be missing from its map. This is `is_optional`. It is
asked by the map around a node, never by the node itself. -/
def isOptional (s : Schema) : Bool := s.modifiers.optional

/-- Whether the node is marked as a partition or sort key. This is `is_key`. An update
asks it of the attribute that a path starts from. -/
def isKey : Schema → Bool
  | partitionKey _ _ => true
  | sortKey _ _ => true
  | _ => false

/-- Whether the node is marked as a partition key. -/
def isPartitionKey : Schema → Bool
  | partitionKey _ _ => true
  | _ => false

/-- Whether the node is marked as a sort key. -/
def isSortKey : Schema → Bool
  | sortKey _ _ => true
  | _ => false

/-- The node inside one key mark, or the node itself. This is `unwrap_key`. Only one
mark is taken off: a mark inside a mark stays. -/
def unwrapKey : Schema → Schema
  | partitionKey _ inner => inner
  | sortKey _ inner => inner
  | s => s

/-- The fields of a map. This is `children`. -/
def fields? : Schema → Option (List (String × Schema))
  | map _ fields => some fields
  | _ => none

/-- The field of a map with a given name. This is `child`. -/
def field? (s : Schema) (name : String) : Option Schema := s.fields?.bind (Entries.get? name)

/-- The element of a list. -/
def element? : Schema → Option Schema
  | list _ element => some element
  | _ => none

/-- The name of the first field of a map that is marked as its partition key. This is
`partition_key`. A schema may mark several fields, and then only the first one counts. -/
def partitionKey? (s : Schema) : Option String :=
  (s.fields?.getD []).findSome? fun (name, node) =>
    if node.isPartitionKey then some name else none

/-- The name of the first field of a map that is marked as its sort key. This is
`sort_key`, which likewise sees the first mark only. -/
def sortKey? (s : Schema) : Option String :=
  (s.fields?.getD []).findSome? fun (name, node) => if node.isSortKey then some name else none

/-- The name of the node's shape in messages. -/
def text : Schema → String
  | scalar _ kind => kind.text
  | set _ kind => kind.text
  | map _ _ => "map"
  | list _ _ => "list"
  | partitionKey _ inner => "partition key (" ++ inner.text ++ ")"
  | sortKey _ inner => "sort key (" ++ inner.text ++ ")"

/-- A required scalar. -/
def ofKind (kind : ScalarKind) : Schema := .scalar .none kind

/-! ## Declarations -/

mutual

/-- The first name that a map inside the schema repeats. Fields are gone through in
order; a field's own name counts before anything inside it. `build` finds it while it
converts a declaration; here the conversion has nothing left to do, and what remains of
it is the search. -/
def repeatedName? : Schema → Option String
  | scalar _ _ => none
  | set _ _ => none
  | map _ fields => repeatedNameAmong? [] fields
  | list _ element => element.repeatedName?
  | partitionKey _ inner => inner.repeatedName?
  | sortKey _ inner => inner.repeatedName?

/-- The same for the fields of a map that come after fields with the names `seen`. -/
def repeatedNameAmong? (seen : List String) : List (String × Schema) → Option String
  | [] => none
  | (name, node) :: fields =>
    if name ∈ seen then some name
    else (node.repeatedName?).or (repeatedNameAmong? (name :: seen) fields)

end

/-- The schema itself, provided that no map in it has two fields of one name. This is `build`.
Its success is what the round trip through the store asks of a schema. -/
def validate (s : Schema) : Except Error Schema :=
  match s.repeatedName? with
  | some name => .error (.duplicateFieldName name)
  | none => .ok s

/-! ## Equality -/

mutual

/-- Whether two schemas accept the same in the same way: equal, except that the fields
of maps may come in any order. Tables compare by it what two entities declare under one
name, when they are combined. -/
def same : Schema → Schema → Bool
  | scalar m k, scalar m' k' => m = m' && k = k'
  | set m k, set m' k' => m = m' && k = k'
  | map m fields, map m' fields' =>
    m = m' && fields.length = fields'.length && sameFields fields fields'
  | list m s, list m' s' => m = m' && s.same s'
  | partitionKey m s, partitionKey m' s' => m = m' && s.same s'
  | sortKey m s, sortKey m' s' => m = m' && s.same s'
  | _, _ => false

/-- Whether every field of the first list is declared in the second one as well. -/
def sameFields : List (String × Schema) → List (String × Schema) → Bool
  | [], _ => true
  | (name, s) :: fields, fields' =>
    (match Entries.get? name fields' with
      | some s' => s.same s'
      | none => false) && sameFields fields fields'

end

end Schema

end ItemStore
