import ItemStore.Schema

/-
Schemas of tables.

One table holds items of several entities, and each of its indexes shows some of
them under other keys; an index is declared just like a table. Operations on the
table as a whole use the combined schema, which has the fields of all entities.
Entities may share a field, typically a key, if they declare it alike.
-/
set_option autoImplicit false

namespace ItemStore

/-- The declaration of a table: the fields of its entities, and its indexes. This is
`TableSchemaBuilder`. -/
inductive TableDeclaration where
  | mk (entities : List (String × List (String × Schema)))
      (indexes : List (String × TableDeclaration))

/-- The schema of a table. -/
inductive TableSchema where
  | mk (entities : List (String × Schema)) (indexes : List (String × TableSchema))
      (combined : Schema)

namespace TableSchema

/-- The entities in the order of their declaration. -/
def entities : TableSchema → List (String × Schema)
  | mk entities _ _ => entities

/-- The indexes in the order of their declaration. -/
def indexes : TableSchema → List (String × TableSchema)
  | mk _ indexes _ => indexes

/-- One map with the fields of all entities. This is `combined`. It is a map without
marks or modifiers of its own, whatever the entities are. -/
def combined : TableSchema → Schema
  | mk _ _ combined => combined

/-- The schema of an entity. This is `entity`. -/
def entity (t : TableSchema) (name : String) : Except Error Schema :=
  match Entries.get? name t.entities with
  | some s => .ok s
  | none => .error (.unknownEntity name)

/-- The schema of an index. This is `index`. -/
def index (t : TableSchema) (name : String) : Except Error TableSchema :=
  match Entries.get? name t.indexes with
  | some i => .ok i
  | none => .error (.unknownIndex name)

end TableSchema

/-- The fields of another entity added to those combined so far. A field that is there
already has to be declared in the same way. This is `combine` for one entity. The first
declaration of a field is the one that is kept, and its place too. -/
def combineFields (combined : List (String × Schema)) :
    List (String × Schema) → Except Error (List (String × Schema))
  | [] => .ok combined
  | (name, node) :: fields =>
    match Entries.get? name combined with
    | some kept =>
      if kept.same node then combineFields combined fields
      else .error (.duplicateFieldName name)
    | none => combineFields (combined ++ [(name, node)]) fields

/-- The fields of several entities added to those combined so far. This is `combine`. -/
def combineAll (combined : List (String × Schema)) :
    List (String × Schema) → Except Error (List (String × Schema))
  | [] => .ok combined
  | (_, entity) :: entities => do
    let combined ← combineFields combined (entity.fields?.getD [])
    combineAll combined entities

/-- The schemas of declared entities; `seen` are the names of the entities before them.
That a name comes twice is found before the second entity is looked into. -/
def buildEntities (seen : List String) :
    List (String × List (String × Schema)) → Except Error (List (String × Schema))
  | [] => .ok []
  | (name, fields) :: entities => do
    if name ∈ seen then .error (.duplicateFieldName name)
    let first ← (Schema.map .none fields).validate
    let rest ← buildEntities (name :: seen) entities
    .ok ((name, first) :: rest)

mutual

/-- The schema of a declared table: entities first, then indexes, then what is combined.
This is `build`. The order shows in the error when several things are wrong: an entity
hides an index, and both hide a conflict between entities. -/
def TableDeclaration.build : TableDeclaration → Except Error TableSchema
  | .mk entities indexes => do
    let entities ← buildEntities [] entities
    let indexes ← buildIndexes [] indexes
    let fields ← combineAll [] entities
    .ok (.mk entities indexes (.map .none fields))

/-- The schemas of declared indexes; `seen` are the names of the indexes before them. -/
def buildIndexes (seen : List String) :
    List (String × TableDeclaration) → Except Error (List (String × TableSchema))
  | [] => .ok []
  | (name, declaration) :: indexes => do
    if name ∈ seen then .error (.duplicateFieldName name)
    let first ← declaration.build
    let rest ← buildIndexes (name :: seen) indexes
    .ok ((name, first) :: rest)

end

end ItemStore
