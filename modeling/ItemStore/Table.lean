import ItemStore.Schema.Table
import ItemStore.Table.Config

/-
Tables: a schema together with its configuration.

The steps of an operation that need the table are `entity`, `combined` and the decode
mode of its configuration.
-/
set_option autoImplicit false

namespace ItemStore

/-- A table that operations can be described for. -/
structure Table where
  schema : TableSchema
  config : Config

namespace Table

/-- The name of the table in the store. -/
def name (t : Table) : String := t.config.tableName

/-- The schema of an entity of the table. This is `entity`. -/
def entity (t : Table) (name : String) : Except Error Schema := t.schema.entity name

/-- The combined schema of an index of the table, or of the table itself. This is
`combined`. Queries and scans are built and decoded with it, because what they find may
be of any entity. -/
def combined (t : Table) (index : Option String) : Except Error Schema :=
  match index with
  | some name => (t.schema.index name).map TableSchema.combined
  | none => .ok t.schema.combined

end Table

end ItemStore
