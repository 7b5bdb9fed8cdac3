import ItemStore.Schema.Encode

/-
Primary keys.

An entity declares which of its fields is the partition key and which one, if any,
the sort key. An item is addressed by a map of exactly these fields, encoded just
as the item itself would be.
-/
set_option autoImplicit false

namespace ItemStore

/-- The names of an entity's key attributes. This is `KeyAttributes`. It has room for
one name of each sort, although a combined schema may mark several. -/
structure KeyNames where
  partition : String
  sort : Option String
  deriving DecidableEq, Repr

namespace KeyNames

/-- The key attributes of an entity; without a partition key there are none. This is
`of`. -/
def ofSchema (entity : Schema) : Except Error KeyNames :=
  match entity.partitionKey? with
  | some partition => .ok { partition, sort := entity.sortKey? }
  | none => .error (.invalidKey .noPartitionKey)

/-- Whether an attribute belongs to the key. This is `contains`. -/
def has (keys : KeyNames) (name : String) : Bool :=
  keys.partition = name || keys.sort = some name

/-- The names, the partition key first. This is `names`, and the order in which a
request carries a key. -/
def names (keys : KeyNames) : List String := keys.partition :: keys.sort.toList

end KeyNames

namespace Schema

/-- Encodes what a map has under the given names; all of them have to be there. The
names lead and not the entries of the map, so the encoded key comes out in one order
however it was given. -/
def encodeNamed (entity : Schema) (entries : List (String × Value)) :
    List String → Except Error Item
  | [] => .ok []
  | name :: names =>
    match Entries.get? name entries with
    | none => .error (.missingPrimaryKey name)
    | some v =>
      match entity.field? name with
      | none => .error (.pathNotFound name)
      | some node => do
        let first ← node.encode v
        let rest ← entity.encodeNamed entries names
        .ok ((name, first) :: rest)

/-- Encodes a primary key: a map of the entity's key attributes and nothing else. This
is `compile_key`. An attribute too many is reported before one that is missing or does
not fit. -/
def encodeKey (entity : Schema) (key : Value) : Except Error Item :=
  match key with
  | .map entries => do
    let keys ← KeyNames.ofSchema entity
    match (Entries.keys entries).find? fun name => !keys.has name with
    | some extra => .error (.invalidKey (.extraAttribute extra))
    | none => entity.encodeNamed entries keys.names
  | v => .error (.invalidKey (.notAMap v.kindName))

end Schema

end ItemStore
