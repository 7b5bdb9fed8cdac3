import ItemStore.Draft.Run
import ItemStore.Memory.Update

/-
A store in memory.

Items are filed under the texts of their attributes `pk` and `sk`, whatever the keys
of their entities are, and are kept in the order of these texts. A condition is
looked at only when an item is put: then an item that is there already refuses it.
A query selects a partition and nothing more, and pages end where a limit is
reached. The store remembers every request it has received, also those it could not
answer.

The store is `MemoryRunner`; `storage_key`, `page` and `partition_value` are the helpers
of its `execute`.
-/
set_option autoImplicit false

namespace ItemStore.Memory

/-- What an item is filed under: the wire texts of two of its attributes. Texts are
compared and not values, so the order of items is the order of JSON texts. -/
structure StorageKey where
  partition : String
  sort : String
  deriving DecidableEq, Repr

/-- Partitions are in order, and so are the items inside a partition. -/
instance : LT StorageKey where
  lt a b := a.partition < b.partition ∨ (a.partition = b.partition ∧ a.sort < b.sort)

instance : DecidableLT StorageKey := fun a b =>
  inferInstanceAs
    (Decidable (a.partition < b.partition ∨ (a.partition = b.partition ∧ a.sort < b.sort)))

/-- The attribute that decides about the partition. -/
def partitionName : String := "pk"

/-- The attribute that decides about the place in a partition. -/
def sortName : String := "sk"

/-- The wire text of an attribute that items are filed under. -/
def keyPart (item : Item) (name : String) : Except Fault String :=
  match Entries.get? name item with
  | some d => .ok d.wire
  | none => .error (.keyAttributeMissing name)

/-- What an item or a key is filed under. This is `storage_key`. -/
def StorageKey.ofItem (item : Item) : Except Fault StorageKey := do
  let partition ← keyPart item partitionName
  let sort ← keyPart item sortName
  .ok { partition, sort }

/-- Stored items in the order of their keys. -/
abbrev Items : Type := List (StorageKey × Item)

/-! ## Reading -/

/-- The value that a name token is compared with: what follows ` = ` up to a blank or a
closing parenthesis. -/
def comparedWith? (keyCondition : String) (values : List (String × Descriptor))
    (token : String) : Option Descriptor :=
  match Text.cut? (token ++ " = ").toList keyCondition.toList with
  | some (_, after) =>
    Entries.get? (String.ofList (after.takeWhile fun c => c != ' ' && c != ')')) values
  | none => none

/-- The partition a query selects. This is `partition_value`. The key condition is only
searched for one comparison; the sort key and everything else in it is passed over. -/
def partitionOf? (r : QueryRequest) : Option Descriptor :=
  r.bindings.names.findSome? fun (token, name) =>
    if name = partitionName then comparedWith? r.keyCondition r.bindings.values token
    else none

/-- Whether an item is in a partition. Partition keys are compared as values and not as
texts. -/
def isIn (partition : Descriptor) (item : Item) : Bool :=
  match Entries.get? partitionName item with
  | some d => d.same partition
  | none => false

/-- A count, if it fits in 32 bits. -/
def count? (n : Nat) : Option Nat := if n ≤ 4294967295 then some n else none

/-- As many of the items as a limit allows; the last of them is where to go on if any
were left out. This is `page`. There is no such key if nothing is shown, even if
something was left out. -/
def page (items : List Item) (limit : Option Nat) : Response :=
  let shown := items.take (limit.getD items.length)
  { item := none, items := shown, attributes := none, count := count? shown.length,
    lastKey := if shown.length < items.length then shown.getLast? else none }

/-- What a query finds. Filter and projection are not looked at, only the partition, the
order and the limit. -/
def query (items : Items) (r : QueryRequest) : Except Fault Response :=
  match partitionOf? r with
  | some partition =>
    let matched := (items.map Prod.snd).filter (isIn partition)
    let ordered := if r.forward = some false then matched.reverse else matched
    .ok (page ordered r.limit)
  | none => .error .noPartition

/-! ## Writing -/

/-- A response with the attributes of an item, if they are wanted. -/
def attributesIf (wanted : Bool) (item : Option Item) : Response :=
  { Response.empty with attributes := if wanted then item else none }

/-- Puts an item in the place of the one that is filed under the same key. What the
condition says is not evaluated. -/
def put (items : Items) (r : PutRequest) : Except Fault Response × Items :=
  match StorageKey.ofItem r.item with
  | .error fault => (.error fault, items)
  | .ok key =>
    -- any condition on a put counts as the one that no item is there
    if r.condition.isSome && Entries.has key items then (.error .conditionFailed, items)
    else
      (.ok (attributesIf (r.report.values = some .allOld) (Entries.get? key items)),
        Entries.insertSorted key r.item items)

/-- Deletes an item. -/
def delete (items : Items) (r : DeleteRequest) : Except Fault Response × Items :=
  match StorageKey.ofItem r.key with
  | .error fault => (.error fault, items)
  | .ok key =>
    (.ok (attributesIf (r.report.values = some .allOld) (Entries.get? key items)),
      Entries.erase key items)

/-- Updates an item. An item that is not there is made of the key first, and it stays
there when the update cannot be carried out. The entry is made before the clauses are
carried out (`or_insert_with`) and is changed in place by them. -/
def update (items : Items) (r : UpdateRequest) : Except Fault Response × Items :=
  match StorageKey.ofItem r.key with
  | .error fault => (.error fault, items)
  | .ok key =>
    let (fault, item) := applyUpdate r.bindings r.update ((Entries.get? key items).getD r.key)
    let answer :=
      match fault with
      | some fault => .error fault
      | none => .ok (attributesIf (r.report.values = some .allNew) (some item))
    (answer, Entries.insertSorted key item items)

/-- Answers a request. This is `execute` of the store. A table name is not looked at:
the store holds one table. -/
def answer (items : Items) : Operation → Except Fault Response × Items
  | .put r => put items r
  | .get r =>
    ((StorageKey.ofItem r.key).map fun key =>
      { Response.empty with item := Entries.get? key items }, items)
  | .delete r => delete items r
  | .update r => update items r
  | .query r => (query items r, items)
  | .scan r => (.ok (page (items.map Prod.snd) r.limit), items)

/-! ## The store -/

/-- A store: its items and the requests it has received. -/
structure Store where
  items : Items
  received : List Operation

namespace Store

/-- Nothing is stored and nothing was received. -/
def empty : Store := { items := [], received := [] }

/-- The store as a transport. This is `run`. The request is remembered before it is
answered. -/
def transport : Transport Store := fun operation store =>
  let (result, items) := answer store.items operation
  (result.mapError Fault.message, { items, received := store.received ++ [operation] })

/-- **The log.** A store remembers every request that reaches it, answered or not, behind
those it had received before. -/
theorem received_transport (operation : Operation) (store : Store) :
    (transport operation store).2.received = store.received ++ [operation] := rfl

/-- **Reading changes nothing.** Only writes change what is stored. -/
theorem items_transport_of_not_isWrite {operation : Operation} (store : Store)
    (h : operation.kind.isWrite = false) :
    (transport operation store).2.items = store.items := by
  cases operation with
  | put r => cases h
  | get r => rfl
  | delete r => cases h
  | update r => cases h
  | query r => rfl
  | scan r => rfl

end Store

end ItemStore.Memory
