import ItemStore.Expression.Condition
import ItemStore.Expression.Update
import ItemStore.Request.Options

/-
Operations as they are described, before they become requests.

A draft speaks of entities, values, paths and conditions, where the request that
is made of it has descriptors and expressions. It starts out empty and is filled
in; whatever is filled in twice counts as it was filled in last, except for the
actions of an update, which add up. Nothing in a draft is checked.

The six drafts are `PutItemBuilder` and its like. Filling in is not modelled step by
step: a draft is what has been filled in by the time `build` is called.
-/
set_option autoImplicit false

namespace ItemStore

/-- Put an item of an entity. The guard is `throw_if_exists`. It is a flag and not a
condition, because the condition it stands for needs the item. -/
structure PutDraft where
  entity : String
  /-- A draft without an item puts the empty one. -/
  item : Option Value
  condition : Option Condition
  /-- Refuse to replace an item with the same key. -/
  guarded : Bool
  report : WriteReport

/-- Get an item of an entity by its key. -/
structure GetDraft where
  entity : String
  key : Option Value
  /-- The attributes to return; none means all of them. -/
  projection : List Path
  consistent : Option Bool
  capacity : Option CapacityReport

/-- Delete an item of an entity by its key. -/
structure DeleteDraft where
  entity : String
  key : Option Value
  condition : Option Condition
  report : WriteReport

/-- Update an item of an entity by its key. Actions are in the order in which they were
added, which is the order of the clauses in the expression. -/
structure UpdateDraft where
  entity : String
  key : Option Value
  actions : List Action
  condition : Option Condition
  report : WriteReport

/-- Query a table or one of its indexes. It has no entity: one query may find items of
all the entities of a table. -/
structure QueryDraft where
  index : Option String
  keyCondition : Option Condition
  filter : Option Condition
  /-- The attributes to return; none means all of them. -/
  projection : List Path
  limit : Option Nat
  forward : Option Bool
  consistent : Option Bool
  capacity : Option CapacityReport

/-- Scan a table or one of its indexes. -/
structure ScanDraft where
  index : Option String
  filter : Option Condition
  /-- The attributes to return; none means all of them. -/
  projection : List Path
  limit : Option Nat
  capacity : Option CapacityReport

/-- An operation of any kind. -/
inductive Draft where
  | put (d : PutDraft)
  | get (d : GetDraft)
  | delete (d : DeleteDraft)
  | update (d : UpdateDraft)
  | query (d : QueryDraft)
  | scan (d : ScanDraft)

/-- Put an item; which one is not said yet. -/
def PutDraft.start (entity : String) : PutDraft :=
  { entity, item := none, condition := none, guarded := false, report := .none }

/-- Get an item; which one is not said yet. -/
def GetDraft.start (entity : String) : GetDraft :=
  { entity, key := none, projection := [], consistent := none, capacity := none }

/-- Delete an item; which one is not said yet. -/
def DeleteDraft.start (entity : String) : DeleteDraft :=
  { entity, key := none, condition := none, report := .none }

/-- Update an item; which one, and how, is not said yet. -/
def UpdateDraft.start (entity : String) : UpdateDraft :=
  { entity, key := none, actions := [], condition := none, report := .none }

/-- Query the table; for what is not said yet. -/
def QueryDraft.start : QueryDraft :=
  { index := none, keyCondition := none, filter := none, projection := [], limit := none,
    forward := none, consistent := none, capacity := none }

/-- Scan all of the table. -/
def ScanDraft.start : ScanDraft :=
  { index := none, filter := none, projection := [], limit := none, capacity := none }

end ItemStore
