import ItemStore.Expression.Bindings
import ItemStore.Request.Options

/-
Requests to the store, and its responses.

A request is complete: it names its table, carries its key or item as descriptors
and its expressions as texts with the tables of their tokens. Nothing in it refers
to a schema any more.

The requests are `PutItemInput` and its like, `OperationDef` is any of them, and
`RawResponse` is what comes back.
-/
set_option autoImplicit false

namespace ItemStore

/-- The six things a request can ask for. -/
inductive OperationKind where
  | putItem
  | getItem
  | deleteItem
  | updateItem
  | query
  | scan
  deriving DecidableEq, Repr

namespace OperationKind

/-- The name the store has for it. This is `as_str`, and the member `type` of a request
on the wire. -/
def text : OperationKind → String
  | putItem => "PutItem"
  | getItem => "GetItem"
  | deleteItem => "DeleteItem"
  | updateItem => "UpdateItem"
  | query => "Query"
  | scan => "Scan"

/-- All kinds. -/
def all : List OperationKind := [putItem, getItem, deleteItem, updateItem, query, scan]

/-- The kind with a given name. -/
def ofText? (text : String) : Option OperationKind := all.find? fun kind => kind.text = text

/-- Whether stored items may change. This is `is_write`. -/
def isWrite : OperationKind → Bool
  | putItem | deleteItem | updateItem => true
  | getItem | query | scan => false

end OperationKind

/-- Insert or replace an item. -/
structure PutRequest where
  table : String
  item : Item
  condition : Option String
  bindings : Bindings
  report : WriteReport

/-- Fetch the item with a key. -/
structure GetRequest where
  table : String
  key : Item
  projection : Option String
  /-- Name tokens; there are no values in a projection. -/
  names : List (String × String)
  consistent : Option Bool
  capacity : Option CapacityReport

/-- Delete the item with a key. -/
structure DeleteRequest where
  table : String
  key : Item
  condition : Option String
  bindings : Bindings
  report : WriteReport

/-- Change the item with a key. -/
structure UpdateRequest where
  table : String
  key : Item
  update : String
  condition : Option String
  bindings : Bindings
  report : WriteReport

/-- Find the items of one partition. -/
structure QueryRequest where
  table : String
  index : Option String
  keyCondition : String
  filter : Option String
  projection : Option String
  bindings : Bindings
  /-- How many items are looked at. -/
  limit : Option Nat
  /-- Ascending order of the sort key. -/
  forward : Option Bool
  consistent : Option Bool
  capacity : Option CapacityReport

/-- Go through all items. -/
structure ScanRequest where
  table : String
  index : Option String
  filter : Option String
  projection : Option String
  bindings : Bindings
  /-- How many items are looked at. -/
  limit : Option Nat
  capacity : Option CapacityReport

/-- A request of any kind. -/
inductive Operation where
  | put (r : PutRequest)
  | get (r : GetRequest)
  | delete (r : DeleteRequest)
  | update (r : UpdateRequest)
  | query (r : QueryRequest)
  | scan (r : ScanRequest)

namespace Operation

/-- What the request asks for. This is `kind`. -/
def kind : Operation → OperationKind
  | put _ => .putItem
  | get _ => .getItem
  | delete _ => .deleteItem
  | update _ => .updateItem
  | query _ => .query
  | scan _ => .scan

/-- The table the request is about. This is `table_name`. -/
def table : Operation → String
  | put r => r.table
  | get r => r.table
  | delete r => r.table
  | update r => r.table
  | query r => r.table
  | scan r => r.table

end Operation

/-- What the store answers. This is `RawResponse`. One form serves all operations; what
an operation has no use for is absent or empty. -/
structure Response where
  /-- The item that was fetched. -/
  item : Option Item
  /-- The items that were found. -/
  items : List Item
  /-- The attributes that a write returns. -/
  attributes : Option Item
  /-- How many items were found. -/
  count : Option Nat
  /-- Where to go on, if not everything was looked at. -/
  lastKey : Option Item

/-- Nothing to tell. -/
def Response.empty : Response :=
  { item := none, items := [], attributes := none, count := none, lastKey := none }

/-! ## Equality

Requests are the same when they differ at most in the order of attributes, of an
item or inside a map. -/

/-- Whether two tables of values bind the same tokens to the same values. -/
def sameValues : List (String × Descriptor) → List (String × Descriptor) → Bool
  | [], [] => true
  | (t, a) :: as, (t', b) :: bs => t = t' && a.same b && sameValues as bs
  | _, _ => false

/-- Whether two pairs of tables say the same. -/
def Bindings.same (a b : Bindings) : Bool :=
  a.names = b.names && sameValues a.values b.values

namespace Operation

/-- Whether two requests are the same. -/
def same : Operation → Operation → Bool
  | put a, put b =>
    a.table = b.table && Item.same a.item b.item && a.condition = b.condition &&
      a.bindings.same b.bindings && a.report = b.report
  | get a, get b =>
    a.table = b.table && Item.same a.key b.key && a.projection = b.projection &&
      a.names = b.names && a.consistent = b.consistent && a.capacity = b.capacity
  | delete a, delete b =>
    a.table = b.table && Item.same a.key b.key && a.condition = b.condition &&
      a.bindings.same b.bindings && a.report = b.report
  | update a, update b =>
    a.table = b.table && Item.same a.key b.key && a.update = b.update &&
      a.condition = b.condition && a.bindings.same b.bindings && a.report = b.report
  | query a, query b =>
    a.table = b.table && a.index = b.index && a.keyCondition = b.keyCondition &&
      a.filter = b.filter && a.projection = b.projection && a.bindings.same b.bindings &&
      a.limit = b.limit && a.forward = b.forward && a.consistent = b.consistent &&
      a.capacity = b.capacity
  | scan a, scan b =>
    a.table = b.table && a.index = b.index && a.filter = b.filter &&
      a.projection = b.projection && a.bindings.same b.bindings && a.limit = b.limit &&
      a.capacity = b.capacity
  | _, _ => false

end Operation

end ItemStore
