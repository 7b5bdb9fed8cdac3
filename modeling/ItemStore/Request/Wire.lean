import ItemStore.Request
import ItemStore.Request.Record

/-
The wire text of requests and responses.

A request is one record; its kind travels as the member `type`, which is written
first and may be read anywhere. Because the kind decides how the other members are
read, the whole text is taken in before any of them is looked at. The members of a
response are looked at as they come. What is absent or empty is not written.
-/
set_option autoImplicit false

namespace ItemStore

open Json

/-! ## Writing -/

/-- The members for the tables of a request. -/
def Bindings.toMembers (b : Bindings) : List (String × Document) :=
  tableMember "ExpressionAttributeNames" .string b.names ++
    tableMember "ExpressionAttributeValues" Descriptor.toDocument b.values

/-- The member for a report on capacity. -/
def capacityMember (capacity : Option CapacityReport) : List (String × Document) :=
  optionalMember "ReturnConsumedCapacity" (fun c => .string c.text) capacity

/-- The members for what a write is asked to report. -/
def WriteReport.toMembers (r : WriteReport) : List (String × Document) :=
  optionalMember "ReturnValues" (fun v => .string v.text) r.values ++
    capacityMember r.capacity ++
    optionalMember "ReturnItemCollectionMetrics" (fun c => .string c.text) r.collection

/-- The member for an expression. -/
def expressionMember (name : String) (expression : Option String) : List (String × Document) :=
  optionalMember name .string expression

namespace Operation

/-- The members of a request apart from its kind. -/
def toMembers : Operation → List (String × Document)
  | put r =>
    [("TableName", .string r.table), ("Item", Item.toDocument r.item)] ++
      expressionMember "ConditionExpression" r.condition ++
      r.bindings.toMembers ++ r.report.toMembers
  | get r =>
    [("TableName", .string r.table), ("Key", Item.toDocument r.key)] ++
      expressionMember "ProjectionExpression" r.projection ++
      tableMember "ExpressionAttributeNames" .string r.names ++
      optionalMember "ConsistentRead" .bool r.consistent ++ capacityMember r.capacity
  | delete r =>
    [("TableName", .string r.table), ("Key", Item.toDocument r.key)] ++
      expressionMember "ConditionExpression" r.condition ++
      r.bindings.toMembers ++ r.report.toMembers
  | update r =>
    [("TableName", .string r.table), ("Key", Item.toDocument r.key),
        ("UpdateExpression", .string r.update)] ++
      expressionMember "ConditionExpression" r.condition ++
      r.bindings.toMembers ++ r.report.toMembers
  | query r =>
    [("TableName", .string r.table)] ++
      expressionMember "IndexName" r.index ++
      [("KeyConditionExpression", .string r.keyCondition)] ++
      expressionMember "FilterExpression" r.filter ++
      expressionMember "ProjectionExpression" r.projection ++
      r.bindings.toMembers ++
      optionalMember "Limit" wordDocument r.limit ++
      optionalMember "ScanIndexForward" .bool r.forward ++
      optionalMember "ConsistentRead" .bool r.consistent ++ capacityMember r.capacity
  | scan r =>
    [("TableName", .string r.table)] ++
      expressionMember "IndexName" r.index ++
      expressionMember "FilterExpression" r.filter ++
      expressionMember "ProjectionExpression" r.projection ++
      r.bindings.toMembers ++
      optionalMember "Limit" wordDocument r.limit ++ capacityMember r.capacity

/-- The document a request travels as. -/
def toDocument (o : Operation) : Document :=
  .record (("type", .string o.kind.text) :: o.toMembers)

/-- The wire text of a request. -/
def wire (o : Operation) : String := o.toDocument.render

end Operation

namespace Response

/-- The member for a list of items. -/
def itemsMember (items : List Item) : List (String × Document) :=
  if items.isEmpty then [] else [("Items", .list (items.map Item.toDocument))]

/-- The document a response travels as. -/
def toDocument (r : Response) : Document :=
  .record <|
    optionalMember "Item" Item.toDocument r.item ++ itemsMember r.items ++
      optionalMember "Attributes" Item.toDocument r.attributes ++
      optionalMember "Count" wordDocument r.count ++
      optionalMember "LastEvaluatedKey" Item.toDocument r.lastKey

/-- The wire text of a response. -/
def wire (r : Response) : String := r.toDocument.render

/-- How a response is read. -/
def shape : RecordShape Response where
  initial := .empty
  members := ["Item", "Items", "Attributes", "Count", "LastEvaluatedKey"]
  required := []
  lacking := ["Item", "Items", "Attributes", "Count", "LastEvaluatedKey"]
  set name d r :=
    match name with
    | "Item" => (optionOfDocument Item.ofDocument d).map fun item => { r with item }
    | "Items" =>
      (Descriptor.arrayOfDocument Item.ofDocument d).map fun items => { r with items }
    | "Attributes" =>
      (optionOfDocument Item.ofDocument d).map fun attributes => { r with attributes }
    | "Count" => (optionOfDocument wordOfDocument d).map fun count => { r with count }
    | _ => (optionOfDocument Item.ofDocument d).map fun lastKey => { r with lastKey }

/-- The response of a wire text. -/
def read (text : String) : Except Refusal Response := shape.readText text

end Response

/-! ## Reading requests -/

/-- An enumeration inside a request. -/
def requestChoice {α : Type} (ofText? : String → Option α) (d : Document) :
    Except Refusal (Option α) :=
  optionOfDocument (choiceOfDocument ofText? isNullOrEmpty) d

/-- A text that may be null. -/
def optionalString (d : Document) : Except Refusal (Option String) :=
  optionOfDocument Descriptor.stringOfDocument d

/-- Reads a member of what a write is asked to report. -/
def WriteReport.set (name : String) (d : Document) (r : WriteReport) :
    Except Refusal WriteReport :=
  match name with
  | "ReturnValues" => (requestChoice ReturnValues.ofText? d).map fun values => { r with values }
  | "ReturnConsumedCapacity" =>
    (requestChoice CapacityReport.ofText? d).map fun capacity => { r with capacity }
  | _ =>
    (requestChoice CollectionReport.ofText? d).map fun collection => { r with collection }

/-- The members for the tables of a request. -/
def tableMembers : List String := ["ExpressionAttributeNames", "ExpressionAttributeValues"]

/-- The members for what a write is asked to report. -/
def reportMembers : List String :=
  ["ReturnValues", "ReturnConsumedCapacity", "ReturnItemCollectionMetrics"]

namespace PutRequest

/-- How a request to put is read. -/
def shape : RecordShape PutRequest where
  initial := { table := "", item := [], condition := none, bindings := .empty, report := .none }
  members := ["TableName", "Item", "ConditionExpression"] ++ tableMembers ++ reportMembers
  required := ["TableName", "Item"]
  lacking := tableMembers
  set name d r :=
    match name with
    | "TableName" => (Descriptor.stringOfDocument d).map fun table => { r with table }
    | "Item" => (Item.ofDocument d).map fun item => { r with item }
    | "ConditionExpression" => (optionalString d).map fun condition => { r with condition }
    | "ExpressionAttributeNames" =>
      (namesOfDocument d).map fun names => { r with bindings := { r.bindings with names } }
    | "ExpressionAttributeValues" =>
      (valuesOfDocument d).map fun values => { r with bindings := { r.bindings with values } }
    | name => (r.report.set name d).map fun report => { r with report }

end PutRequest

namespace GetRequest

/-- How a request to get is read. -/
def shape : RecordShape GetRequest where
  initial :=
    { table := "", key := [], projection := none, names := [], consistent := none,
      capacity := none }
  members :=
    ["TableName", "Key", "ProjectionExpression", "ExpressionAttributeNames",
      "ConsistentRead", "ReturnConsumedCapacity"]
  required := ["TableName", "Key"]
  lacking := ["ExpressionAttributeNames"]
  set name d r :=
    match name with
    | "TableName" => (Descriptor.stringOfDocument d).map fun table => { r with table }
    | "Key" => (Item.ofDocument d).map fun key => { r with key }
    | "ProjectionExpression" => (optionalString d).map fun projection => { r with projection }
    | "ExpressionAttributeNames" => (namesOfDocument d).map fun names => { r with names }
    | "ConsistentRead" =>
      (optionOfDocument boolOfDocument d).map fun consistent => { r with consistent }
    | _ => (requestChoice CapacityReport.ofText? d).map fun capacity => { r with capacity }

end GetRequest

namespace DeleteRequest

/-- How a request to delete is read. -/
def shape : RecordShape DeleteRequest where
  initial := { table := "", key := [], condition := none, bindings := .empty, report := .none }
  members := ["TableName", "Key", "ConditionExpression"] ++ tableMembers ++ reportMembers
  required := ["TableName", "Key"]
  lacking := tableMembers
  set name d r :=
    match name with
    | "TableName" => (Descriptor.stringOfDocument d).map fun table => { r with table }
    | "Key" => (Item.ofDocument d).map fun key => { r with key }
    | "ConditionExpression" => (optionalString d).map fun condition => { r with condition }
    | "ExpressionAttributeNames" =>
      (namesOfDocument d).map fun names => { r with bindings := { r.bindings with names } }
    | "ExpressionAttributeValues" =>
      (valuesOfDocument d).map fun values => { r with bindings := { r.bindings with values } }
    | name => (r.report.set name d).map fun report => { r with report }

end DeleteRequest

namespace UpdateRequest

/-- How a request to update is read. -/
def shape : RecordShape UpdateRequest where
  initial :=
    { table := "", key := [], update := "", condition := none, bindings := .empty,
      report := .none }
  members :=
    ["TableName", "Key", "UpdateExpression", "ConditionExpression"] ++ tableMembers ++
      reportMembers
  required := ["TableName", "Key", "UpdateExpression"]
  lacking := tableMembers
  set name d r :=
    match name with
    | "TableName" => (Descriptor.stringOfDocument d).map fun table => { r with table }
    | "Key" => (Item.ofDocument d).map fun key => { r with key }
    | "UpdateExpression" => (Descriptor.stringOfDocument d).map fun update => { r with update }
    | "ConditionExpression" => (optionalString d).map fun condition => { r with condition }
    | "ExpressionAttributeNames" =>
      (namesOfDocument d).map fun names => { r with bindings := { r.bindings with names } }
    | "ExpressionAttributeValues" =>
      (valuesOfDocument d).map fun values => { r with bindings := { r.bindings with values } }
    | name => (r.report.set name d).map fun report => { r with report }

end UpdateRequest

namespace QueryRequest

/-- How a query is read. -/
def shape : RecordShape QueryRequest where
  initial :=
    { table := "", index := none, keyCondition := "", filter := none, projection := none,
      bindings := .empty, limit := none, forward := none, consistent := none,
      capacity := none }
  members :=
    ["TableName", "IndexName", "KeyConditionExpression", "FilterExpression",
        "ProjectionExpression"] ++ tableMembers ++
      ["Limit", "ScanIndexForward", "ConsistentRead", "ReturnConsumedCapacity"]
  required := ["TableName", "KeyConditionExpression"]
  lacking := tableMembers
  set name d r :=
    match name with
    | "TableName" => (Descriptor.stringOfDocument d).map fun table => { r with table }
    | "IndexName" => (optionalString d).map fun index => { r with index }
    | "KeyConditionExpression" =>
      (Descriptor.stringOfDocument d).map fun keyCondition => { r with keyCondition }
    | "FilterExpression" => (optionalString d).map fun filter => { r with filter }
    | "ProjectionExpression" => (optionalString d).map fun projection => { r with projection }
    | "ExpressionAttributeNames" =>
      (namesOfDocument d).map fun names => { r with bindings := { r.bindings with names } }
    | "ExpressionAttributeValues" =>
      (valuesOfDocument d).map fun values => { r with bindings := { r.bindings with values } }
    | "Limit" => (optionOfDocument wordOfDocument d).map fun limit => { r with limit }
    | "ScanIndexForward" =>
      (optionOfDocument boolOfDocument d).map fun forward => { r with forward }
    | "ConsistentRead" =>
      (optionOfDocument boolOfDocument d).map fun consistent => { r with consistent }
    | _ => (requestChoice CapacityReport.ofText? d).map fun capacity => { r with capacity }

end QueryRequest

namespace ScanRequest

/-- How a scan is read. -/
def shape : RecordShape ScanRequest where
  initial :=
    { table := "", index := none, filter := none, projection := none, bindings := .empty,
      limit := none, capacity := none }
  members :=
    ["TableName", "IndexName", "FilterExpression", "ProjectionExpression"] ++ tableMembers ++
      ["Limit", "ReturnConsumedCapacity"]
  required := ["TableName"]
  lacking := tableMembers
  set name d r :=
    match name with
    | "TableName" => (Descriptor.stringOfDocument d).map fun table => { r with table }
    | "IndexName" => (optionalString d).map fun index => { r with index }
    | "FilterExpression" => (optionalString d).map fun filter => { r with filter }
    | "ProjectionExpression" => (optionalString d).map fun projection => { r with projection }
    | "ExpressionAttributeNames" =>
      (namesOfDocument d).map fun names => { r with bindings := { r.bindings with names } }
    | "ExpressionAttributeValues" =>
      (valuesOfDocument d).map fun values => { r with bindings := { r.bindings with values } }
    | "Limit" => (optionOfDocument wordOfDocument d).map fun limit => { r with limit }
    | _ => (requestChoice CapacityReport.ofText? d).map fun capacity => { r with capacity }

end ScanRequest

namespace Operation

/-- The request of a given kind that a document without its `type` denotes. -/
def ofKind (kind : OperationKind) (d : Document) : Except Refusal Operation :=
  match kind with
  | .putItem => (PutRequest.shape.read d).map put
  | .getItem => (GetRequest.shape.read d).map get
  | .deleteItem => (DeleteRequest.shape.read d).map delete
  | .updateItem => (UpdateRequest.shape.read d).map update
  | .query => (QueryRequest.shape.read d).map query
  | .scan => (ScanRequest.shape.read d).map scan

/-- The kind that a `type` spells. -/
def kindOfDocument? : Document → Option OperationKind
  | .string s => OperationKind.ofText? s
  | _ => none

/-- The kind of a request and what is left of its document without it: the only member
`type` of an object, or the first item of a list. -/
def splitKind? : Document → Option (OperationKind × Document)
  | .object members closed =>
    match members.filter fun (name, _) => name = "type" with
    | [(_, d)] => do
      let kind ← kindOfDocument? d
      some (kind, .object (members.filter fun (name, _) => name != "type") closed)
    | _ => none
  | .array (d :: items) closed => do
    let kind ← kindOfDocument? d
    some (kind, .array items closed)
  | _ => none

/-- The request a document denotes. Only a whole document is looked into. -/
def ofDocument (d : Document) : Except Refusal Operation :=
  if d.isWhole then
    match splitKind? d with
    | some (kind, rest) => ofKind kind rest
    | none => .error .malformed
  else .error .malformed

/-- The request of a wire text. -/
def read (text : String) : Except Refusal Operation := do
  let (document, ended) := scanText text
  let operation ← ofDocument document
  Descriptor.ifClosed ended operation

end Operation

end ItemStore
