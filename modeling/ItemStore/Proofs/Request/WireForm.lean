import ItemStore.Proofs.Draft.Placeholders
import ItemStore.Proofs.Request.Record

/-
What the wire does to requests and responses.

It does to their descriptors what it does to a descriptor alone, and nothing else: every option
that is there is there again, and nothing appears that was not there. A request says what kind it
is of in a member of its own. That member is looked for among all others before anything else is
read, so it may stand anywhere.

A record is kept as its types demand: items and maps do not repeat a key, tables are in order, and
numbers have 32 bits. As with descriptors, the doubles in number sets have to be ones that are
read back from their text. Not all are: see `drifting`.

Writing and reading are `serialize` and `deserialize` of an operation and of a response.
-/
set_option autoImplicit false

namespace ItemStore

open Entries Json

/-! ## Wire forms -/

/-- Tables with their values in wire form. Names are strings and travel as they are. -/
def Bindings.wireForm (b : Bindings) : Bindings :=
  { b with values := b.values.map fun e => (e.1, e.2.wireForm) }

namespace Operation

/-- A request with all its descriptors in wire form. It changes what is inside the descriptors and
no other member, which is what there is to say about the wire. -/
def wireForm : Operation → Operation
  | put r => put { r with item := r.item.wireForm, bindings := r.bindings.wireForm }
  | get r => get { r with key := r.key.wireForm }
  | delete r => delete { r with key := r.key.wireForm, bindings := r.bindings.wireForm }
  | update r => update { r with key := r.key.wireForm, bindings := r.bindings.wireForm }
  | query r => query { r with bindings := r.bindings.wireForm }
  | scan r => scan { r with bindings := r.bindings.wireForm }

/-- The item or the key that a request has. There is none in a query or a scan. -/
def item? : Operation → Option Item
  | put r => some r.item
  | get r => some r.key
  | delete r => some r.key
  | update r => some r.key
  | _ => none

/-- All descriptors of a request. The item is among them as a map, so that what is asked of a
descriptor is asked of it as a whole. -/
def descriptors (o : Operation) : List Descriptor :=
  o.item?.toList.map .map ++ o.tables.values.map Prod.snd

/-- The limit of a request. It is the only number that a request has outside of its descriptors. -/
def limit? : Operation → Option Nat
  | query r => r.limit
  | scan r => r.limit
  | _ => none

/-- A request as its types demand it. A limit is bounded because it has 32 bits. -/
structure Kept (o : Operation) : Prop where
  distinct : ∀ d ∈ o.descriptors, d.distinctKeys = true
  names : Ascending o.tables.names
  values : Ascending o.tables.values
  limit : ∀ n, o.limit? = some n → n ≤ 4294967295

/-- The doubles in its number sets are read back. -/
def DoublesReadBack (o : Operation) : Prop := ∀ d ∈ o.descriptors, d.DoublesReadBack

end Operation

namespace Response

/-- A response with all its descriptors in wire form. -/
def wireForm (r : Response) : Response :=
  { r with
    item := r.item.map Item.wireForm
    items := r.items.map Item.wireForm
    attributes := r.attributes.map Item.wireForm
    lastKey := r.lastKey.map Item.wireForm }

/-- All items of a response. -/
def allItems (r : Response) : List Item :=
  r.item.toList ++ r.items ++ r.attributes.toList ++ r.lastKey.toList

/-- A response as its types demand it. Counts are bounded for the same reason as limits. -/
structure Kept (r : Response) : Prop where
  distinct : ∀ item ∈ r.allItems, (Descriptor.map item).distinctKeys = true
  count : ∀ n, r.count = some n → n ≤ 4294967295

/-- The doubles in its number sets are read back. -/
def DoublesReadBack (r : Response) : Prop :=
  ∀ item ∈ r.allItems, (Descriptor.map item).DoublesReadBack

end Response

/-! ## Members that several records have

Each lemma is about one kind of member. What the shape does with it is given by `put`, the record
as a function of what the member says. -/

namespace RecordShape

variable {α : Type} (shape : RecordShape α)

/-- A text that is always there. -/
theorem carries_text (name text : String) (r : α) (put : String → α)
    (hset : ∀ d, shape.set name d r = (Descriptor.stringOfDocument d).map put) :
    shape.Carries [name] [(name, .string text)] r (put text) :=
  carries_member (.string text) (hset (.string text))

/-- An item or a key, which is always there. -/
theorem carries_item (name : String) {item : Item}
    (hdistinct : (Descriptor.map item).distinctKeys = true)
    (hdoubles : (Descriptor.map item).DoublesReadBack) (r : α) (put : Item → α)
    (hset : ∀ d, shape.set name d r = (Item.ofDocument d).map put) :
    shape.Carries [name] [(name, Item.toDocument item)] r (put item.wireForm) := by
  refine carries_member (Item.wellWritten_toDocument hdoubles) ?_
  rw [hset, Item.ofDocument_toDocument hdistinct]
  rfl

/-- An item that may be absent, which is not the same as an empty one. -/
theorem carries_optionalItem (name : String) {item : Option Item}
    (hdistinct : ∀ i, item = some i → (Descriptor.map i).distinctKeys = true)
    (hdoubles : ∀ i, item = some i → (Descriptor.map i).DoublesReadBack) (put : Option Item → α)
    (hset : ∀ d, shape.set name d (put none) = (optionOfDocument Item.ofDocument d).map put) :
    shape.Carries [name] (optionalMember name Item.toDocument item) (put none)
      (put (item.map Item.wireForm)) := by
  refine carries_optional put (fun i hi => Item.wellWritten_toDocument (hdoubles i hi)) ?_ ?_
  · intro i hi
    rw [hset, optionOfDocument_of_ne_null (by simp [Item.toDocument]),
      Item.ofDocument_toDocument (hdistinct i hi), hi]
    rfl
  · rintro rfl
    rfl

/-- A member that is left out when it is absent and arrives as it is. -/
theorem carries_plain {β : Type} (name : String) {write : β → Document} {a : Option β}
    (put : Option β → α) {read : Document → Except Refusal (Option β)}
    (hset : ∀ d, shape.set name d (put none) = (read d).map put)
    (hwritten : ∀ b, a = some b → (write b).WellWritten)
    (hread : ∀ b, a = some b → read (write b) = .ok (some b)) :
    shape.Carries [name] (optionalMember name write a) (put none) (put a) := by
  refine carries_optional put hwritten ?_ id
  intro b hb
  rw [hset, hread b hb, hb]
  rfl

theorem carries_expression (name : String) (expression : Option String) (put : Option String → α)
    (hset : ∀ d, shape.set name d (put none) = (optionalString d).map put) :
    shape.Carries [name] (expressionMember name expression) (put none) (put expression) :=
  shape.carries_plain name put hset (fun text _ => .string text) fun _ _ => rfl

theorem carries_bool (name : String) (a : Option Bool) (put : Option Bool → α)
    (hset : ∀ d, shape.set name d (put none) = (optionOfDocument boolOfDocument d).map put) :
    shape.Carries [name] (optionalMember name .bool a) (put none) (put a) :=
  shape.carries_plain name put hset (fun b _ => .bool b) fun _ _ => rfl

theorem carries_word (name : String) {a : Option Nat} (h : ∀ n, a = some n → n ≤ 4294967295)
    (put : Option Nat → α)
    (hset : ∀ d, shape.set name d (put none) = (optionOfDocument wordOfDocument d).map put) :
    shape.Carries [name] (optionalMember name wordDocument a) (put none) (put a) := by
  refine shape.carries_plain name put hset (fun n hn => wellWritten_wordDocument (h n hn)) ?_
  intro n hn
  rw [optionOfDocument_of_ne_null (by simp [wordDocument]), wordOfDocument_wordDocument (h n hn)]
  rfl

theorem carries_capacity (capacity : Option CapacityReport) (put : Option CapacityReport → α)
    (hset : ∀ d, shape.set "ReturnConsumedCapacity" d (put none) =
      (requestChoice CapacityReport.ofText? d).map put) :
    shape.Carries ["ReturnConsumedCapacity"] (capacityMember capacity) (put none)
      (put capacity) :=
  shape.carries_plain "ReturnConsumedCapacity" put hset (fun c _ => .string c.text) fun c _ =>
    requestChoice_string c.ofText?_text

/-- What a write is asked to report. -/
theorem carries_report (report : WriteReport) (put : WriteReport → α)
    (hvalues : ∀ d r, shape.set "ReturnValues" d (put r) = (r.set "ReturnValues" d).map put)
    (hcapacity : ∀ d r, shape.set "ReturnConsumedCapacity" d (put r) =
      (r.set "ReturnConsumedCapacity" d).map put)
    (hcollection : ∀ d r, shape.set "ReturnItemCollectionMetrics" d (put r) =
      (r.set "ReturnItemCollectionMetrics" d).map put) :
    shape.Carries reportMembers report.toMembers (put .none) (put report) := by
  have hfirst := shape.carries_plain "ReturnValues" (a := report.values)
    (fun values => put ⟨values, none, none⟩) (fun d => (hvalues d _).trans map_map)
    (fun v _ => .string v.text) fun v _ => requestChoice_string v.ofText?_text
  have hsecond := shape.carries_capacity report.capacity
    (fun capacity => put ⟨report.values, capacity, none⟩) fun d => (hcapacity d _).trans map_map
  have hthird := shape.carries_plain "ReturnItemCollectionMetrics" (a := report.collection)
    (fun collection => put ⟨report.values, report.capacity, collection⟩)
    (fun d => (hcollection d _).trans map_map)
    (fun c _ => .string c.text) fun c _ => requestChoice_string c.ofText?_text
  exact (hfirst.append hsecond).append hthird

/-- A table of names. -/
theorem carries_names {names : List (String × String)} (h : Ascending names)
    (put : List (String × String) → α)
    (hset : ∀ d, shape.set "ExpressionAttributeNames" d (put []) = (namesOfDocument d).map put) :
    shape.Carries ["ExpressionAttributeNames"]
      (tableMember "ExpressionAttributeNames" .string names) (put []) (put names) := by
  refine carries_table put (fun e _ => .string e.2) ?_ id
  rw [hset, namesOfDocument_record h]
  rfl

/-- A table of values. -/
theorem carries_values {values : List (String × Descriptor)} (h : Ascending values)
    (hdistinct : ∀ e ∈ values, e.2.distinctKeys = true)
    (hdoubles : ∀ e ∈ values, e.2.DoublesReadBack) (put : List (String × Descriptor) → α)
    (hset : ∀ d, shape.set "ExpressionAttributeValues" d (put []) = (valuesOfDocument d).map put) :
    shape.Carries ["ExpressionAttributeValues"]
      (tableMember "ExpressionAttributeValues" Descriptor.toDocument values) (put [])
      (put (values.map fun e => (e.1, e.2.wireForm))) := by
  have hkept : Ascending (values.map fun e => (e.1, e.2.wireForm)) := by
    rw [Ascending, keys, List.map_map]
    exact h
  have hmembers := Descriptor.ofMembers_eq fun e he =>
    Descriptor.ofDocument_toDocument (hdistinct e he)
  have hread : valuesOfDocument (.record (values.map fun e => (e.1, e.2.toDocument))) =
      .ok (values.map fun e => (e.1, e.2.wireForm)) := by
    refine bind_eq_ok.2 ⟨_, hmembers, ?_⟩
    rw [ofListSorted_eq_self hkept]
    rfl
  refine carries_table put (fun e he => Descriptor.wellWritten_toDocument (hdoubles e he)) ?_ ?_
  · rw [hset, hread]
    rfl
  · rintro rfl
    rfl

end RecordShape

/-! ## The six requests -/

section Requests

variable {o : Operation}

theorem Operation.map_mem_descriptors {item : Item} (h : o.item? = some item) :
    Descriptor.map item ∈ o.descriptors := by
  rw [descriptors, h]
  exact List.mem_append_left _ (List.mem_singleton_self _)

theorem Operation.value_mem_descriptors {e : String × Descriptor} (h : e ∈ o.tables.values) :
    e.2 ∈ o.descriptors :=
  List.mem_append_right _ (List.mem_map_of_mem h)

theorem Operation.Kept.distinct_item (h : o.Kept) {item : Item} (hitem : o.item? = some item) :
    (Descriptor.map item).distinctKeys = true :=
  h.distinct _ (map_mem_descriptors hitem)

theorem Operation.DoublesReadBack.of_item (h : o.DoublesReadBack) {item : Item}
    (hitem : o.item? = some item) : (Descriptor.map item).DoublesReadBack :=
  h _ (map_mem_descriptors hitem)

/-- The tables of a request. -/
theorem Operation.Kept.carries_tables (h : o.Kept) (hdoubles : o.DoublesReadBack) {α : Type}
    (shape : RecordShape α) (put : Bindings → α)
    (hnames : ∀ d b, shape.set "ExpressionAttributeNames" d (put b) =
      (namesOfDocument d).map fun names => put { b with names })
    (hvalues : ∀ d b, shape.set "ExpressionAttributeValues" d (put b) =
      (valuesOfDocument d).map fun values => put { b with values }) :
    shape.Carries tableMembers o.tables.toMembers (put .empty) (put o.tables.wireForm) := by
  have hfirst := shape.carries_names h.names (fun names => put ⟨names, []⟩) fun d => hnames d _
  have hsecond := shape.carries_values h.values
    (fun e he => h.distinct _ (Operation.value_mem_descriptors he))
    (fun e he => hdoubles _ (Operation.value_mem_descriptors he))
    (fun values => put ⟨o.tables.names, values⟩) fun d => hvalues d _
  exact hfirst.append hsecond

theorem PutRequest.carries {r : PutRequest} (h : (Operation.put r).Kept)
    (hdoubles : (Operation.put r).DoublesReadBack) :
    shape.Carries shape.members (Operation.put r).toMembers shape.initial
      { r with item := r.item.wireForm, bindings := r.bindings.wireForm } := by
  have htable := shape.carries_text "TableName" r.table shape.initial
    (fun table => ⟨table, [], none, .empty, .none⟩) fun _ => rfl
  have hitem := shape.carries_item "Item" (h.distinct_item rfl) (hdoubles.of_item rfl)
    ⟨r.table, [], none, .empty, .none⟩ (fun item => ⟨r.table, item, none, .empty, .none⟩)
    fun _ => rfl
  have hcondition := shape.carries_expression "ConditionExpression" r.condition
    (fun condition => ⟨r.table, r.item.wireForm, condition, .empty, .none⟩) fun _ => rfl
  have htables := h.carries_tables hdoubles shape
    (fun b => ⟨r.table, r.item.wireForm, r.condition, b, .none⟩) (fun _ _ => rfl) fun _ _ => rfl
  have hreport := shape.carries_report r.report
    (fun report => ⟨r.table, r.item.wireForm, r.condition, r.bindings.wireForm, report⟩)
    (fun _ _ => rfl) (fun _ _ => rfl) fun _ _ => rfl
  exact (((htable.append hitem).append hcondition).append htables).append hreport

theorem GetRequest.carries {r : GetRequest} (h : (Operation.get r).Kept)
    (hdoubles : (Operation.get r).DoublesReadBack) :
    shape.Carries shape.members (Operation.get r).toMembers shape.initial
      { r with key := r.key.wireForm } := by
  have htable := shape.carries_text "TableName" r.table shape.initial
    (fun table => ⟨table, [], none, [], none, none⟩) fun _ => rfl
  have hkey := shape.carries_item "Key" (h.distinct_item rfl) (hdoubles.of_item rfl)
    ⟨r.table, [], none, [], none, none⟩ (fun key => ⟨r.table, key, none, [], none, none⟩)
    fun _ => rfl
  have hprojection := shape.carries_expression "ProjectionExpression" r.projection
    (fun projection => ⟨r.table, r.key.wireForm, projection, [], none, none⟩) fun _ => rfl
  have hnames := shape.carries_names h.names
    (fun names => ⟨r.table, r.key.wireForm, r.projection, names, none, none⟩) fun _ => rfl
  have hconsistent := shape.carries_bool "ConsistentRead" r.consistent
    (fun consistent => ⟨r.table, r.key.wireForm, r.projection, r.names, consistent, none⟩)
    fun _ => rfl
  have hcapacity := shape.carries_capacity r.capacity
    (fun capacity => ⟨r.table, r.key.wireForm, r.projection, r.names, r.consistent, capacity⟩)
    fun _ => rfl
  exact ((((htable.append hkey).append hprojection).append hnames).append hconsistent).append
    hcapacity

theorem DeleteRequest.carries {r : DeleteRequest} (h : (Operation.delete r).Kept)
    (hdoubles : (Operation.delete r).DoublesReadBack) :
    shape.Carries shape.members (Operation.delete r).toMembers shape.initial
      { r with key := r.key.wireForm, bindings := r.bindings.wireForm } := by
  have htable := shape.carries_text "TableName" r.table shape.initial
    (fun table => ⟨table, [], none, .empty, .none⟩) fun _ => rfl
  have hkey := shape.carries_item "Key" (h.distinct_item rfl) (hdoubles.of_item rfl)
    ⟨r.table, [], none, .empty, .none⟩ (fun key => ⟨r.table, key, none, .empty, .none⟩)
    fun _ => rfl
  have hcondition := shape.carries_expression "ConditionExpression" r.condition
    (fun condition => ⟨r.table, r.key.wireForm, condition, .empty, .none⟩) fun _ => rfl
  have htables := h.carries_tables hdoubles shape
    (fun b => ⟨r.table, r.key.wireForm, r.condition, b, .none⟩) (fun _ _ => rfl) fun _ _ => rfl
  have hreport := shape.carries_report r.report
    (fun report => ⟨r.table, r.key.wireForm, r.condition, r.bindings.wireForm, report⟩)
    (fun _ _ => rfl) (fun _ _ => rfl) fun _ _ => rfl
  exact (((htable.append hkey).append hcondition).append htables).append hreport

theorem UpdateRequest.carries {r : UpdateRequest} (h : (Operation.update r).Kept)
    (hdoubles : (Operation.update r).DoublesReadBack) :
    shape.Carries shape.members (Operation.update r).toMembers shape.initial
      { r with key := r.key.wireForm, bindings := r.bindings.wireForm } := by
  have htable := shape.carries_text "TableName" r.table shape.initial
    (fun table => ⟨table, [], "", none, .empty, .none⟩) fun _ => rfl
  have hkey := shape.carries_item "Key" (h.distinct_item rfl) (hdoubles.of_item rfl)
    ⟨r.table, [], "", none, .empty, .none⟩ (fun key => ⟨r.table, key, "", none, .empty, .none⟩)
    fun _ => rfl
  have hupdate := shape.carries_text "UpdateExpression" r.update
    ⟨r.table, r.key.wireForm, "", none, .empty, .none⟩
    (fun update => ⟨r.table, r.key.wireForm, update, none, .empty, .none⟩) fun _ => rfl
  have hcondition := shape.carries_expression "ConditionExpression" r.condition
    (fun condition => ⟨r.table, r.key.wireForm, r.update, condition, .empty, .none⟩) fun _ => rfl
  have htables := h.carries_tables hdoubles shape
    (fun b => ⟨r.table, r.key.wireForm, r.update, r.condition, b, .none⟩) (fun _ _ => rfl)
    fun _ _ => rfl
  have hreport := shape.carries_report r.report
    (fun report => ⟨r.table, r.key.wireForm, r.update, r.condition, r.bindings.wireForm, report⟩)
    (fun _ _ => rfl) (fun _ _ => rfl) fun _ _ => rfl
  exact ((((htable.append hkey).append hupdate).append hcondition).append htables).append hreport

theorem QueryRequest.carries {r : QueryRequest} (h : (Operation.query r).Kept)
    (hdoubles : (Operation.query r).DoublesReadBack) :
    shape.Carries shape.members (Operation.query r).toMembers shape.initial
      { r with bindings := r.bindings.wireForm } := by
  have htable := shape.carries_text "TableName" r.table shape.initial
    (fun table => { shape.initial with table }) fun _ => rfl
  have hindex := shape.carries_expression "IndexName" r.index
    (fun index => { shape.initial with table := r.table, index }) fun _ => rfl
  have hkey := shape.carries_text "KeyConditionExpression" r.keyCondition
    { shape.initial with table := r.table, index := r.index }
    (fun keyCondition => { shape.initial with table := r.table, index := r.index, keyCondition })
    fun _ => rfl
  have hfilter := shape.carries_expression "FilterExpression" r.filter
    (fun filter =>
      ⟨r.table, r.index, r.keyCondition, filter, none, .empty, none, none, none, none⟩)
    fun _ => rfl
  have hprojection := shape.carries_expression "ProjectionExpression" r.projection
    (fun projection =>
      ⟨r.table, r.index, r.keyCondition, r.filter, projection, .empty, none, none, none, none⟩)
    fun _ => rfl
  have htables := h.carries_tables hdoubles shape
    (fun b =>
      ⟨r.table, r.index, r.keyCondition, r.filter, r.projection, b, none, none, none, none⟩)
    (fun _ _ => rfl) fun _ _ => rfl
  -- what is left are the options behind the tables
  have hlimit := shape.carries_word "Limit" h.limit
    (fun limit =>
      { r with bindings := r.bindings.wireForm, limit, forward := none, consistent := none,
               capacity := none })
    fun _ => rfl
  have hforward := shape.carries_bool "ScanIndexForward" r.forward
    (fun forward =>
      { r with bindings := r.bindings.wireForm, forward, consistent := none, capacity := none })
    fun _ => rfl
  have hconsistent := shape.carries_bool "ConsistentRead" r.consistent
    (fun consistent => { r with bindings := r.bindings.wireForm, consistent, capacity := none })
    fun _ => rfl
  have hcapacity := shape.carries_capacity r.capacity
    (fun capacity => { r with bindings := r.bindings.wireForm, capacity }) fun _ => rfl
  exact ((((((((htable.append hindex).append hkey).append hfilter).append hprojection).append
    htables).append hlimit).append hforward).append hconsistent).append hcapacity

theorem ScanRequest.carries {r : ScanRequest} (h : (Operation.scan r).Kept)
    (hdoubles : (Operation.scan r).DoublesReadBack) :
    shape.Carries shape.members (Operation.scan r).toMembers shape.initial
      { r with bindings := r.bindings.wireForm } := by
  have htable := shape.carries_text "TableName" r.table shape.initial
    (fun table => { shape.initial with table }) fun _ => rfl
  have hindex := shape.carries_expression "IndexName" r.index
    (fun index => { shape.initial with table := r.table, index }) fun _ => rfl
  have hfilter := shape.carries_expression "FilterExpression" r.filter
    (fun filter => ⟨r.table, r.index, filter, none, .empty, none, none⟩) fun _ => rfl
  have hprojection := shape.carries_expression "ProjectionExpression" r.projection
    (fun projection => ⟨r.table, r.index, r.filter, projection, .empty, none, none⟩) fun _ => rfl
  have htables := h.carries_tables hdoubles shape
    (fun b => ⟨r.table, r.index, r.filter, r.projection, b, none, none⟩) (fun _ _ => rfl)
    fun _ _ => rfl
  have hlimit := shape.carries_word "Limit" h.limit
    (fun limit => { r with bindings := r.bindings.wireForm, limit, capacity := none }) fun _ => rfl
  have hcapacity := shape.carries_capacity r.capacity
    (fun capacity => { r with bindings := r.bindings.wireForm, capacity }) fun _ => rfl
  exact (((((htable.append hindex).append hfilter).append hprojection).append htables).append
    hlimit).append hcapacity

/-! ## Any request -/

/-- The members that requests of a kind have, the kind itself apart. They are read from the shapes
that the reader uses, so they are not listed twice. -/
def OperationKind.members : OperationKind → List String
  | putItem => PutRequest.shape.members
  | getItem => GetRequest.shape.members
  | deleteItem => DeleteRequest.shape.members
  | updateItem => UpdateRequest.shape.members
  | query => QueryRequest.shape.members
  | scan => ScanRequest.shape.members

/-- The members that requests of a kind have to have. -/
def OperationKind.required : OperationKind → List String
  | putItem => PutRequest.shape.required
  | getItem => GetRequest.shape.required
  | deleteItem => DeleteRequest.shape.required
  | updateItem => UpdateRequest.shape.required
  | query => QueryRequest.shape.required
  | scan => ScanRequest.shape.required

theorem OperationKind.type_notMem_members (kind : OperationKind) : "type" ∉ kind.members := by
  cases kind <;> decide

namespace Operation

/-- A request has the members that it has to have. -/
theorem required_subset (o : Operation) : o.kind.required ⊆ keys o.toMembers := by
  cases o with
  | put r => simp [OperationKind.required, kind, PutRequest.shape, toMembers, keys]
  | get r => simp [OperationKind.required, kind, GetRequest.shape, toMembers, keys]
  | delete r => simp [OperationKind.required, kind, DeleteRequest.shape, toMembers, keys]
  | update r => simp [OperationKind.required, kind, UpdateRequest.shape, toMembers, keys]
  | query r => simp [OperationKind.required, kind, QueryRequest.shape, toMembers, keys]
  | scan r => simp [OperationKind.required, kind, ScanRequest.shape, toMembers, keys]

/-- The members of a request are among those of its kind, in their order, and can be written. -/
theorem Kept.toMembers_spec (h : o.Kept) (hdoubles : o.DoublesReadBack) :
    (keys o.toMembers).Sublist o.kind.members ∧ ∀ m ∈ o.toMembers, m.2.WellWritten := by
  cases o with
  | put r => exact (PutRequest.carries h hdoubles).named_written
  | get r => exact (GetRequest.carries h hdoubles).named_written
  | delete r => exact (DeleteRequest.carries h hdoubles).named_written
  | update r => exact (UpdateRequest.carries h hdoubles).named_written
  | query r => exact (QueryRequest.carries h hdoubles).named_written
  | scan r => exact (ScanRequest.carries h hdoubles).named_written

/-- An object whose known members are those of a request denotes the request in wire form. -/
theorem Kept.ofKind_record (h : o.Kept) (hdoubles : o.DoublesReadBack)
    {all : List (String × Document)}
    (hall : (all.filter fun m => m.1 ∈ o.kind.members) = o.toMembers) :
    ofKind o.kind (.record all) = .ok o.wireForm := by
  have hrequired := o.required_subset
  cases o with
  | put r =>
    have hread := (PutRequest.carries h hdoubles).read_record (by decide) hrequired hall
    exact map_eq_ok.2 ⟨_, hread, rfl⟩
  | get r =>
    have hread := (GetRequest.carries h hdoubles).read_record (by decide) hrequired hall
    exact map_eq_ok.2 ⟨_, hread, rfl⟩
  | delete r =>
    have hread := (DeleteRequest.carries h hdoubles).read_record (by decide) hrequired hall
    exact map_eq_ok.2 ⟨_, hread, rfl⟩
  | update r =>
    have hread := (UpdateRequest.carries h hdoubles).read_record (by decide) hrequired hall
    exact map_eq_ok.2 ⟨_, hread, rfl⟩
  | query r =>
    have hread := (QueryRequest.carries h hdoubles).read_record (by decide) hrequired hall
    exact map_eq_ok.2 ⟨_, hread, rfl⟩
  | scan r =>
    have hread := (ScanRequest.carries h hdoubles).read_record (by decide) hrequired hall
    exact map_eq_ok.2 ⟨_, hread, rfl⟩

/-- The kind is found wherever it stands, and taken out. -/
theorem splitKind?_record {kind : OperationKind} {all : List (String × Document)}
    (htype : (all.filter fun m => m.1 = "type") = [("type", .string kind.text)]) :
    splitKind? (.record all) = some (kind, .record (all.filter fun m => m.1 != "type")) := by
  unfold splitKind?
  dsimp only
  split
  · next name d hfound =>
    have hsame := htype.symm.trans hfound
    cases hsame
    rw [kindOfDocument?, OperationKind.ofText?_text]
    rfl
  · next hnone => exact absurd htype (hnone _ _)

/-- **Reading a request.** A text is read as the request if its document has the kind somewhere
and the members of the request in their order; what else is in it does not matter. It starts from
the parsed text, because how a text is spelled has no part in it. -/
theorem Kept.read_of_parse (h : o.Kept) (hdoubles : o.DoublesReadBack) {text : String}
    {all : List (String × Document)} (hparse : parse? text = some (.record all))
    (htype : (all.filter fun m => m.1 = "type") = [("type", .string o.kind.text)])
    (hmembers : (all.filter fun m => m.1 ∈ o.kind.members) = o.toMembers) :
    read text = .ok o.wireForm := by
  obtain ⟨hscan, hwhole⟩ := scanText_of_parse? hparse
  -- the kind is none of the members that are looked at then
  have hrest : ((all.filter fun m => m.1 != "type").filter fun m => m.1 ∈ o.kind.members) =
      o.toMembers := by
    rw [List.filter_filter, ← hmembers]
    refine List.filter_congr fun m _ => ?_
    by_cases hm : m.1 ∈ o.kind.members
    · have hne : m.1 ≠ "type" := by
        intro he
        exact o.kind.type_notMem_members (he ▸ hm)
      simp [hm, hne]
    · simp [hm]
  have hof : ofDocument (.record all) = .ok o.wireForm := by
    rw [ofDocument, if_pos hwhole, splitKind?_record htype]
    exact h.ofKind_record hdoubles hrest
  rw [read, hscan]
  exact bind_eq_ok.2 ⟨_, hof, rfl⟩

/-- What is written for a request is a text like that. -/
theorem Kept.read_eq_wireForm (h : o.Kept) (hdepth : o.toDocument.depth ≤ 127)
    (hdoubles : o.DoublesReadBack) : read o.wire = .ok o.wireForm := by
  obtain ⟨hnamed, hwritten⟩ := h.toMembers_spec hdoubles
  have hknown : ∀ m ∈ o.toMembers, m.1 ∈ o.kind.members :=
    fun m hm => hnamed.subset (List.mem_map_of_mem hm)
  have hwell : o.toDocument.WellWritten :=
    .record (List.forall_mem_cons.2 ⟨.string o.kind.text, hwritten⟩)
  refine h.read_of_parse hdoubles (parse?_render hwell hdepth) ?_ ?_
  · rw [List.filter_cons_of_pos (by simp), List.filter_eq_nil_iff.2]
    intro m hm htype
    exact o.kind.type_notMem_members (of_decide_eq_true htype ▸ hknown m hm)
  · rw [List.filter_cons_of_neg (by simpa using o.kind.type_notMem_members),
      List.filter_eq_self.2]
    exact fun m hm => decide_eq_true (hknown m hm)

end Operation

end Requests

/-! ## Responses -/

namespace Response

variable {r : Response}

/-- The items of a response. An empty list is left out and comes back as an empty list. -/
theorem carries_items {items : List Item}
    (hdistinct : ∀ item ∈ items, (Descriptor.map item).distinctKeys = true)
    (hdoubles : ∀ item ∈ items, (Descriptor.map item).DoublesReadBack) (put : List Item → Response)
    (hset : ∀ d, shape.set "Items" d (put []) =
      (Descriptor.arrayOfDocument Item.ofDocument d).map put) :
    shape.Carries ["Items"] (itemsMember items) (put []) (put (items.map Item.wireForm)) := by
  rw [itemsMember]
  by_cases hempty : items = []
  · subst hempty
    exact RecordShape.carries_nil "Items"
  · rw [if_neg (by simpa using hempty)]
    refine RecordShape.carries_member
      (.list_map fun item hitem => Item.wellWritten_toDocument (hdoubles item hitem)) ?_
    rw [hset, Descriptor.arrayOfDocument_list items fun item hitem =>
      Item.ofDocument_toDocument (hdistinct item hitem)]
    rfl

/-- The members of a response. A response has no kind, so its members are its document. -/
def toMembers (r : Response) : List (String × Document) :=
  optionalMember "Item" Item.toDocument r.item ++ itemsMember r.items ++
    optionalMember "Attributes" Item.toDocument r.attributes ++
    optionalMember "Count" wordDocument r.count ++
    optionalMember "LastEvaluatedKey" Item.toDocument r.lastKey

theorem carries (h : r.Kept) (hdoubles : r.DoublesReadBack) :
    shape.Carries shape.members r.toMembers shape.initial r.wireForm := by
  have hmem : ∀ item, (r.item = some item ∨ item ∈ r.items ∨ r.attributes = some item ∨
      r.lastKey = some item) → item ∈ r.allItems := by
    intro item hitem
    simp only [allItems, List.mem_append, Option.mem_toList]
    tauto
  have hdistinct := fun item hitem => h.distinct item (hmem item hitem)
  have hback := fun item hitem => hdoubles item (hmem item hitem)
  have hitem := shape.carries_optionalItem "Item" (fun i hi => hdistinct i (.inl hi))
    (fun i hi => hback i (.inl hi)) (fun item => ⟨item, [], none, none, none⟩) fun _ => rfl
  have hitems := carries_items (fun i hi => hdistinct i (.inr (.inl hi)))
    (fun i hi => hback i (.inr (.inl hi)))
    (fun items => ⟨r.item.map Item.wireForm, items, none, none, none⟩) fun _ => rfl
  have hattributes := shape.carries_optionalItem "Attributes"
    (fun i hi => hdistinct i (.inr (.inr (.inl hi)))) (fun i hi => hback i (.inr (.inr (.inl hi))))
    (fun attributes => { r.wireForm with attributes, count := none, lastKey := none }) fun _ => rfl
  have hcount := shape.carries_word "Count" h.count
    (fun count => { r.wireForm with count, lastKey := none }) fun _ => rfl
  have hlastKey := shape.carries_optionalItem "LastEvaluatedKey"
    (fun i hi => hdistinct i (.inr (.inr (.inr hi)))) (fun i hi => hback i (.inr (.inr (.inr hi))))
    (fun lastKey => { r.wireForm with lastKey }) fun _ => rfl
  exact (((hitem.append hitems).append hattributes).append hcount).append hlastKey

/-- What is written for a response is read as its wire form. -/
theorem Kept.read_eq_wireForm (h : r.Kept) (hdepth : r.toDocument.depth ≤ 127)
    (hdoubles : r.DoublesReadBack) : read r.wire = .ok r.wireForm := by
  have hcarries := carries h hdoubles
  have hknown : ∀ m ∈ r.toMembers, m.1 ∈ shape.members :=
    fun m hm => hcarries.named.subset (List.mem_map_of_mem hm)
  have hbelow : ∀ m ∈ r.toMembers, m.2.depth ≤ maxLevels - 1 := by
    intro m hm
    have hmember := Document.depth_le_depthOfMembers hm
    have hall : Document.depthOfMembers r.toMembers + 1 ≤ 127 := hdepth
    rw [maxLevels]
    omega
  -- all members are known, so nothing is skipped
  have hscan : scanRecordText (· ∈ shape.members) r.wire = (.record r.toMembers, true) :=
    scanRecordText_render (fun m hm => decide_eq_true (hknown m hm)) hcarries.written hbelow
  have hread : shape.read (.record r.toMembers) = .ok r.wireForm := by
    refine hcarries.read_record (by decide) (fun _ h => absurd h List.not_mem_nil) ?_
    rw [List.filter_eq_self]
    exact fun m hm => decide_eq_true (hknown m hm)
  rw [read, RecordShape.readText, hscan]
  exact bind_eq_ok.2 ⟨_, hread, rfl⟩

end Response

/-! ## Records of either sort -/

/-- **What travels arrives.** A request or a response whose document is nested no deeper than the
reader goes arrives in its wire form. A request does so from any well-formed text as well that has
its kind and, in their order, its members, wherever the kind stands and whatever else there is.
Requests and responses are told in one statement as their members are read by one rule. The depth
is asked for because the reader stops at it, and the doubles because one that is not read back
from its own text could not come back as it was. -/
theorem wire_keeps_records :
    (∀ o : Operation, o.Kept → o.toDocument.depth ≤ 127 → o.DoublesReadBack →
      Operation.read o.wire = .ok o.wireForm ∧
        ∀ (text : String) (all : List (String × Document)), parse? text = some (.record all) →
          (all.filter fun m => m.1 = "type") = [("type", .string o.kind.text)] →
          (all.filter fun m => m.1 ∈ o.kind.members) = o.toMembers →
          Operation.read text = .ok o.wireForm) ∧
      ∀ r : Response, r.Kept → r.toDocument.depth ≤ 127 → r.DoublesReadBack →
        Response.read r.wire = .ok r.wireForm := by
  refine ⟨fun o h hdepth hdoubles => ⟨h.read_eq_wireForm hdepth hdoubles, ?_⟩, ?_⟩
  · intro text all hparse htype hmembers
    exact h.read_of_parse hdoubles hparse htype hmembers
  · exact fun r h hdepth hdoubles => h.read_eq_wireForm hdepth hdoubles

/-- A query in which some options are there, though with nothing in them, and some are not. -/
def listing : Operation :=
  .query
    { table := "t", index := some "", keyCondition := "#k = :v", filter := none,
      projection := some "a",
      bindings := ⟨[("#k", "k")], [(":u", .map []), (":v", .numberSet ["1e2", "x"])]⟩,
      limit := some 0, forward := some false, consistent := none, capacity := some .total }

/-- The same query with its kind in the middle and members that nobody knows around it. -/
def listingAmongOthers : List (String × Document) :=
  ("Type", .string "Scan") :: listing.toMembers.take 2 ++
    ("type", .string "Query") :: ("seen", .list [.null, .bool true]) :: listing.toMembers.drop 2

/-- A response in which an item was found that is empty, and a list of items that has none. -/
def emptyFind : Response :=
  { item := some [], items := [], attributes := some [("a", .numberSet ["-0"])], count := some 0,
    lastKey := none }

theorem listing_arrives :
    (Operation.read listing.wire = .ok listing.wireForm ∧
        Operation.read (Document.record listingAmongOthers).render = .ok listing.wireForm) ∧
      Response.read emptyFind.wire = .ok emptyFind.wireForm := by
  have hkept : listing.Kept := by
    refine ⟨by decide, ascending_cons.2 ⟨by decide, ascending_nil⟩, ?_, ?_⟩
    · exact ascending_cons.2 ⟨by decide, ascending_cons.2 ⟨by decide, ascending_nil⟩⟩
    · rintro n ⟨⟩
      decide
  have hdoubles : listing.DoublesReadBack := by
    show ∀ d ∈ listing.descriptors, ∀ x ∈ d.doubles,
      Number.ofText? (Number.double x).text = some (.double x)
    decide +kernel
  have hfound : emptyFind.Kept := ⟨by decide, by rintro n ⟨⟩; decide⟩
  have hback : emptyFind.DoublesReadBack := by
    show ∀ item ∈ emptyFind.allItems, ∀ x ∈ (Descriptor.map item).doubles,
      Number.ofText? (Number.double x).text = some (.double x)
    decide +kernel
  have hquery := wire_keeps_records.1 listing hkept (by decide +kernel) hdoubles
  have hwritten := (hkept.toMembers_spec hdoubles).2
  have hwell : (Document.record listingAmongOthers).WellWritten := by
    refine .record (List.forall_mem_cons.2 ⟨.string "Scan", List.forall_mem_append.2
      ⟨fun m hm => hwritten m (List.mem_of_mem_take hm), List.forall_mem_cons.2
        ⟨.string "Query", List.forall_mem_cons.2 ⟨.list ?_, fun m hm =>
          hwritten m (List.mem_of_mem_drop hm)⟩⟩⟩⟩)
    exact List.forall_mem_cons.2 ⟨.null, List.forall_mem_singleton.2 (.bool true)⟩
  have hparse := parse?_render hwell (by decide +kernel)
  exact ⟨⟨hquery.1, hquery.2 _ listingAmongOthers hparse rfl rfl⟩,
    wire_keeps_records.2 emptyFind hfound (by decide +kernel) hback⟩

/-- A request to put an item with a double that is not read back from its shortest text. -/
def drifting : Operation :=
  .put
    { table := "t", item := [("a", .numberSet ["8e-32"])], condition := none, bindings := .empty,
      report := .none }

/-- What arrives is neither the request, in which the double has its shortest text, nor the wire
form, in which it has the text that was written: it is read as a neighbour every time. -/
theorem drifting_drifts : drifting.Kept ∧ drifting.toDocument.depth ≤ 127 ∧
    Operation.read drifting.wire ≠ .ok drifting ∧
    Operation.read drifting.wire ≠ .ok drifting.wireForm := by
  have harrives : ((Operation.read drifting.wire).map Operation.wire).toOption ∉
      [some drifting.wire, some drifting.wireForm.wire] := by decide +kernel
  rw [List.mem_pair, not_or] at harrives
  refine ⟨⟨by decide, ascending_nil, ascending_nil, fun n h => by cases h⟩, by decide +kernel,
    ?_, ?_⟩
  · intro h
    exact harrives.1 (congrArg (fun o => (o.map Operation.wire).toOption) h)
  · intro h
    exact harrives.2 (congrArg (fun o => (o.map Operation.wire).toOption) h)

end ItemStore
