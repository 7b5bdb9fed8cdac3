import ItemStore.Draft
import ItemStore.Expression.Projection
import ItemStore.Request
import ItemStore.Schema.Key
import ItemStore.Table

/-
Making requests of drafts.

Whatever a request needs is encoded and compiled with the schema of its entity, or
with the combined schema when it is about a table or an index as a whole. The first
fault ends it. All conditions of a request count their tests together, and all its
expressions share their tables.

Every builder has a `build` of its own, here one function for each draft. What they
share is in the helpers: `compile_condition`, `compile_projection`, `compile_key`.
-/
set_option autoImplicit false

namespace ItemStore

/-- Compiles a condition that may be absent. This is `compile_condition`. -/
def compileOptional (schema : Schema) (condition : Option Condition) (progress : Progress) :
    Except Error (Option String × Progress) :=
  match condition with
  | some c => do
    let (text, progress) ← c.compile schema progress
    .ok (some text, progress)
  | none => .ok (none, progress)

/-- Compiles the paths of a projection; without paths there is no projection. This is
`compile_projection`. -/
def compileSelection (schema : Schema) (paths : List Path) (b : Bindings) :
    Except Error (Option String × Bindings) :=
  if paths.isEmpty then .ok (none, b)
  else do
    let (text, b) ← compileProjection schema paths b
    .ok (some text, b)

/-- Encodes the key that a draft has to have. A draft without a key is refused before
its key is looked at; that the entity is known has been settled before. -/
def encodeDraftKey (entity : Schema) (key : Option Value) : Except Error Item :=
  match key with
  | some key => entity.encodeKey key
  | none => .error .missingKeyCondition

/-! ## Writing -/

/-- A test that an attribute differs from what a value has under its name. The path is
made of the name as it stands. A name with a dot in it makes a path of several segments,
which is another attribute. -/
def differs (v : Value) (name : String) : Except Error Condition :=
  match v.get? name with
  | some operand => .ok (.test ⟨name⟩ .ne (.single operand))
  | none => .error (.missingPrimaryKey name)

/-- The condition that no item with the key of the given one is replaced: every key
attribute differs. This is `key_differs`. With one key attribute it is a single test,
without a group around it. -/
def keyGuard (entity : Schema) (v : Value) : Except Error Condition := do
  let keys ← KeyNames.ofSchema entity
  let tests ← keys.names.mapM (differs v)
  match tests with
  | [test] => .ok test
  | tests => .ok (.group .and tests)

/-- The condition of a put: its own or the guard, but not both. That both are given is
found before the guard is made, and after the item has been encoded. -/
def PutDraft.effective (d : PutDraft) (entity : Schema) (v : Value) :
    Except Error (Option Condition) :=
  if d.guarded then
    match d.condition with
    | some _ => .error .conditionAlreadySet
    | none => (keyGuard entity v).map some
  else .ok d.condition

/-- Makes a request to put. The order of its steps is the order in which faults are
told: entity, item, condition and guard together, then compilation. -/
def PutDraft.build (t : Table) (d : PutDraft) : Except Error PutRequest := do
  let entity ← t.entity d.entity
  let v := d.item.getD (.map [])
  let item ← entity.encodeItem v
  let condition ← d.effective entity v
  let (condition, progress) ← compileOptional entity condition .start
  .ok { table := t.name, item, condition, bindings := progress.bindings, report := d.report }

/-- Makes a request to delete. Entity, key and condition are settled in this order. -/
def DeleteDraft.build (t : Table) (d : DeleteDraft) : Except Error DeleteRequest := do
  let entity ← t.entity d.entity
  let key ← encodeDraftKey entity d.key
  let (condition, progress) ← compileOptional entity d.condition .start
  .ok { table := t.name, key, condition, bindings := progress.bindings, report := d.report }

/-- Makes a request to update. The condition goes into the tables of the update. The
value tokens of actions end in `u` and a number, those of tests in a number, so the two
never meet. -/
def UpdateDraft.build (t : Table) (d : UpdateDraft) : Except Error UpdateRequest := do
  let entity ← t.entity d.entity
  let key ← encodeDraftKey entity d.key
  let update ← compileUpdate entity d.actions
  -- tests are counted from the start, since the actions have numbers of their own
  let (condition, progress) ←
    compileOptional entity d.condition { position := 0, bindings := update.bindings }
  .ok
    { table := t.name, key, update := update.expression, condition,
      bindings := progress.bindings, report := d.report }

/-! ## Reading -/

/-- Makes a request to get. Only the names of the tables go along, since a projection
binds no values. -/
def GetDraft.build (t : Table) (d : GetDraft) : Except Error GetRequest := do
  let entity ← t.entity d.entity
  let key ← encodeDraftKey entity d.key
  let (projection, b) ← compileSelection entity d.projection .empty
  .ok
    { table := t.name, key, projection, names := b.names, consistent := d.consistent,
      capacity := d.capacity }

/-- Whether a path is a key attribute itself. A path below a key attribute is not one. -/
def KeyNames.isKeyPath (keys : KeyNames) (p : Path) : Bool := p.isTopLevel && keys.has p.root

/-- A key condition may test key attributes only, and a filter anything else. This is
`check_key_paths`. The key condition is held to whole attributes, the filter to what its
paths start from. Both only know the one partition key and the one sort key that
`KeyNames.ofSchema` finds, also where a combined schema has more. -/
def checkQueryPaths (schema : Schema) (keyCondition : Condition) (filter : Option Condition) :
    Except Error Unit := do
  let keys ← KeyNames.ofSchema schema
  match keyCondition.paths.find? fun p => !keys.isKeyPath p with
  | some p => .error (.invalidCondition (.notAKeyAttribute p.text))
  | none =>
    match ((filter.map Condition.paths).getD []).find? fun p => keys.has p.root with
    | some p => .error (.invalidCondition (.keyInFilter p.text))
    | none => .ok ()

/-- Makes a query. A missing key condition is told before anything about the schema of
the keys. -/
def QueryDraft.build (t : Table) (d : QueryDraft) : Except Error QueryRequest := do
  let schema ← t.combined d.index
  match d.keyCondition with
  | none => .error .missingKeyCondition
  | some keyCondition => do
    checkQueryPaths schema keyCondition d.filter
    let (key, progress) ← keyCondition.compile schema .start
    -- the filter goes on with the count and the tables of the key condition
    let (filter, progress) ← compileOptional schema d.filter progress
    let (projection, bindings) ← compileSelection schema d.projection progress.bindings
    .ok
      { table := t.name, index := d.index, keyCondition := key, filter, projection, bindings,
        limit := d.limit, forward := d.forward, consistent := d.consistent,
        capacity := d.capacity }

/-- Makes a scan. -/
def ScanDraft.build (t : Table) (d : ScanDraft) : Except Error ScanRequest := do
  let schema ← t.combined d.index
  let (filter, progress) ← compileOptional schema d.filter .start
  let (projection, bindings) ← compileSelection schema d.projection progress.bindings
  .ok
    { table := t.name, index := d.index, filter, projection, bindings, limit := d.limit,
      capacity := d.capacity }

/-- Makes a request of a draft for a table. It is the one function that makes requests,
so a statement about it is about all of them. -/
def Draft.build (t : Table) : Draft → Except Error Operation
  | put d => (d.build t).map .put
  | get d => (d.build t).map .get
  | delete d => (d.build t).map .delete
  | update d => (d.build t).map .update
  | query d => (d.build t).map .query
  | scan d => (d.build t).map .scan

end ItemStore
