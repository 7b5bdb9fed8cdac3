import ItemStore.Memory.Shop
import ItemStore.Proofs.Memory.Frame
import ItemStore.Proofs.Schema.Decoding
import ItemStore.Proofs.Schema.Key

/-
What was put is what is got.

Between a put and a later get lie the codec, the keys, the texts that items are filed by and
whatever else was asked of the store in the meantime. Each of them has its own theory: an item
comes back in normal form, its key names it by what was stored of its key attributes, and drafts
that do not write a key leave alone what is filed under it. What is shown here is that they fit
together. The link is the pair of strings that an item has as its partition and sort key: a put
files its item by the pair that the value has (`StorageKey.eq_ofTexts`), so a draft that does
not write the pair spares the item, whatever its entity is.

What is put is built by `compile` of a put and filed by `storage_key`; what is got is found by
`storage_key` of a key and decoded by `execute_and_decode`.
-/
set_option autoImplicit false

namespace ItemStore

open Entries Memory

/-! ## What an item is made of -/

namespace Schema

/-- What the item has under a name was encoded by the field of the name from what the value has
under it. It goes through the schema, so it says nothing of keys that no field declares. -/
def Makes (s : Schema) (v : Value) (item : Item) : Prop :=
  ∀ name d, get? name item = some d →
    ∃ w node, v.get? name = some w ∧ s.field? name = some node ∧ node.encode w = .ok d

theorem makes_of_encodeItem {m : Modifiers} {fields : List (String × Schema)} {v : Value}
    {item : Item} (h : (map m fields).encodeItem v = .ok item) : (map m fields).Makes v item := by
  obtain ⟨entries, rfl, hfields⟩ := encodeItem_map_eq_ok.1 h
  intro name d hd
  obtain ⟨hdeclared, w, hw⟩ := mem_keys_of_encodeFields hfields (mem_keys_iff.2 ⟨d, hd⟩)
  obtain ⟨node, hnode⟩ := mem_keys_iff.1 hdeclared
  obtain ⟨d', hd', hencode⟩ := get?_of_encodeFields_of_get? hfields hnode hw
  rw [hd] at hd'
  cases hd'
  exact ⟨w, node, hw, hnode, encode_of_encodeAt hencode⟩

theorem makes_of_encodeNamed {s : Schema} {entries : List (String × Value)} {names : List String}
    {item : Item} (h : s.encodeNamed entries names = .ok item) : s.Makes (.map entries) item := by
  induction names generalizing item with
  | nil =>
    cases h
    intro name d hd
    cases hd
  | cons n names ih =>
    obtain ⟨w, node, d, rest, hw, hnode, hencode, hrest, rfl⟩ := encodeNamed_cons_eq_ok.1 h
    intro name d' hd'
    rw [get?] at hd'
    split at hd'
    · next he =>
      cases hd'
      subst he
      exact ⟨w, node, hw, hnode, hencode⟩
    · exact ih hrest name d' hd'

/-! ## Entities that are filed by strings -/

/-- An entity whose key attributes are the two that the store files items by, both strings. The
schemas of `shop_table` are such entities. -/
structure FiledByTexts (s : Schema) : Prop where
  declared : s.validate = .ok s
  names : KeyNames.ofSchema s = .ok { partition := partitionName, sort := some sortName }
  partition : s.field? partitionName = some (.partitionKey .none (.ofKind .string))
  sort : s.field? sortName = some (.sortKey .none (.ofKind .string))

theorem FiledByTexts.exists_fields {s : Schema} (hs : s.FiledByTexts) :
    ∃ m fields, s = .map m fields := by
  have hfield := hs.partition
  cases s with
  | map m fields => exact ⟨m, fields, rfl⟩
  | _ => cases hfield

/-- A key attribute that is declared as a string takes strings only. -/
theorem eq_string_of_encode {s : Schema}
    (hs : s = .partitionKey .none (.ofKind .string) ∨ s = .sortKey .none (.ofKind .string))
    {w : Value} {d : Descriptor} (h : s.encode w = .ok d) :
    ∃ text, w = .string text ∧ d = .string text := by
  rcases hs with rfl | rfl
  all_goals
    cases w with
    | string text =>
      cases h
      exact ⟨text, rfl, rfl⟩
    | _ => cases h

end Schema

/-- The value has the two strings that items are filed by. It is the counterpart on the side of
the application. -/
def Value.HasTexts (v : Value) (partition sort : String) : Prop :=
  v.get? partitionName = some (.string partition) ∧ v.get? sortName = some (.string sort)

namespace Memory

theorem StorageKey.ofItem_eq_ok {item : Item} {key : StorageKey} :
    ofItem item = .ok key ↔ ∃ partition sort, get? partitionName item = some partition ∧
      get? sortName item = some sort ∧
        key = { partition := partition.wire, sort := sort.wire } := by
  have hpart : ∀ (name : String) (text : String), keyPart item name = .ok text ↔
      ∃ d, get? name item = some d ∧ d.wire = text := by
    intro name text
    unfold keyPart
    cases get? name item <;> simp
  rw [ofItem, bind_eq_ok]
  simp only [bind_eq_ok, hpart]
  constructor
  · rintro ⟨_, ⟨partition, hpartition, rfl⟩, _, ⟨sort, hsort, rfl⟩, he⟩
    cases he
    exact ⟨partition, sort, hpartition, hsort, rfl⟩
  · rintro ⟨partition, sort, hpartition, hsort, rfl⟩
    exact ⟨_, ⟨partition, hpartition, rfl⟩, _, ⟨sort, hsort, rfl⟩, rfl⟩

/-- Only what items are filed by counts. -/
theorem StorageKey.ofItem_congr {item item' : Item}
    (hpartition : get? partitionName item = get? partitionName item')
    (hsort : get? sortName item = get? sortName item') : ofItem item = ofItem item' := by
  rw [ofItem, ofItem, keyPart, keyPart, keyPart, keyPart, hpartition, hsort]

/-- **An item is filed by the two strings of its value.** The strings are not given beforehand:
that the value has them follows from its being filed at all. -/
theorem StorageKey.eq_ofTexts {s : Schema} (hs : s.FiledByTexts) {v : Value} {item : Item}
    (hmade : s.Makes v item) {key : StorageKey} (h : ofItem item = .ok key) :
    ∃ partition sort, v.HasTexts partition sort ∧ key = ofTexts partition sort := by
  obtain ⟨p, q, hp, hq, rfl⟩ := ofItem_eq_ok.1 h
  obtain ⟨w, node, hw, hnode, hencode⟩ := hmade _ _ hp
  obtain ⟨w', node', hw', hnode', hencode'⟩ := hmade _ _ hq
  rw [hs.partition] at hnode
  rw [hs.sort] at hnode'
  cases hnode
  cases hnode'
  obtain ⟨partition, rfl, rfl⟩ := Schema.eq_string_of_encode (.inl rfl) hencode
  obtain ⟨sort, rfl, rfl⟩ := Schema.eq_string_of_encode (.inr rfl) hencode'
  exact ⟨partition, sort, ⟨hw, hw'⟩, rfl⟩

end Memory

/-! ## Drafts that write an item -/

/-- The value that says which stored item a draft writes. A put without an item is taken as one
with an empty item, as the builder does. -/
def Draft.written? : Draft → Option Value
  | put d => some (d.item.getD (.map []))
  | delete d => d.key
  | update d => d.key
  | _ => none

/-- The draft can be built for the table, and what is built puts, deletes or updates the item with
two given strings. It is said in terms of the application's values, so that what a draft may not
do can be told without looking into the store. -/
def Draft.Writes (t : Table) (d : Draft) (partition sort : String) : Prop :=
  (∃ operation, d.build t = .ok operation) ∧
    ∃ v, d.written? = some v ∧ v.HasTexts partition sort

/-- A table whose entities are all filed by strings. It quantifies over entities, since a draft
names one of them. -/
def Table.FiledByTexts (t : Table) : Prop := ∀ name s, t.entity name = .ok s → s.FiledByTexts

namespace Schema

theorem FiledByTexts.makes_of_encodeDraftKey {s : Schema} (hs : s.FiledByTexts)
    {key : Option Value} {item : Item} (h : encodeDraftKey s key = .ok item) :
    ∃ v, key = some v ∧ s.Makes v item := by
  cases key with
  | none => cases h
  | some v =>
    obtain ⟨entries, rfl, -, hencode⟩ := (encodeKey_eq_ok hs.names).1 h
    exact ⟨_, rfl, makes_of_encodeNamed hencode⟩

end Schema

/-- What a request writes was encoded: the item of a put as an item of its entity, the key of a
deletion or of an update as a key. -/
theorem Draft.exists_encoded {t : Table} {d : Draft} {operation : Operation}
    (h : d.build t = .ok operation) {item : Item} (hitem : operation.written? = some item) :
    ∃ name s, t.entity name = .ok s ∧
      ((∃ v, d.written? = some v ∧ s.encodeItem v = .ok item) ∨
        encodeDraftKey s d.written? = .ok item) := by
  cases d with
  | put d =>
    obtain ⟨r, hr, rfl⟩ := map_eq_ok.1 h
    obtain ⟨s, hentity, hr⟩ := bind_eq_ok.1 hr
    obtain ⟨encoded, hencode, hr⟩ := bind_eq_ok.1 hr
    obtain ⟨condition, -, hr⟩ := bind_eq_ok.1 hr
    obtain ⟨⟨text, progress⟩, -, he⟩ := bind_eq_ok.1 hr
    cases he
    cases hitem
    exact ⟨_, s, hentity, .inl ⟨_, rfl, hencode⟩⟩
  | delete d =>
    obtain ⟨r, hr, rfl⟩ := map_eq_ok.1 h
    obtain ⟨s, hentity, hr⟩ := bind_eq_ok.1 hr
    obtain ⟨key, hkey, hr⟩ := bind_eq_ok.1 hr
    obtain ⟨⟨text, progress⟩, -, he⟩ := bind_eq_ok.1 hr
    cases he
    cases hitem
    exact ⟨_, s, hentity, .inr hkey⟩
  | update d =>
    obtain ⟨r, hr, rfl⟩ := map_eq_ok.1 h
    obtain ⟨s, hentity, hr⟩ := bind_eq_ok.1 hr
    obtain ⟨key, hkey, hr⟩ := bind_eq_ok.1 hr
    obtain ⟨compiled, -, hr⟩ := bind_eq_ok.1 hr
    obtain ⟨⟨text, progress⟩, -, he⟩ := bind_eq_ok.1 hr
    cases he
    cases hitem
    exact ⟨_, s, hentity, .inr hkey⟩
  | get d =>
    obtain ⟨r, -, rfl⟩ := map_eq_ok.1 h
    cases hitem
  | query d =>
    obtain ⟨r, -, rfl⟩ := map_eq_ok.1 h
    cases hitem
  | scan d =>
    obtain ⟨r, -, rfl⟩ := map_eq_ok.1 h
    cases hitem

/-- What a request writes is made of what its draft writes. -/
theorem Table.FiledByTexts.exists_makes {t : Table} (ht : t.FiledByTexts) {d : Draft}
    {operation : Operation} (h : d.build t = .ok operation) {item : Item}
    (hitem : operation.written? = some item) :
    ∃ (s : Schema) (v : Value), s.FiledByTexts ∧ d.written? = some v ∧ s.Makes v item := by
  obtain ⟨name, s, hentity, hencoded⟩ := Draft.exists_encoded h hitem
  have hs := ht name s hentity
  rcases hencoded with ⟨v, hv, hencode⟩ | hkey
  · obtain ⟨m, fields, rfl⟩ := hs.exists_fields
    exact ⟨_, v, hs, hv, Schema.makes_of_encodeItem hencode⟩
  · obtain ⟨v, hv, hmade⟩ := hs.makes_of_encodeDraftKey hkey
    exact ⟨s, v, hs, hv, hmade⟩

/-- A draft that does not write the item with two strings spares what is filed by them. -/
theorem Table.FiledByTexts.spares {t : Table} (ht : t.FiledByTexts) {d : Draft}
    {partition sort : String} (h : ¬ d.Writes t partition sort) :
    Store.Spares (.ofTexts partition sort) t d := by
  intro operation hbuild item hitem hkey
  obtain ⟨s, v, hs, hv, hmade⟩ := ht.exists_makes hbuild hitem
  obtain ⟨partition', sort', htexts, he⟩ := StorageKey.eq_ofTexts hs hmade hkey
  obtain ⟨rfl, rfl⟩ := StorageKey.ofTexts_injective he
  exact h ⟨⟨operation, hbuild⟩, v, hv, htexts⟩

/-! ## A put and a get -/

namespace Memory

/-- A put that was carried out has filed the encoded item by the two strings of its value. -/
theorem filed_of_execute_put {t : Table} {s : Schema} (hs : s.FiledByTexts) {draft : PutDraft}
    (hentity : t.entity draft.entity = .ok s) {v : Value} (hitem : draft.item = some v)
    {store store' : Store} {response : Response}
    (h : (Draft.put draft).execute t Store.transport store = (.ok response, store')) :
    ∃ item partition sort, s.encodeItem v = .ok item ∧ v.HasTexts partition sort ∧
      StorageKey.ofItem item = .ok (.ofTexts partition sort) ∧
      get? (.ofTexts partition sort) store'.items = some item := by
  cases hbuild : (Draft.put draft).build t with
  | error e =>
    rw [Draft.execute_of_build_eq_error hbuild] at h
    cases h
  | ok operation =>
    rw [Draft.execute_of_build_eq_ok hbuild] at h
    obtain ⟨hanswer, rfl⟩ := Prod.mk.inj h
    obtain ⟨r, hr, rfl⟩ := map_eq_ok.1 hbuild
    obtain ⟨s', hentity', hr⟩ := bind_eq_ok.1 hr
    rw [hentity] at hentity'
    cases hentity'
    obtain ⟨item, hencode, hr⟩ := bind_eq_ok.1 hr
    obtain ⟨condition, -, hr⟩ := bind_eq_ok.1 hr
    obtain ⟨⟨text, progress⟩, -, he⟩ := bind_eq_ok.1 hr
    cases he
    rw [hitem, Option.getD_some] at hencode
    have hput := mapError_eq_ok.1 (mapError_eq_ok.1 hanswer)
    obtain ⟨key, hkey, hget⟩ := get?_put hput
    obtain ⟨m, fields, rfl⟩ := hs.exists_fields
    have hmade := Schema.makes_of_encodeItem hencode
    obtain ⟨partition, sort, htexts, rfl⟩ := StorageKey.eq_ofTexts hs hmade hkey
    exact ⟨item, partition, sort, hencode, htexts, hkey, hget⟩

/-- A get of what is filed by the key of a value returns it in normal form. -/
theorem executeAndDecode_get {t : Table} {s : Schema} (hs : s.FiledByTexts) {draft : GetDraft}
    (hentity : t.entity draft.entity = .ok s) {v key : Value} (hkey : draft.key = some key)
    (hkeyOf : KeyNames.IsKeyOf { partition := partitionName, sort := some sortName } key v)
    (hprojection : draft.projection = [])
    (hyears : ∀ d ∈ s.dates v, 0 ≤ d.year ∧ d.year ≤ 9999) {item : Item}
    (hencode : s.encodeItem v = .ok item) {partition sort : String}
    (htexts : v.HasTexts partition sort)
    (hfiled : StorageKey.ofItem item = .ok (.ofTexts partition sort)) {store : Store}
    (hget : get? (.ofTexts partition sort) store.items = some item) :
    (Draft.executeAndDecode t (.get draft) Store.transport store).1 =
      .ok (.one (some (s.norm v))) := by
  have hheld : KeyNames.HeldBy { partition := partitionName, sort := some sortName } v := by
    intro name hname
    rcases List.mem_pair.1 hname with rfl | rfl
    · exact Option.isSome_iff_exists.2 ⟨_, htexts.1⟩
    · exact Option.isSome_iff_exists.2 ⟨_, htexts.2⟩
  have haddress := (Schema.encodeKey_of_encodeItem hs.names hencode hheld hkeyOf).1
  -- without a projection nothing else can go wrong with the draft
  obtain ⟨r, hbuild, hr⟩ : ∃ r, GetDraft.build t draft = .ok r ∧
      r.key = restrict [partitionName, sortName] item := by
    have hkeyStep : encodeDraftKey s draft.key = .ok (restrict [partitionName, sortName] item) := by
      rw [hkey]
      exact haddress
    have hselection : compileSelection s draft.projection .empty = .ok (none, .empty) := by
      rw [hprojection]
      rfl
    exact ⟨_, bind_eq_ok.2 ⟨s, hentity, bind_eq_ok.2 ⟨_, hkeyStep,
      bind_eq_ok.2 ⟨_, hselection, rfl⟩⟩⟩, rfl⟩
  -- the key is filed as the item is
  have hfiledKey : StorageKey.ofItem r.key = .ok (.ofTexts partition sort) := by
    rw [hr, ← hfiled]
    exact StorageKey.ofItem_congr (get?_restrict (by simp)) (get?_restrict (by simp))
  have hdecode : s.decodeItem t.config.decodeMode item = .ok (s.norm v) := by
    obtain ⟨m, fields, rfl⟩ := hs.exists_fields
    exact Schema.decodeItem_of_encodeItem (Schema.repeatedName?_eq_none_of_validate hs.declared)
      hyears hencode _
  have hbuilt : (Draft.get draft).build t = .ok (.get r) := map_eq_ok.2 ⟨r, hbuild, rfl⟩
  have hanswer : (Store.transport (.get r) store).1 =
      .ok { Response.empty with item := some item } := by
    refine mapError_eq_ok.2 (map_eq_ok.2 ⟨.ofTexts partition sort, hfiledKey, ?_⟩)
    rw [hget]
  rw [Draft.executeAndDecode, Draft.execute_of_build_eq_ok hbuilt]
  dsimp only
  rw [hanswer]
  refine bind_eq_ok.2 ⟨_, rfl, bind_eq_ok.2 ⟨s, hentity, ?_⟩⟩
  exact map_eq_ok.2 ⟨some (s.norm v), map_eq_ok.2 ⟨_, hdecode, rfl⟩, rfl⟩

end Memory

/-! ## The shop -/

namespace Shop

/-- The schema of the table. It is that of `shop_table`, which the tests share. -/
def schema : TableSchema :=
  .mk [("users", .map .none userFields), ("orders", .map .none orderFields)]
    [("by_email", .mk [("users", .map .none emailFields)] [] (.map .none emailFields))]
    (.map .none (userFields ++
      [("total", number), ("items", .list .none (.map .none [("sku", text), ("qty", number)]))]))

/-- A table of the shop, in either decode mode. The mode decides about decoding only and so never
about what is stored. -/
def IsTable (t : Table) : Prop := ∃ mode, table mode = .ok t

theorem IsTable.schema_eq {t : Table} (ht : IsTable t) : t.schema = schema := by
  obtain ⟨mode, h⟩ := ht
  have hbuild : table mode = .ok { schema := schema, config := config mode } := rfl
  rw [hbuild] at h
  cases h
  rfl

/-- Users and orders are filed by strings. -/
theorem IsTable.filedByTexts {t : Table} (ht : IsTable t) : t.FiledByTexts := by
  intro name s h
  rw [Table.entity, ht.schema_eq, TableSchema.entity] at h
  -- what is declared is one of the two
  have hentity : (name, s) ∈ schema.entities := by
    cases hget : get? name schema.entities with
    | none =>
      rw [hget] at h
      cases h
    | some s' =>
      rw [hget] at h
      cases h
      exact mem_of_get? hget
  rcases List.mem_pair.1 hentity with he | he
  · cases he
    exact ⟨rfl, rfl, rfl, rfl⟩
  · cases he
    exact ⟨rfl, rfl, rfl, rfl⟩

/-- **What was put is got back.** Let a put of a value be executed by a store, in whatever state
that is. Then the value has two strings as its key, and after any further drafts none of which
puts, deletes or updates the item with these strings, a get by the key of the value returns the
value in normal form, in either decode mode. The further drafts are any, built or not, answered or
refused, with tables in any mode; they are only kept from the one item. Years are limited because
of the texts of dates, which have four digits. The result is the normal form, as this is what
decoding gives back of any value that was encoded. -/
theorem get_returns_put {t : Table} (ht : IsTable t) {draft : PutDraft} {s : Schema}
    (hentity : t.entity draft.entity = .ok s) {v : Value} (hitem : draft.item = some v)
    (hyears : ∀ d ∈ s.dates v, 0 ≤ d.year ∧ d.year ≤ 9999) {store store' : Store}
    {response : Response}
    (hput : (Draft.put draft).execute t Store.transport store = (.ok response, store')) :
    ∃ partition sort, v.HasTexts partition sort ∧
      ∀ steps : List (Table × Draft),
        (∀ step ∈ steps, IsTable step.1 ∧ ¬ step.2.Writes step.1 partition sort) →
        ∀ (t' : Table) (get : GetDraft) (key : Value), IsTable t' → get.entity = draft.entity →
          get.key = some key → KeyNames.IsKeyOf { partition := "pk", sort := some "sk" } key v →
          get.projection = [] →
          (Draft.executeAndDecode t' (.get get) Store.transport (store'.after steps)).1 =
            .ok (.one (some (s.norm v))) := by
  have hs : s.FiledByTexts := ht.filedByTexts _ _ hentity
  obtain ⟨item, partition, sort, hencode, htexts, hfiled, hget⟩ :=
    filed_of_execute_put hs hentity hitem hput
  refine ⟨partition, sort, htexts, ?_⟩
  intro steps hsteps t' get key ht' hsame hkey hkeyOf hprojection
  have hentity' : t'.entity get.entity = .ok s := by
    rw [hsame, ← hentity, Table.entity, Table.entity, ht'.schema_eq, ht.schema_eq]
  have hspared := Store.get?_after_of_spares
    (fun step hstep => (hsteps step hstep).1.filedByTexts.spares (hsteps step hstep).2) store'
  exact executeAndDecode_get hs hentity' hkey hkeyOf hprojection hyears hencode htexts hfiled
    (hspared.trans hget)

/-- The table in a given decode mode. -/
def tableIn (mode : DecodeMode) : Table := { schema := schema, config := config mode }

/-- A user with a text for the date of joining and with a key that is not declared. -/
def ada : Value :=
  .map
    [("sk", .string "profile"), ("pk", .string "ada"), ("name", .string "Ada"),
      ("email", .string "ada@x.org"), ("visits", .number 3), ("draft", .bool true),
      ("joined", .string "2024-02-29T12:00:00+01:00"), ("nickname", .null)]

/-- A put of the user, who must not be there yet. -/
def putAda : PutDraft := { PutDraft.start "users" with item := some ada, guarded := true }

/-- An order of the same user, an update that makes an item and then fails, a deletion and a
scan. -/
def meantime : List (Table × Draft) :=
  [(tableIn .strict,
      .put
        { PutDraft.start "orders" with
          item := some (.map [("pk", .string "ada"), ("sk", .string "order#1"),
            ("total", .number 5), ("items", .list [])]) }),
    (tableIn .lenient,
      .update
        { UpdateDraft.start "users" with
          key := some (.map [("pk", .string "bob"), ("sk", .string "profile")])
          actions := [⟨⟨"visits"⟩, .increment (.number 1)⟩] }),
    (tableIn .strict,
      .delete
        { DeleteDraft.start "orders" with
          key := some (.map [("pk", .string "ada"), ("sk", .string "order#2")]) }),
    (tableIn .strict, .scan .start)]

/-- The user is got back, with the date as a date and without the key that is not declared. -/
theorem ada_get_returns_put : ∃ response store',
    (Draft.put putAda).execute (tableIn .lenient) Store.transport .empty = (.ok response, store') ∧
    (Draft.executeAndDecode (tableIn .strict)
        (.get { GetDraft.start "users" with
          key := some (.map [("pk", .string "ada"), ("sk", .string "profile")]) })
        Store.transport (store'.after meantime)).1 =
      .ok (.one (some ((Schema.map .none userFields).norm ada))) ∧
    (Schema.map .none userFields).norm ada =
      .map
        [("pk", .string "ada"), ("sk", .string "profile"), ("name", .string "Ada"),
          ("email", .string "ada@x.org"), ("visits", .number 3),
          ("joined", .date ⟨1709204400, 0⟩), ("nickname", .null)] := by
  have hrun : (((Draft.put putAda).execute (tableIn .lenient) Store.transport .empty).1.toOption.map
      fun _ => ()) = some () := by
    decide +kernel
  have hyears : (((Schema.map .none userFields).dates ada).all fun d =>
      decide (0 ≤ d.year ∧ d.year ≤ 9999)) = true := by
    decide +kernel
  have hdate : Value.date? (.string "2024-02-29T12:00:00+01:00") = some ⟨1709204400, 0⟩ := by
    decide +kernel
  obtain ⟨response, hresponse, -⟩ := exists_ok_of_toOption_map hrun
  obtain ⟨partition, sort, htexts, hgot⟩ := get_returns_put (t := tableIn .lenient) ⟨.lenient, rfl⟩
    (s := .map .none userFields) rfl rfl
    (fun d hd => of_decide_eq_true (List.all_eq_true.1 hyears d hd)) (Prod.ext hresponse rfl)
  refine ⟨response, _, Prod.ext hresponse rfl, hgot meantime ?_ (tableIn .strict) _ _ ⟨.strict, rfl⟩
    rfl rfl ⟨_, rfl, fun name => ?_⟩ rfl, ?_⟩
  · have hpartition : some "ada" = some partition :=
      congrArg (fun w => w.bind Value.string?) htexts.1
    have hsort : some "profile" = some sort := congrArg (fun w => w.bind Value.string?) htexts.2
    cases hpartition
    cases hsort
    have htables : ∀ step ∈ meantime, IsTable step.1 := by
      simp only [meantime, List.forall_mem_cons]
      exact ⟨⟨_, rfl⟩, ⟨_, rfl⟩, ⟨_, rfl⟩, ⟨_, rfl⟩, fun _ h => absurd h List.not_mem_nil⟩
    -- every step names its item by other strings, or names none
    have hother : ∀ step ∈ meantime, (step.2.written?.bind fun v => v.get? partitionName).bind
        Value.string? ≠ some "ada" ∨ (step.2.written?.bind fun v => v.get? sortName).bind
          Value.string? ≠ some "profile" := by
      decide
    intro step hstep
    refine ⟨htables step hstep, ?_⟩
    rintro ⟨-, v, hv, hpartition, hsort⟩
    rcases hother step hstep with h | h
    · exact h (by rw [hv, Option.bind_some, hpartition]; rfl)
    · exact h (by rw [hv, Option.bind_some, hsort]; rfl)
  · by_cases hpk : name = "pk"
    · subst hpk
      rfl
    · by_cases hsk : name = "sk"
      · subst hsk
        rfl
      · simp [get?, KeyNames.names, Ne.symm hpk, Ne.symm hsk, hpk, hsk]
  · simp [userFields, keyFields, ada, Schema.norm, Schema.normFields, get?, text, number,
      Schema.ofKind, Value.normDate, hdate, Time.Instant.shown]

end Shop

end ItemStore
