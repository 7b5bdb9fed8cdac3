import ItemStore.Draft.Build
import ItemStore.Proofs.Schema.Descent
import ItemStore.Proofs.Schema.RoundTrip

/-
The key of an item and the item itself.

An item is encoded as a whole, field by field in the order of its declaration; a key is encoded
on its own, one attribute after the other, the partition key first. Both ask the same nodes, so
an attribute of the key comes to the same descriptor on either way, and what a request names an
item by is what was stored of the item's key attributes. Nothing here depends on what a key
attribute is declared as: dates, sets, maps and nullable attributes are encoded by their nodes
as they are elsewhere.

That names are looked up and not their places is what makes the order of the entries of a key
irrelevant. A key is therefore described by its look-ups (`IsKeyOf`).

Keys are made by `compile_key`, with the names that `KeyAttributes` finds.
-/
set_option autoImplicit false

namespace ItemStore

open Entries

/-! ## Restrictions -/

/-- The entries under some names, in the order of the names. -/
def Entries.restrict {κ α : Type} [DecidableEq κ] (names : List κ) (entries : List (κ × α)) :
    List (κ × α) :=
  names.filterMap fun name => (get? name entries).map fun a => (name, a)

/-- Entries are found in a restriction to names that they are under. -/
theorem Entries.get?_restrict {κ α : Type} [DecidableEq κ] {names : List κ}
    {entries : List (κ × α)} {name : κ} (h : name ∈ names) :
    get? name (restrict names entries) = get? name entries := by
  induction names with
  | nil => cases h
  | cons n names ih =>
    rw [restrict, List.filterMap_cons]
    by_cases hn : n = name
    · subst hn
      cases hget : get? n entries with
      | some a => rw [Option.map_some, get?, if_pos rfl]
      | none =>
        -- what is not there is not found further on either
        refine get?_eq_none_iff.2 fun hmem => ?_
        obtain ⟨e, he, rfl⟩ := List.mem_map.1 hmem
        obtain ⟨m, -, hm⟩ := List.mem_filterMap.1 he
        obtain ⟨a, ha, rfl⟩ := Option.map_eq_some_iff.1 hm
        rw [hget] at ha
        cases ha
    · have hrest := ih ((List.mem_cons.1 h).resolve_left (Ne.symm hn))
      cases get? n entries with
      | some a =>
        rw [Option.map_some, get?, if_neg hn]
        exact hrest
      | none => exact hrest

/-! ## Names of key attributes -/

namespace KeyNames

theorem has_iff {keys : KeyNames} {name : String} : keys.has name = true ↔ name ∈ keys.names := by
  obtain ⟨partition, sort⟩ := keys
  rw [has, names, Bool.or_eq_true, decide_eq_true_iff, decide_eq_true_iff, List.mem_cons,
    Option.mem_toList, eq_comm]

/-- Every key attribute is declared. -/
theorem exists_field? {entity : Schema} {keys : KeyNames} (hkeys : ofSchema entity = .ok keys)
    {name : String} (hname : name ∈ keys.names) : ∃ node, entity.field? name = some node := by
  -- a field that was found by its mark can be looked up by its name
  have hfound : ∀ (fields : List (String × Schema)) (p : Schema → Bool) (n : String),
      (fields.findSome? fun f => if p f.2 then some f.1 else none) = some n →
      ∃ node, get? n fields = some node := by
    intro fields p n h
    obtain ⟨f, hf, hn⟩ := List.exists_of_findSome?_eq_some h
    rw [Option.ite_none_right_eq_some, Option.some.injEq] at hn
    rw [← mem_keys_iff, ← hn.2]
    exact List.mem_map_of_mem hf
  have hfields : ∀ node, get? name (entity.fields?.getD []) = some node →
      entity.field? name = some node := by
    intro node h
    rw [Schema.field?]
    cases hfields : entity.fields? with
    | none => rw [hfields] at h; cases h
    | some fields =>
      rw [hfields] at h
      exact h
  unfold ofSchema at hkeys
  split at hkeys
  · next partition hpartition =>
    cases hkeys
    rcases List.mem_cons.1 hname with rfl | hsort
    · obtain ⟨node, hnode⟩ := hfound _ Schema.isPartitionKey _ hpartition
      exact ⟨node, hfields node hnode⟩
    · obtain ⟨node, hnode⟩ := hfound _ Schema.isSortKey _ (Option.mem_toList.1 hsort)
      exact ⟨node, hfields node hnode⟩
  · cases hkeys

/-- The value has all key attributes. Whether the attributes can be encoded is another matter. -/
def HeldBy (keys : KeyNames) (v : Value) : Prop := ∀ name ∈ keys.names, (v.get? name).isSome

/-- A map of the key attributes of a value and of nothing else. The order of the entries is left
open. -/
def IsKeyOf (keys : KeyNames) (key v : Value) : Prop :=
  ∃ entries, key = .map entries ∧
    ∀ name, get? name entries = if name ∈ keys.names then v.get? name else none

/-- A map with exactly the key attributes, each of which its node encodes. It does not mention an
item that the key would belong to. -/
def Fits (keys : KeyNames) (entity : Schema) (key : Value) : Prop :=
  ∃ entries, key = .map entries ∧ (∀ name, name ∈ Entries.keys entries ↔ name ∈ keys.names) ∧
    ∀ name v node, get? name entries = some v → entity.field? name = some node →
      ∃ d, node.encode v = .ok d

end KeyNames

/-! ## Encoding a key -/

namespace Schema

variable {entity : Schema} {keys : KeyNames}

/-- A named attribute has to be present and declared, and is encoded by its node. -/
theorem encodeNamed_cons_eq_ok {entries : List (String × Value)} {name : String}
    {names : List String} {item : Item} :
    entity.encodeNamed entries (name :: names) = .ok item ↔ ∃ v node d rest,
      get? name entries = some v ∧ entity.field? name = some node ∧ node.encode v = .ok d ∧
        entity.encodeNamed entries names = .ok rest ∧ item = (name, d) :: rest := by
  rw [encodeNamed]
  constructor
  · intro h
    split at h
    · cases h
    · next v hv =>
      split at h
      · cases h
      · next node hnode =>
        obtain ⟨d, hd, h⟩ := bind_eq_ok.1 h
        obtain ⟨rest, hrest, he⟩ := bind_eq_ok.1 h
        cases he
        exact ⟨v, node, d, rest, hv, hnode, hd, hrest, rfl⟩
  · rintro ⟨v, node, d, rest, hv, hnode, hd, hrest, rfl⟩
    rw [hv]
    dsimp only
    rw [hnode]
    exact bind_eq_ok.2 ⟨d, hd, bind_eq_ok.2 ⟨rest, hrest, rfl⟩⟩

theorem exists_encodeNamed_iff {entries : List (String × Value)} {names : List String} :
    (∃ item, entity.encodeNamed entries names = .ok item) ↔ ∀ name ∈ names, ∃ v node d,
      get? name entries = some v ∧ entity.field? name = some node ∧ node.encode v = .ok d := by
  induction names with
  | nil => exact ⟨fun _ _ h => absurd h List.not_mem_nil, fun _ => ⟨[], rfl⟩⟩
  | cons name names ih =>
    rw [List.forall_mem_cons, ← ih]
    constructor
    · rintro ⟨item, h⟩
      obtain ⟨v, node, d, rest, hv, hnode, hd, hrest, -⟩ := encodeNamed_cons_eq_ok.1 h
      exact ⟨⟨v, node, d, hv, hnode, hd⟩, rest, hrest⟩
    · rintro ⟨⟨v, node, d, hv, hnode, hd⟩, rest, hrest⟩
      exact ⟨_, encodeNamed_cons_eq_ok.2 ⟨v, node, d, rest, hv, hnode, hd, hrest, rfl⟩⟩

/-- Attributes that are encoded to what an item has under their names are encoded to the
restriction of the item to the names. -/
theorem encodeNamed_eq_restrict {entries : List (String × Value)} {names : List String}
    {item : Item} (h : ∀ name ∈ names, ∃ v node d, get? name entries = some v ∧
      entity.field? name = some node ∧ node.encode v = .ok d ∧ get? name item = some d) :
    entity.encodeNamed entries names = .ok (restrict names item) := by
  induction names with
  | nil => rfl
  | cons name names ih =>
    obtain ⟨v, node, d, hv, hnode, hd, hitem⟩ := h name List.mem_cons_self
    have hrest := ih fun n hn => h n (List.mem_cons_of_mem name hn)
    refine encodeNamed_cons_eq_ok.2 ⟨v, node, d, _, hv, hnode, hd, hrest, ?_⟩
    rw [restrict, List.filterMap_cons, hitem]
    rfl

/-- A key has to be a map without other attributes, and then its attributes are encoded. -/
theorem encodeKey_eq_ok (hkeys : KeyNames.ofSchema entity = .ok keys) {key : Value} {item : Item} :
    entity.encodeKey key = .ok item ↔ ∃ entries, key = .map entries ∧
      (∀ name ∈ Entries.keys entries, name ∈ keys.names) ∧
      entity.encodeNamed entries keys.names = .ok item := by
  cases key with
  | map entries =>
    rw [encodeKey, hkeys]
    dsimp only [bind, Except.bind]
    -- the first name that does not belong to the key is an error
    cases hextra : (Entries.keys entries).find? fun name => !keys.has name with
    | some extra =>
      constructor
      · intro h
        cases h
      · rintro ⟨_, he, hnames, -⟩
        cases he
        have hmem := hnames extra (List.mem_of_find?_eq_some hextra)
        have hnot := List.find?_some hextra
        rw [KeyNames.has_iff.2 hmem] at hnot
        cases hnot
    | none =>
      have hnames : ∀ name ∈ Entries.keys entries, name ∈ keys.names := by
        intro name hname
        have hhas := List.find?_eq_none.1 hextra name hname
        rw [← KeyNames.has_iff]
        simpa using hhas
      constructor
      · exact fun h => ⟨entries, rfl, hnames, h⟩
      · rintro ⟨_, he, -, h⟩
        cases he
        exact h
  | _ => simp [encodeKey]

/-- **Keys that are accepted.** They are the maps of exactly the key attributes whose values are
encoded by the nodes of these attributes. It has no part about errors: which of them comes first
is in the definition of `encodeKey`. -/
theorem exists_encodeKey_iff (hkeys : KeyNames.ofSchema entity = .ok keys) {key : Value} :
    (∃ item, entity.encodeKey key = .ok item) ↔ keys.Fits entity key := by
  constructor
  · rintro ⟨item, h⟩
    obtain ⟨entries, rfl, hnames, hencode⟩ := (encodeKey_eq_ok hkeys).1 h
    have hpresent := exists_encodeNamed_iff.1 ⟨item, hencode⟩
    refine ⟨entries, rfl, fun name => ⟨hnames name, fun hname => ?_⟩, ?_⟩
    · obtain ⟨v, _, _, hv, -⟩ := hpresent name hname
      exact mem_keys_iff.2 ⟨v, hv⟩
    · intro name v node hv hnode
      obtain ⟨v', node', d, hv', hnode', hd⟩ :=
        hpresent name (hnames name (mem_keys_iff.2 ⟨v, hv⟩))
      rw [hv] at hv'
      rw [hnode] at hnode'
      cases hv'
      cases hnode'
      exact ⟨d, hd⟩
  · rintro ⟨entries, rfl, hnames, hencode⟩
    have hpresent : ∀ name ∈ keys.names, ∃ v node d, get? name entries = some v ∧
        entity.field? name = some node ∧ node.encode v = .ok d := by
      intro name hname
      obtain ⟨v, hv⟩ := mem_keys_iff.1 ((hnames name).2 hname)
      obtain ⟨node, hnode⟩ := KeyNames.exists_field? hkeys hname
      obtain ⟨d, hd⟩ := hencode name v node hv hnode
      exact ⟨v, node, d, hv, hnode, hd⟩
    obtain ⟨item, hitem⟩ := exists_encodeNamed_iff.2 hpresent
    exact ⟨item, (encodeKey_eq_ok hkeys).2 ⟨entries, rfl, fun name => (hnames name).1, hitem⟩⟩

/-! ## The key of an encoded item -/

/-- The restriction to names that are all present has exactly these names, in their order. -/
theorem keys_restrict {names : List String} {item : Item}
    (h : ∀ name ∈ names, ∃ d, get? name item = some d) :
    Entries.keys (restrict names item) = names := by
  induction names with
  | nil => rfl
  | cons name names ih =>
    obtain ⟨d, hd⟩ := h name List.mem_cons_self
    have hrest := ih fun n hn => h n (List.mem_cons_of_mem name hn)
    rw [restrict, List.filterMap_cons, hd]
    exact congrArg (name :: ·) hrest

/-- What an item has under the name of a key attribute is what the attribute's node makes of the
value that is there. -/
theorem exists_get?_of_encodeItem (hkeys : KeyNames.ofSchema entity = .ok keys) {v : Value}
    {item : Item} (hitem : entity.encodeItem v = .ok item) {name : String}
    (hname : name ∈ keys.names) {w : Value} (hw : v.get? name = some w) :
    ∃ node d, entity.field? name = some node ∧ node.encode w = .ok d ∧ get? name item = some d := by
  obtain ⟨node, hnode⟩ := KeyNames.exists_field? hkeys hname
  -- a schema with fields is that of a map
  cases entity with
  | map m fields =>
    obtain ⟨entries, rfl, hfields⟩ := encodeItem_map_eq_ok.1 hitem
    obtain ⟨d, hd, hfield⟩ := get?_of_encodeFields_of_get? hfields hnode hw
    exact ⟨node, d, hnode, encode_of_encodeAt hfield, hd⟩
  | _ => cases hnode

theorem encodeKey_of_encodeItem (hkeys : KeyNames.ofSchema entity = .ok keys) {v key : Value}
    {item : Item} (hitem : entity.encodeItem v = .ok item) (hheld : keys.HeldBy v)
    (hkey : keys.IsKeyOf key v) :
    entity.encodeKey key = .ok (restrict keys.names item) ∧
      Entries.keys (restrict keys.names item) = keys.names := by
  have hstored : ∀ name ∈ keys.names, ∃ w node d, v.get? name = some w ∧
      entity.field? name = some node ∧ node.encode w = .ok d ∧ get? name item = some d := by
    intro name hname
    obtain ⟨w, hw⟩ := Option.isSome_iff_exists.1 (hheld name hname)
    obtain ⟨node, d, hnode, hd, hget⟩ := exists_get?_of_encodeItem hkeys hitem hname hw
    exact ⟨w, node, d, hw, hnode, hd, hget⟩
  refine ⟨?_, keys_restrict fun name hname => ?_⟩
  · obtain ⟨entries, rfl, hentries⟩ := hkey
    refine (encodeKey_eq_ok hkeys).2 ⟨entries, rfl, fun name hname => ?_, ?_⟩
    · -- the key has nothing under other names
      obtain ⟨w, hw⟩ := mem_keys_iff.1 hname
      by_contra hnot
      rw [hentries, if_neg hnot] at hw
      cases hw
    · refine encodeNamed_eq_restrict fun name hname => ?_
      rw [hentries, if_pos hname]
      exact hstored name hname
  · obtain ⟨_, _, d, -, -, -, hget⟩ := hstored name hname
    exact ⟨d, hget⟩

/-! ## Requests -/

/-- Every put of the value stores the item. It says so of every draft and every table with the
entity, and so of all the ways to put the value. -/
def StoredAs (entity : Schema) (v : Value) (item : Item) : Prop :=
  ∀ (t : Table) (draft : PutDraft) (r : PutRequest), t.entity draft.entity = .ok entity →
    draft.item = some v → draft.build t = .ok r → r.item = item

/-- Every request for the item with the key names it by the address. There is one field for each
kind of request that names an item by its key. -/
structure AddressedBy (entity : Schema) (key : Value) (address : Item) : Prop where
  get : ∀ (t : Table) (draft : GetDraft) (r : GetRequest), t.entity draft.entity = .ok entity →
    draft.key = some key → draft.build t = .ok r → r.key = address
  delete : ∀ (t : Table) (draft : DeleteDraft) (r : DeleteRequest),
    t.entity draft.entity = .ok entity → draft.key = some key → draft.build t = .ok r →
      r.key = address
  update : ∀ (t : Table) (draft : UpdateDraft) (r : UpdateRequest),
    t.entity draft.entity = .ok entity → draft.key = some key → draft.build t = .ok r →
      r.key = address
  /-- There are such requests: one that gets the item and asks for nothing else. -/
  exists_get : ∀ (t : Table) (name : String), t.entity name = .ok entity →
    ∃ r, GetDraft.build t { GetDraft.start name with key := some key } = .ok r
  /-- And one that deletes it. -/
  exists_delete : ∀ (t : Table) (name : String), t.entity name = .ok entity →
    ∃ r, DeleteDraft.build t { DeleteDraft.start name with key := some key } = .ok r

theorem storedAs_of_encodeItem {v : Value} {item : Item} (h : entity.encodeItem v = .ok item) :
    entity.StoredAs v item := by
  intro t draft r hentity hitem hr
  obtain ⟨entity', hentity', hr⟩ := bind_eq_ok.1 hr
  rw [hentity] at hentity'
  cases hentity'
  obtain ⟨item', hencode, hr⟩ := bind_eq_ok.1 hr
  obtain ⟨condition, -, hr⟩ := bind_eq_ok.1 hr
  obtain ⟨⟨text, progress⟩, -, he⟩ := bind_eq_ok.1 hr
  cases he
  rw [hitem, Option.getD_some, h] at hencode
  cases hencode
  rfl

/-- What the key is encoded as is what it is sent as. -/
theorem addressedBy_of_encodeKey {key : Value} {address : Item}
    (h : entity.encodeKey key = .ok address) : entity.AddressedBy key address := by
  -- every draft with a key looks for its entity first and encodes the key next
  have hsent : ∀ {α : Type} {t : Table} {name : String} {k : Option Value} {r : α}
      {rest : Schema → Item → Except Error α}, t.entity name = .ok entity → k = some key →
      (do let entity ← t.entity name; let key ← encodeDraftKey entity k; rest entity key) = .ok r →
      rest entity address = .ok r := by
    rintro α t name k r rest hentity rfl hr
    rw [hentity] at hr
    dsimp only [bind, Except.bind, encodeDraftKey] at hr
    rw [h] at hr
    exact hr
  refine ⟨?_, ?_, ?_, ?_, ?_⟩
  · intro t draft r hentity hkey hr
    obtain ⟨_, -, he⟩ := bind_eq_ok.1 (hsent hentity hkey hr)
    cases he
    rfl
  · intro t draft r hentity hkey hr
    obtain ⟨_, -, he⟩ := bind_eq_ok.1 (hsent hentity hkey hr)
    cases he
    rfl
  · intro t draft r hentity hkey hr
    obtain ⟨_, -, hr⟩ := bind_eq_ok.1 (hsent hentity hkey hr)
    obtain ⟨_, -, he⟩ := bind_eq_ok.1 hr
    cases he
    rfl
  · intro t name hentity
    exact ⟨_, bind_eq_ok.2 ⟨entity, hentity, bind_eq_ok.2 ⟨address, h, rfl⟩⟩⟩
  · intro t name hentity
    exact ⟨_, bind_eq_ok.2 ⟨entity, hentity, bind_eq_ok.2 ⟨address, h, rfl⟩⟩⟩

/-- **Keys find items.** Let an entity declare a partition key. If an item of the entity was
encoded and has all key attributes, then the map of just these attributes is encoded as well, to
what the encoded item has under their names, the partition key first; so requests for the item
name it by the descriptors that a put of it stores. And a value is encoded as a key just when it
is a map of exactly the key attributes, each fit for its node. The first part asks for an item
that was encoded and does not ask what the key attributes are declared as. The second part is
about any key, whether or not there is an item to it. -/
theorem key_of_item (hkeys : KeyNames.ofSchema entity = .ok keys) :
    (∀ v item key, entity.encodeItem v = .ok item → keys.HeldBy v → keys.IsKeyOf key v →
      entity.encodeKey key = .ok (restrict keys.names item) ∧
        Entries.keys (restrict keys.names item) = keys.names ∧
        entity.StoredAs v item ∧ entity.AddressedBy key (restrict keys.names item)) ∧
    ∀ key, (∃ item, entity.encodeKey key = .ok item) ↔ keys.Fits entity key := by
  refine ⟨?_, fun key => exists_encodeKey_iff hkeys⟩
  intro v item key hitem hheld hkey
  obtain ⟨hencode, hnames⟩ := encodeKey_of_encodeItem hkeys hitem hheld hkey
  exact ⟨hencode, hnames, storedAs_of_encodeItem hitem, addressedBy_of_encodeKey hencode⟩

/-- The key of the reading during a leap second, its attributes the other way round and with the
text that the reading has for its date. -/
def leapKey : Value :=
  .map [("at", .string "2017-01-01T00:59:60.123456+01:00"), ("gauge", .string "north")]

/-- It is sent in the order of the declaration and with the date as it is stored. Of the reading
itself, which has other attributes, no key can be made. -/
theorem leapKey_of_item : ∃ item, gauge.encodeItem leapReading = .ok item ∧
    (Descriptor.map item).same leapItem = true ∧
    gauge.encodeKey leapKey = .ok (restrict ["gauge", "at"] item) ∧
    (restrict ["gauge", "at"] item).map (fun e => (e.1, e.2.string?)) =
      [("gauge", some "north"), ("at", some "2016-12-31T23:59:60.123Z")] ∧
    gauge.StoredAs leapReading item ∧
    gauge.AddressedBy leapKey (restrict ["gauge", "at"] item) ∧
    ¬ ∃ item, gauge.encodeKey leapReading = .ok item := by
  have hrun : ((gauge.encodeItem leapReading).toOption.map fun item =>
      ((Descriptor.map item).same leapItem,
        (restrict ["gauge", "at"] item).map fun e => (e.1, e.2.string?))) =
      some (true, [("gauge", some "north"), ("at", some "2016-12-31T23:59:60.123Z")]) := by
    decide +kernel
  obtain ⟨item, hitem, hpair⟩ := exists_ok_of_toOption_map hrun
  obtain ⟨hsame, haddress⟩ := Prod.mk.inj hpair
  have hkeys : KeyNames.ofSchema gauge = .ok ⟨"gauge", some "at"⟩ := by decide +kernel
  have hheld : (⟨"gauge", some "at"⟩ : KeyNames).HeldBy leapReading := by
    unfold KeyNames.HeldBy
    decide
  have hkey : (⟨"gauge", some "at"⟩ : KeyNames).IsKeyOf leapKey leapReading := by
    refine ⟨_, rfl, fun name => ?_⟩
    by_cases hat : name = "at"
    · subst hat
      rfl
    · by_cases hgauge : name = "gauge"
      · subst hgauge
        rfl
      · simp [get?, KeyNames.names, Ne.symm hat, Ne.symm hgauge, hat, hgauge]
  have hall := key_of_item hkeys
  obtain ⟨hencode, -, hstored, haddressed⟩ := hall.1 leapReading item leapKey hitem hheld hkey
  refine ⟨item, hitem, hsame, hencode, haddress, hstored, haddressed, ?_⟩
  rw [hall.2]
  rintro ⟨entries, he, hnames, -⟩
  cases he
  have hnote := (hnames "note").1 (by decide)
  exact absurd hnote (by decide)

end Schema

end ItemStore
