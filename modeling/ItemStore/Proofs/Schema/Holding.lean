import ItemStore.Proofs.Descriptor.Same
import ItemStore.Proofs.Schema.Congruence
import ItemStore.Proofs.Schema.Descent
import Mathlib.Data.List.Perm.Subperm

/-
Items that belong to an entity.

An item belongs to an entity if it is what some value is encoded as, the order of its attributes
and of the entries of maps inside them aside. Said like this it is a property of the item as a
whole, and of no use to someone who changes a single attribute. `holds_iff` takes it apart: nothing
is there that is not declared, and every declared attribute is either what its node makes of some
value or missing and allowed to be missing. The value of the whole item is put together again from
the values of its attributes.

Sameness is only reflexive where no map has a key twice, so it has to be known that nothing else is
ever encoded (`distinctKeys_of_encodeAt`).
-/
set_option autoImplicit false

namespace ItemStore

open Entries

/-! ## Lists of items -/

section Items

variable {α : Type} {encode : String → Value → Except Error α}

theorem encodeItems_append {path : String} {index : Nat} {items more : List Value}
    {encoded encodedMore : List α} (h : encodeItems encode path index items = .ok encoded)
    (hmore : encodeItems encode path (index + items.length) more = .ok encodedMore) :
    encodeItems encode path index (items ++ more) = .ok (encoded ++ encodedMore) := by
  induction items generalizing index encoded with
  | nil =>
    cases h
    exact hmore
  | cons v items ih =>
    obtain ⟨first, hfirst, h⟩ := bind_eq_ok.1 h
    obtain ⟨rest, hrest, he⟩ := bind_eq_ok.1 h
    cases he
    rw [List.length_cons, Nat.add_comm items.length 1, ← Nat.add_assoc] at hmore
    exact bind_eq_ok.2 ⟨first, hfirst, bind_eq_ok.2 ⟨_, ih hrest hmore, rfl⟩⟩

end Items

namespace Schema

/-! ## What is encoded -/

theorem eq_null_of_encodeAt_null {s : Schema} {path : String} {d : Descriptor}
    (h : s.encodeAt path .null = .ok d) : d = .null := by
  rw [encodeAt_null] at h
  split at h
  · exact (Except.ok.inj h).symm
  · cases h

/-- Null has no keys, so only other values have to be looked at. -/
theorem distinctKeys_of_not_isNull {s : Schema} {path : String} {v : Value} {d : Descriptor}
    (h : s.encodeAt path v = .ok d) (hother : v.isNull = false → d.distinctKeys = true) :
    d.distinctKeys = true := by
  cases v with
  | null =>
    rw [eq_null_of_encodeAt_null h]
    rfl
  | _ => exact hother rfl

theorem distinctKeys_of_isContainer {d : Descriptor} (h : d.isContainer = false) :
    d.distinctKeys = true := by
  cases d with
  | list items => cases h
  | map entries => cases h
  | _ => rfl

/-- No map in an encoded value has a key twice. -/
theorem distinctKeys_of_encodeAt {s : Schema} (hnames : s.repeatedName? = none) {path : String}
    {v : Value} {d : Descriptor} (h : s.encodeAt path v = .ok d) : d.distinctKeys = true := by
  induction s using Schema.induction generalizing path v d with
  | scalar m kind =>
    refine distinctKeys_of_not_isNull h fun hv => ?_
    rw [encodeAt_scalar hv] at h
    exact distinctKeys_of_isContainer (plain_of_encode_scalar h).2
  | set m kind =>
    refine distinctKeys_of_not_isNull h fun hv => ?_
    rw [encodeAt_set hv] at h
    exact distinctKeys_of_isContainer (plain_of_encode_set h).2
  | map m fields ih =>
    refine distinctKeys_of_not_isNull h fun hv => ?_
    obtain ⟨entries, encoded, -, hfields, rfl⟩ := (encodeAt_map_eq_ok hv).1 h
    obtain ⟨hnodup, -, hnodes⟩ := repeatedNameAmong?_eq_none hnames
    have hkeys : (keys encoded).Nodup := by
      rw [keys_of_encodeFields hfields]
      exact hnodup.filter _
    rw [Descriptor.distinctKeys_map]
    refine ⟨hkeys, fun e he => ?_⟩
    obtain ⟨field, w, hfield, -, hencode⟩ :=
      (get?_encodeFields_eq_some hfields).1 (get?_of_mem hkeys he)
    exact ih _ (mem_of_get? hfield) (hnodes _ (mem_of_get? hfield)) hencode
  | list m element ih =>
    refine distinctKeys_of_not_isNull h fun hv => ?_
    obtain ⟨items, encoded, -, hitems, rfl⟩ := (encodeAt_list_eq_ok hv).1 h
    have hall := (forall₂_of_encodeItems hitems).imp fun v a ⟨_, ha⟩ => ih hnames ha
    rw [Descriptor.distinctKeys_list]
    intro d hd
    obtain ⟨i, hi, rfl⟩ := List.getElem_of_mem hd
    exact hall.get (by rw [hall.length_eq]; exact hi) hi
  | partitionKey m inner ih =>
    refine distinctKeys_of_not_isNull h fun hv => ?_
    rw [encodeAt_partitionKey hv] at h
    exact ih hnames h
  | sortKey m inner ih =>
    refine distinctKeys_of_not_isNull h fun hv => ?_
    rw [encodeAt_sortKey hv] at h
    exact ih hnames h

/-! ## What a node admits -/

/-- The descriptor is what the node makes of some value. It is about the descriptor up to the
order of entries in maps, because an update may bring in a map with its entries turned round. -/
def Admits (node : Schema) (d : Descriptor) : Prop :=
  ∃ v d', node.encode v = .ok d' ∧ d.same d' = true

/-- The item is what the entity makes of some value. It is the invariant of an item that puts and
updates write. -/
def Holds (entity : Schema) (item : Item) : Prop :=
  ∃ v stored, entity.encodeItem v = .ok stored ∧ Item.same item stored = true

/-- What a node makes of a value it admits. -/
theorem admits_of_encode {node : Schema} (hnames : node.repeatedName? = none) {v : Value}
    {d : Descriptor} (h : node.encode v = .ok d) : node.Admits d :=
  ⟨v, d, h, Descriptor.same_refl (distinctKeys_of_encodeAt hnames h)⟩

/-- A list to which items were appended that the node can encode as well. -/
theorem admits_append {m : Modifiers} {element : Schema} (hnames : element.repeatedName? = none)
    {items more : List Descriptor} {values : List Value}
    (hold : (list m element).Admits (.list items))
    (hmore : (list m element).encode (.list values) = .ok (.list more)) :
    (list m element).Admits (.list (items ++ more)) := by
  obtain ⟨v, d, hencode, hsame⟩ := hold
  obtain ⟨items', rfl, hitems'⟩ : ∃ items', d = .list items' ∧
      List.Forall₂ (fun a b => a.same b = true) items items' := by
    cases d with
    | list items' => exact ⟨items', rfl, Descriptor.same_list.1 hsame⟩
    | _ => cases hsame
  have hnull : v.isNull = false := by
    cases v with
    | null => cases eq_null_of_encodeAt_null hencode
    | _ => rfl
  obtain ⟨vs, encoded, rfl, hvs, he⟩ := (encodeAt_list_eq_ok hnull).1 hencode
  cases he
  obtain ⟨ws, encodedMore, he, hws, he'⟩ := (encodeAt_list_eq_ok rfl).1 hmore
  cases he
  cases he'
  -- the values that are appended stand further on than they were encoded
  have hanywhere : ∀ w ∈ values, ∀ path place d, element.encodeAt path w = .ok d →
      element.encodeAt place w = .ok d := fun _ _ _ _ _ hd => encodeAt_anywhere hd
  have hlater := encodeItems_anywhere hanywhere hws "" (0 + vs.length)
  refine ⟨.list (vs ++ values), .list (items' ++ more), ?_, ?_⟩
  · exact (encodeAt_list_eq_ok rfl).2 ⟨_, _, rfl, encodeItems_append hvs hlater, rfl⟩
  · rw [Descriptor.same_list]
    refine List.rel_append hitems' ?_
    rw [List.forall₂_same]
    have hdistinct := distinctKeys_of_encodeAt (s := .list m element) hnames hmore
    intro d hd
    exact Descriptor.same_refl (Descriptor.distinctKeys_list.1 hdistinct d hd)

/-! ## Attribute by attribute -/

/-- An attribute is what its node admits, or it is missing and may be. It is one attribute's share
of `Holds`. -/
def AdmitsOptional (node : Schema) : Option Descriptor → Prop
  | some d => node.Admits d
  | none => node.isOptional = true

/-- Items with the same names that are the same under each name are the same. -/
theorem Item.same_of_get? {item stored : Item} (hitem : (keys item).Nodup)
    (hstored : (keys stored).Nodup) (hnames : ∀ name, name ∈ keys item ↔ name ∈ keys stored)
    (h : ∀ name d, get? name item = some d → ∃ d', get? name stored = some d' ∧ d.same d' = true) :
    Item.same item stored = true := by
  have hlength : item.length = stored.length := by
    have hperm := (List.perm_ext_iff_of_nodup hitem hstored).2 hnames
    simpa [keys] using hperm.length_eq
  rw [Item.same, Descriptor.same_map]
  exact ⟨hlength, fun e he => h e.1 e.2 (get?_of_mem hitem he)⟩

/-- Items that are the same have the same names. -/
theorem Item.mem_keys_of_same {item stored : Item} (hitem : (keys item).Nodup)
    (h : Item.same item stored = true) (name : String) : name ∈ keys item ↔ name ∈ keys stored := by
  rw [Item.same, Descriptor.same_map] at h
  have hsub : keys item ⊆ keys stored := by
    intro name hname
    obtain ⟨d, hd⟩ := mem_keys_iff.1 hname
    obtain ⟨d', hd', -⟩ := h.2 (name, d) (mem_of_get? hd)
    exact mem_keys_iff.2 ⟨d', hd'⟩
  -- as many names, none of them twice
  have hperm := (List.subperm_of_subset hitem hsub).perm_of_length_le
    (by simp only [keys, List.length_map]; omega)
  exact hperm.mem_iff

section Attributes

variable {m : Modifiers} {fields : List (String × Schema)} {item : Item}

/-- Nothing is there that is not declared. -/
theorem Holds.declared (h : (map m fields).Holds item) (hitem : (keys item).Nodup) :
    ∀ name ∈ keys item, name ∈ keys fields := by
  obtain ⟨v, stored, hencode, hsame⟩ := h
  obtain ⟨entries, rfl, hentries⟩ := encodeItem_map_eq_ok.1 hencode
  intro name hname
  have hstored := (Item.mem_keys_of_same hitem hsame name).1 hname
  exact (mem_keys_of_encodeFields hentries hstored).1

/-- What is declared is there as its node admits it, or it is missing and may be. -/
theorem Holds.admitsOptional (h : (map m fields).Holds item) (hitem : (keys item).Nodup)
    {name : String} {node : Schema} (hnode : get? name fields = some node) :
    node.AdmitsOptional (get? name item) := by
  obtain ⟨v, stored, hencode, hsame⟩ := h
  obtain ⟨entries, rfl, hentries⟩ := encodeItem_map_eq_ok.1 hencode
  cases hget : get? name item with
  | some d =>
    rw [Item.same, Descriptor.same_map] at hsame
    obtain ⟨d', hd', hsame'⟩ := hsame.2 (name, d) (mem_of_get? hget)
    obtain ⟨node', w, hnode', hw, hencode'⟩ := (get?_encodeFields_eq_some hentries).1 hd'
    rw [hnode] at hnode'
    cases hnode'
    exact ⟨w, d', encode_of_encodeAt hencode', hsame'⟩
  | none =>
    -- nothing was encoded for the name, so nothing was there to be encoded
    have hnone : name ∉ keys stored := by
      rw [← Item.mem_keys_of_same hitem hsame name, ← get?_eq_none_iff]
      exact hget
    rcases exists_encodeFields_iff.1 ⟨stored, hentries⟩ (name, node) (mem_of_get? hnode) with
      ⟨w, d, hw, -⟩ | ⟨-, hoptional⟩
    · obtain ⟨d, hd, -⟩ := get?_of_encodeFields_of_get? hentries hnode hw
      exact absurd (mem_keys_iff.2 ⟨d, hd⟩) hnone
    · exact hoptional

/-- A value for each name, of which the node of the name makes the attribute. -/
theorem exists_values (hadmits : ∀ name node, get? name fields = some node →
    node.AdmitsOptional (get? name item)) :
    ∃ value : String → Value, ∀ name node d, get? name fields = some node →
      get? name item = some d → ∃ d', node.encode (value name) = .ok d' ∧ d.same d' = true := by
  have hvalue : ∀ name, ∃ w : Value, ∀ node d,
      get? name fields = some node → get? name item = some d →
      ∃ d', node.encode w = .ok d' ∧ d.same d' = true := by
    intro name
    cases hnode : get? name fields with
    | none => exact ⟨.null, fun node d h => by cases h⟩
    | some node =>
      have hadmit := hadmits name node hnode
      cases hget : get? name item with
      | none => exact ⟨.null, fun node d _ h => by cases h⟩
      | some d =>
        rw [hget] at hadmit
        obtain ⟨w, d', hencode, hsame⟩ := hadmit
        refine ⟨w, ?_⟩
        intro node' d'' h h'
        cases h
        cases h'
        exact ⟨d', hencode, hsame⟩
  choose value hvalue using hvalue
  exact ⟨value, hvalue⟩

/-- The entries with the given names, with a value each. -/
def assembled (value : String → Value) (names : List String) : List (String × Value) :=
  names.map fun name => (name, value name)

/-- The values of the attributes make up a value of the item. -/
theorem holds_of_values (hfields : (keys fields).Nodup) (hitem : (keys item).Nodup)
    (hdeclared : ∀ name ∈ keys item, name ∈ keys fields)
    (hadmits : ∀ name node, get? name fields = some node → node.AdmitsOptional (get? name item))
    {value : String → Value}
    (hvalue : ∀ name node d, get? name fields = some node → get? name item = some d →
      ∃ d', node.encode (value name) = .ok d' ∧ d.same d' = true) :
    (map m fields).Holds item := by
  have hget : ∀ name, get? name (assembled value (keys item)) =
      if name ∈ keys item then some (value name) else none :=
    fun name => get?_map_self value name (keys item)
  have hencodes : ∀ f ∈ fields,
      (∃ v d, get? f.1 (assembled value (keys item)) = some v ∧
        f.2.encodeAt (placeOf "" f.1) v = .ok d) ∨
      get? f.1 (assembled value (keys item)) = none ∧ f.2.isOptional = true := by
    intro f hf
    have hnode := get?_of_mem hfields hf
    have hadmit := hadmits f.1 f.2 hnode
    cases hold : get? f.1 item with
    | some d =>
      obtain ⟨d', hencode, -⟩ := hvalue f.1 f.2 d hnode hold
      refine .inl ⟨value f.1, d', ?_, encodeAt_anywhere hencode⟩
      rw [hget, if_pos (mem_keys_iff.2 ⟨d, hold⟩)]
    | none =>
      rw [hold] at hadmit
      refine .inr ⟨?_, hadmit⟩
      rw [hget, if_neg (get?_eq_none_iff.1 hold)]
  obtain ⟨stored, hstored⟩ := exists_encodeFields_iff.2 hencodes
  have hkeys := keys_of_encodeFields hstored
  have hnodup : (keys stored).Nodup := by
    rw [hkeys]
    exact hfields.filter _
  refine ⟨.map (assembled value (keys item)), stored,
    encodeItem_map_eq_ok.2 ⟨_, rfl, hstored⟩, Item.same_of_get? hitem hnodup ?_ ?_⟩
  · intro name
    rw [hkeys, List.mem_filter, has, hget]
    by_cases hname : name ∈ keys item
    · rw [if_pos hname]
      exact iff_of_true hname ⟨hdeclared name hname, rfl⟩
    · rw [if_neg hname]
      exact iff_of_false hname fun h => Bool.false_ne_true h.2
  · intro name d hd
    have hname := mem_keys_iff.2 ⟨d, hd⟩
    obtain ⟨node, hnode⟩ := mem_keys_iff.1 (hdeclared name hname)
    obtain ⟨d', hencode, hsame⟩ := hvalue name node d hnode hd
    refine ⟨d', ?_, hsame⟩
    rw [get?_encodeFields_eq_some hstored]
    refine ⟨node, value name, hnode, ?_, encodeAt_anywhere hencode⟩
    rw [hget, if_pos hname]

/-- **An item belongs to an entity attribute by attribute.** From left to right it takes an item
apart, from right to left it puts one together again after an attribute was changed. No name may
come twice on either side, which is so for schemas that were built and items that were stored. -/
theorem holds_iff (hfields : (keys fields).Nodup) (hitem : (keys item).Nodup) :
    (map m fields).Holds item ↔ (∀ name ∈ keys item, name ∈ keys fields) ∧
      ∀ name node, get? name fields = some node → node.AdmitsOptional (get? name item) := by
  constructor
  · intro h
    exact ⟨h.declared hitem, fun name node hnode => h.admitsOptional hitem hnode⟩
  · rintro ⟨hdeclared, hadmits⟩
    obtain ⟨value, hvalue⟩ := exists_values hadmits
    exact holds_of_values hfields hitem hdeclared hadmits hvalue

end Attributes

end Schema

end ItemStore
