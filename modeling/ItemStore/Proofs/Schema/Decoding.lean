import ItemStore.Proofs.Schema.RoundTrip

/-
Decoding, leniently and whole items.

The two modes differ in one place, the look at the names of a map before its fields are decoded.
So whatever the strict mode accepts the lenient mode accepts as well, with the same value. An item
of a map schema is decoded as the map that it is, and comes back in both modes.
-/
set_option autoImplicit false

namespace ItemStore

/-- Elements that are decoded one by one as before are decoded as before. -/
theorem decodeItems_of_imp {α : Type} {decode decode' : String → α → Except Error Value}
    {ds : List α} (h : ∀ d ∈ ds, ∀ place v, decode place d = .ok v → decode' place d = .ok v)
    {path : String} {index : Nat} {vs : List Value}
    (hdecode : decodeItems decode path index ds = .ok vs) :
    decodeItems decode' path index ds = .ok vs := by
  induction ds generalizing index vs with
  | nil => exact hdecode
  | cons d ds ih =>
    obtain ⟨first, hfirst, hdecode⟩ := bind_eq_ok.1 hdecode
    obtain ⟨rest, hrest, he⟩ := bind_eq_ok.1 hdecode
    have hfirst' := h d List.mem_cons_self _ _ hfirst
    have hrest' := ih (fun e he => h e (List.mem_cons_of_mem d he)) hrest
    exact bind_eq_ok.2 ⟨first, hfirst', bind_eq_ok.2 ⟨rest, hrest', he⟩⟩

namespace Schema

open Entries

section Nodes

variable {mode : DecodeMode} {m : Modifiers} {path : String} {d : Descriptor} {v : Value}

/-- Apart from null, only maps are decoded as maps, and their names are looked at first. -/
theorem decodeAt_map_eq_ok {fields : List (String × Schema)} (hd : d.isNull = false) :
    (map m fields).decodeAt mode path d = .ok v ↔ ∃ entries decoded, d = .map entries ∧
      mode.checkNames fields path entries = .ok () ∧
      decodeFields mode fields path entries = .ok decoded ∧ v = .map decoded := by
  cases d with
  | map entries =>
    rw [decodeAt_map]
    simp only [bind_eq_ok, map_eq_ok]
    constructor
    · rintro ⟨_, hnames, decoded, hfields, he⟩
      cases he
      exact ⟨entries, decoded, rfl, hnames, hfields, rfl⟩
    · rintro ⟨_, decoded, he, hnames, hfields, rfl⟩
      cases he
      exact ⟨(), hnames, decoded, hfields, rfl⟩
  | null => cases hd
  | _ => simp [decodeAt, Descriptor.isNull]

/-- Apart from null, only lists are decoded as lists. -/
theorem decodeAt_list_eq_ok {element : Schema} (hd : d.isNull = false) :
    (list m element).decodeAt mode path d = .ok v ↔ ∃ items decoded, d = .list items ∧
      decodeItems (element.decodeAt mode) path 0 items = .ok decoded ∧ v = .list decoded := by
  cases d with
  | list items =>
    rw [decodeAt_list, map_eq_ok]
    simp [eq_comm]
  | null => cases hd
  | _ => simp [decodeAt, Descriptor.isNull]

end Nodes

/-- A field is decoded if it is present, and left out if it is absent. -/
theorem decodeFields_cons_eq_ok {mode : DecodeMode} {name : String} {field : Schema}
    {fields : List (String × Schema)} {path : String} {entries : List (String × Descriptor)}
    {decoded : List (String × Value)} :
    decodeFields mode ((name, field) :: fields) path entries = .ok decoded ↔
      (∃ d v rest, get? name entries = some d ∧ field.decodeAt mode (placeOf path name) d = .ok v ∧
        decodeFields mode fields path entries = .ok rest ∧ decoded = (name, v) :: rest) ∨
      get? name entries = none ∧ decodeFields mode fields path entries = .ok decoded := by
  rw [decodeFields]
  cases hd : get? name entries with
  | some d =>
    simp only [bind_eq_ok]
    constructor
    · rintro ⟨v, hv, rest, hrest, he⟩
      cases he
      exact .inl ⟨d, v, rest, rfl, hv, hrest, rfl⟩
    · rintro (⟨d', v, rest, hd', hv, hrest, rfl⟩ | ⟨hnone, -⟩)
      · cases hd'
        exact ⟨v, hv, rest, hrest, rfl⟩
      · cases hnone
  | none => simp

/-- Fields that are decoded one by one as before are decoded as before. -/
theorem decodeFields_of_imp {mode mode' : DecodeMode} {fields : List (String × Schema)}
    (h : ∀ f ∈ fields, ∀ path d v, f.2.decodeAt mode path d = .ok v →
      f.2.decodeAt mode' path d = .ok v)
    {path : String} {entries : List (String × Descriptor)} {decoded : List (String × Value)}
    (hdecode : decodeFields mode fields path entries = .ok decoded) :
    decodeFields mode' fields path entries = .ok decoded := by
  induction fields generalizing decoded with
  | nil => exact hdecode
  | cons f fields ih =>
    obtain ⟨name, field⟩ := f
    have hrest := @ih fun g hg => h g (List.mem_cons_of_mem _ hg)
    rw [decodeFields_cons_eq_ok]
    rcases decodeFields_cons_eq_ok.1 hdecode with ⟨d, v, rest, hd, hv, hr, rfl⟩ | ⟨hnone, hr⟩
    · have hfirst := h (name, field) List.mem_cons_self _ _ _ hv
      exact .inl ⟨d, v, rest, hd, hfirst, hrest hr, rfl⟩
    · exact .inr ⟨hnone, hrest hr⟩

/-- Null is decoded as null in both modes, so only other descriptors have to be looked at. -/
theorem decodeAt_lenient_of_not_isNull {s : Schema} {path : String} {d : Descriptor} {v : Value}
    (h : s.decodeAt .strict path d = .ok v)
    (hother : d.isNull = false → s.decodeAt .lenient path d = .ok v) :
    s.decodeAt .lenient path d = .ok v := by
  cases d with
  | null =>
    rw [decodeAt_null] at h ⊢
    exact h
  | _ => exact hother rfl

/-- **The lenient mode only accepts more.** The value is equal too: what the lenient mode passes
over was not there. -/
theorem decodeAt_lenient {s : Schema} {path : String} {d : Descriptor} {v : Value}
    (h : s.decodeAt .strict path d = .ok v) : s.decodeAt .lenient path d = .ok v := by
  induction s using Schema.induction generalizing path d v with
  | scalar m kind =>
    refine decodeAt_lenient_of_not_isNull h fun hd => ?_
    rwa [decodeAt_scalar hd] at h ⊢
  | set m kind =>
    refine decodeAt_lenient_of_not_isNull h fun hd => ?_
    rwa [decodeAt_set hd] at h ⊢
  | map m fields ih =>
    refine decodeAt_lenient_of_not_isNull h fun hd => ?_
    obtain ⟨entries, decoded, rfl, -, hfields, rfl⟩ := (decodeAt_map_eq_ok hd).1 h
    -- the lenient mode does not look at the names
    exact (decodeAt_map_eq_ok hd).2 ⟨entries, decoded, rfl, rfl,
      decodeFields_of_imp (fun f hf path d v => ih f hf) hfields, rfl⟩
  | list m element ih =>
    refine decodeAt_lenient_of_not_isNull h fun hd => ?_
    obtain ⟨items, decoded, rfl, hitems, rfl⟩ := (decodeAt_list_eq_ok hd).1 h
    exact (decodeAt_list_eq_ok hd).2 ⟨items, decoded, rfl,
      decodeItems_of_imp (fun d _ path v => ih) hitems, rfl⟩
  | partitionKey m inner ih =>
    refine decodeAt_lenient_of_not_isNull h fun hd => ?_
    rw [decodeAt_partitionKey hd] at h ⊢
    exact ih h
  | sortKey m inner ih =>
    refine decodeAt_lenient_of_not_isNull h fun hd => ?_
    rw [decodeAt_sortKey hd] at h ⊢
    exact ih h

/-- An item of a map schema is decoded as the map that it is. -/
theorem decodeItem_map {mode : DecodeMode} {m : Modifiers} {fields : List (String × Schema)}
    {item : Item} :
    (map m fields).decodeItem mode item = (map m fields).decode mode (.map item) := by
  rw [decode, decodeAt]
  rfl

/-- An item that was encoded comes back with its map around it, also through marks, and in either
mode: the lenient one only accepts more. -/
theorem decode_map_of_encodeItem {s : Schema} (hnames : s.repeatedName? = none) {v : Value}
    (hyears : ∀ d ∈ s.dates v, 0 ≤ d.year ∧ d.year ≤ 9999) {item : Item}
    (h : s.encodeItem v = .ok item) (mode : DecodeMode) :
    s.decode mode (.map item) = .ok (s.norm v) := by
  have hstrict := (roundTrips hnames hyears "" _ (encodeItem_eq_ok_iff.1 h) "").1
  cases mode with
  | strict => exact hstrict
  | lenient => exact decodeAt_lenient hstrict

/-- An item of a map schema comes back as it is. -/
theorem decodeItem_of_encodeItem {m : Modifiers} {fields : List (String × Schema)}
    (hnames : (map m fields).repeatedName? = none) {v : Value}
    (hyears : ∀ d ∈ (map m fields).dates v, 0 ≤ d.year ∧ d.year ≤ 9999) {item : Item}
    (h : (map m fields).encodeItem v = .ok item) (mode : DecodeMode) :
    (map m fields).decodeItem mode item = .ok ((map m fields).norm v) := by
  rw [decodeItem_map]
  exact decode_map_of_encodeItem hnames hyears h mode

end Schema

end ItemStore
