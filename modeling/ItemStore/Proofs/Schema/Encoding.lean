import ItemStore.Proofs.Descriptor.Same
import ItemStore.Proofs.Entries
import ItemStore.Proofs.Outcome
import ItemStore.Schema.Decode

/-
What encoding and decoding do at a node.

Every node looks for null first and goes by its kind after that. The equations here leave
null out, one for each kind of node, and the two nodes with something inside that is not of
their own kind are inverted: from a map or a list that was encoded it is known what the value
was. Of an encoded map it is said what stands under a name, because that is all that decoding
asks of it; nothing here depends on the order of the entries.

The fields of a map are found by name at every step, so all this is said of schemas without
repeated names. A schema that passed `validate` has none, at any depth.
-/
set_option autoImplicit false

namespace ItemStore

open Entries

theorem encodeNumber_eq_ok {path text : String} {x : Float} :
    encodeNumber path x = .ok text ↔ x.isFinite = true ∧ text = Decimal.plain x := by
  unfold encodeNumber
  split
  · next hx => simp [hx, eq_comm]
  · next hx => simp [hx]

/-! ## Lists -/

/-- In related lists every element has its counterpart at the same position. -/
theorem exists_getElem?_of_forall₂ {α β : Type} {R : α → β → Prop} {xs : List α} {ys : List β}
    (h : List.Forall₂ R xs ys) {k : Nat} {x : α} (hx : xs[k]? = some x) :
    ∃ y, ys[k]? = some y ∧ R x y := by
  induction h generalizing k with
  | nil => cases hx
  | cons hhead _ ih =>
    cases k with
    | zero =>
      cases hx
      exact ⟨_, rfl, hhead⟩
    | succ k => exact ih hx

/-- Items that are encoded alike one by one are encoded alike as a list. -/
theorem encodeItems_congr {α : Type} {encode : String → Value → Except Error α}
    {as bs : List Value}
    (h : List.Forall₂ (fun a b => ∀ place, encode place a = encode place b) as bs)
    (path : String) (index : Nat) :
    encodeItems encode path index as = encodeItems encode path index bs := by
  induction h generalizing index with
  | nil => rfl
  | cons hfirst _ ih => rw [encodeItems, encodeItems, hfirst, ih]

/-- Every item was encoded somewhere. -/
theorem forall₂_of_encodeItems {α : Type} {encode : String → Value → Except Error α}
    {path : String} {index : Nat} {items : List Value} {encoded : List α}
    (h : encodeItems encode path index items = .ok encoded) :
    List.Forall₂ (fun v a => ∃ place, encode place v = .ok a) items encoded := by
  induction items generalizing index encoded with
  | nil =>
    cases h
    exact .nil
  | cons v items ih =>
    obtain ⟨first, hfirst, h⟩ := bind_eq_ok.1 h
    obtain ⟨rest, hrest, he⟩ := bind_eq_ok.1 h
    cases he
    exact .cons ⟨_, hfirst⟩ (ih hrest)

/-- Every element was decoded somewhere. -/
theorem forall₂_of_decodeItems {α : Type} {decode : String → α → Except Error Value}
    {path : String} {index : Nat} {items : List α} {decoded : List Value}
    (h : decodeItems decode path index items = .ok decoded) :
    List.Forall₂ (fun a v => ∃ place, decode place a = .ok v) items decoded := by
  induction items generalizing index decoded with
  | nil =>
    cases h
    exact .nil
  | cons a items ih =>
    obtain ⟨first, hfirst, h⟩ := bind_eq_ok.1 h
    obtain ⟨rest, hrest, he⟩ := bind_eq_ok.1 h
    cases he
    exact .cons ⟨_, hfirst⟩ (ih hrest)

/-- Elements that are decoded alike one by one, even in two ways, are decoded alike as a list. -/
theorem decodeItems_congr {α β : Type} {decode : String → α → Except Error Value}
    {decode' : String → β → Except Error Value} {as : List α} {bs : List β}
    (h : List.Forall₂ (fun a b => ∀ place, decode place a = decode' place b) as bs)
    (path : String) (index : Nat) :
    decodeItems decode path index as = decodeItems decode' path index bs := by
  induction h generalizing index with
  | nil => rfl
  | cons hfirst _ ih => rw [decodeItems, decodeItems, hfirst, ih]

namespace Schema

/-! ## Going down a schema -/

/-- A property of schemas holds of all of them if a map has it as soon as its fields do. -/
theorem induction {P : Schema → Prop} (scalar : ∀ m kind, P (.scalar m kind))
    (set : ∀ m kind, P (.set m kind))
    (map : ∀ m fields, (∀ f ∈ fields, P f.2) → P (.map m fields))
    (list : ∀ m element, P element → P (.list m element))
    (partitionKey : ∀ m inner, P inner → P (.partitionKey m inner))
    (sortKey : ∀ m inner, P inner → P (.sortKey m inner)) (s : Schema) : P s := by
  refine @Schema.rec P (fun fields => ∀ f ∈ fields, P f.2) (fun f => P f.2) scalar set map list
    partitionKey sortKey ?_ ?_ ?_ s
  · intro f hf
    cases hf
  · intro f fields hf hfields g hg
    rcases List.mem_cons.1 hg with rfl | hg
    · exact hf
    · exact hfields g hg
  · exact fun _ _ h => h

/-- Fields without a repeated name have different names, and none is repeated inside. -/
theorem repeatedNameAmong?_eq_none {seen : List String} {fields : List (String × Schema)}
    (h : repeatedNameAmong? seen fields = none) :
    (keys fields).Nodup ∧ (∀ name ∈ keys fields, name ∉ seen) ∧
      ∀ f ∈ fields, f.2.repeatedName? = none := by
  induction fields generalizing seen with
  | nil => exact ⟨List.nodup_nil, by simp [keys], by simp⟩
  | cons f fields ih =>
    obtain ⟨name, node⟩ := f
    rw [repeatedNameAmong?] at h
    split at h
    · cases h
    · next hname =>
      -- the name was not seen before, and from here on it counts as seen
      obtain ⟨hnode, hrest⟩ := Option.or_eq_none_iff.1 h
      obtain ⟨hnodup, hseen, hnodes⟩ := ih hrest
      have hkeys : keys ((name, node) :: fields) = name :: keys fields := rfl
      rw [hkeys]
      refine ⟨List.nodup_cons.2 ⟨fun hmem => hseen name hmem (by simp), hnodup⟩, ?_, ?_⟩
      · intro n hn
        rcases List.mem_cons.1 hn with rfl | hn
        · exact hname
        · exact fun hmem => hseen n hn (List.mem_cons_of_mem _ hmem)
      · intro f hf
        rcases List.mem_cons.1 hf with rfl | hf
        · exact hnode
        · exact hnodes f hf

theorem validate_eq_ok_iff {s built : Schema} :
    s.validate = .ok built ↔ s.repeatedName? = none ∧ built = s := by
  rw [validate]
  cases s.repeatedName? with
  | none => simp [eq_comm]
  | some name => simp

theorem repeatedName?_eq_none_of_validate {s s' : Schema} (h : s.validate = .ok s') :
    s.repeatedName? = none := (validate_eq_ok_iff.1 h).1

/-! ## Nodes -/

section Nodes

variable {m : Modifiers} {path : String} {v : Value} {d : Descriptor}

theorem encodeAt_null {s : Schema} :
    s.encodeAt path .null =
      if s.isNullable then .ok .null else .error (.valueNotNullable path) := by
  cases s <;> rfl

theorem encodeAt_scalar {kind : ScalarKind} (hv : v.isNull = false) :
    (scalar m kind).encodeAt path v = kind.encode path v := by
  rw [encodeAt, hv]
  rfl

theorem encodeAt_set {kind : SetKind} (hv : v.isNull = false) :
    (set m kind).encodeAt path v = kind.encode path v := by
  rw [encodeAt, hv]
  rfl

theorem encodeAt_partitionKey {inner : Schema} (hv : v.isNull = false) :
    (partitionKey m inner).encodeAt path v = inner.encodeAt path v := by
  rw [encodeAt, hv]
  rfl

theorem encodeAt_sortKey {inner : Schema} (hv : v.isNull = false) :
    (sortKey m inner).encodeAt path v = inner.encodeAt path v := by
  rw [encodeAt, hv]
  rfl

theorem encodeAt_map {fields : List (String × Schema)} {entries : List (String × Value)} :
    (map m fields).encodeAt path (.map entries) =
      (encodeFields fields path entries).map .map := by
  rw [encodeAt]
  rfl

theorem encodeAt_list {element : Schema} {items : List Value} :
    (list m element).encodeAt path (.list items) =
      (encodeItems element.encodeAt path 0 items).map .list := by
  rw [encodeAt]
  rfl

/-- Apart from null, only maps are encoded as maps. -/
theorem encodeAt_map_eq_ok {fields : List (String × Schema)} (hv : v.isNull = false) :
    (map m fields).encodeAt path v = .ok d ↔ ∃ entries encoded, v = .map entries ∧
      encodeFields fields path entries = .ok encoded ∧ d = .map encoded := by
  cases v with
  | map entries =>
    rw [encodeAt_map, map_eq_ok]
    simp [eq_comm]
  | null => cases hv
  | _ => simp [encodeAt, Value.isNull]

/-- Apart from null, only lists are encoded as lists. -/
theorem encodeAt_list_eq_ok {element : Schema} (hv : v.isNull = false) :
    (list m element).encodeAt path v = .ok d ↔ ∃ items encoded, v = .list items ∧
      encodeItems element.encodeAt path 0 items = .ok encoded ∧ d = .list encoded := by
  cases v with
  | list items =>
    rw [encodeAt_list, map_eq_ok]
    simp [eq_comm]
  | null => cases hv
  | _ => simp [encodeAt, Value.isNull]

end Nodes

/-- A scalar is encoded as neither null nor anything that holds other descriptors. -/
theorem plain_of_encode_scalar {kind : ScalarKind} {path : String} {v : Value} {d : Descriptor}
    (h : kind.encode path v = .ok d) : d.isNull = false ∧ d.isContainer = false := by
  unfold ScalarKind.encode at h
  split at h
  case h_2 | h_4 =>
    obtain ⟨_, _, rfl⟩ := map_eq_ok.1 h
    exact ⟨rfl, rfl⟩
  all_goals
    cases h
    try exact ⟨rfl, rfl⟩

theorem plain_of_encode_set {kind : SetKind} {path : String} {v : Value} {d : Descriptor}
    (h : kind.encode path v = .ok d) : d.isNull = false ∧ d.isContainer = false := by
  cases v with
  | list items => cases kind <;> (obtain ⟨_, _, rfl⟩ := map_eq_ok.1 h; exact ⟨rfl, rfl⟩)
  | _ => cases h

/-- Only null is encoded as null. -/
theorem isNull_of_encodeAt {s : Schema} {path : String} {v : Value} {d : Descriptor}
    (h : s.encodeAt path v = .ok d) (hv : v.isNull = false) : d.isNull = false := by
  induction s using Schema.induction generalizing path v d with
  | scalar m kind =>
    rw [encodeAt_scalar hv] at h
    exact (plain_of_encode_scalar h).1
  | set m kind =>
    rw [encodeAt_set hv] at h
    exact (plain_of_encode_set h).1
  | map m fields ih =>
    obtain ⟨entries, encoded, -, -, rfl⟩ := (encodeAt_map_eq_ok hv).1 h
    rfl
  | list m element ih =>
    obtain ⟨items, encoded, -, -, rfl⟩ := (encodeAt_list_eq_ok hv).1 h
    rfl
  | partitionKey m inner ih =>
    rw [encodeAt_partitionKey hv] at h
    exact ih h hv
  | sortKey m inner ih =>
    rw [encodeAt_sortKey hv] at h
    exact ih h hv

/-! ### Decoding -/

section Decoding

variable {mode : DecodeMode} {m : Modifiers} {path : String} {d : Descriptor}

theorem decodeAt_null (s : Schema) : s.decodeAt mode path .null = .ok .null := by
  cases s <;> rfl

theorem decodeAt_scalar {kind : ScalarKind} (hd : d.isNull = false) :
    (scalar m kind).decodeAt mode path d = kind.decode path d := by
  rw [decodeAt, hd]
  rfl

theorem decodeAt_set {kind : SetKind} (hd : d.isNull = false) :
    (set m kind).decodeAt mode path d = kind.decode path d := by
  rw [decodeAt, hd]
  rfl

theorem decodeAt_map {fields : List (String × Schema)} {entries : List (String × Descriptor)} :
    (map m fields).decodeAt mode path (.map entries) =
      mode.checkNames fields path entries >>= fun _ =>
        (decodeFields mode fields path entries).map .map := by
  rw [decodeAt]
  cases decodeFields mode fields path entries with
  | error e => rfl
  | ok decoded => rfl

theorem decodeAt_list {element : Schema} {items : List Descriptor} :
    (list m element).decodeAt mode path (.list items) =
      (decodeItems (element.decodeAt mode) path 0 items).map .list := by
  rw [decodeAt]
  rfl

theorem decodeAt_partitionKey {inner : Schema} (hd : d.isNull = false) :
    (partitionKey m inner).decodeAt mode path d = inner.decodeAt mode path d := by
  rw [decodeAt, hd]
  rfl

theorem decodeAt_sortKey {inner : Schema} (hd : d.isNull = false) :
    (sortKey m inner).decodeAt mode path d = inner.decodeAt mode path d := by
  rw [decodeAt, hd]
  rfl

end Decoding

/-! ## Maps -/

/-- Only what a field finds under its name decides about what is encoded. -/
theorem encodeFields_congr {fields : List (String × Schema)} {path : String}
    {entries entries' : List (String × Value)}
    (h : ∀ f ∈ fields, (get? f.1 entries).map (f.2.encodeAt (placeOf path f.1)) =
      (get? f.1 entries').map (f.2.encodeAt (placeOf path f.1))) :
    encodeFields fields path entries = encodeFields fields path entries' := by
  induction fields with
  | nil => rfl
  | cons f fields ih =>
    obtain ⟨name, field⟩ := f
    obtain ⟨hfirst, hrest⟩ := List.forall_mem_cons.1 h
    rw [encodeFields, encodeFields, ih hrest]
    -- both maps have the name or none of them has it
    cases hv : get? name entries with
    | none =>
      cases hw : get? name entries' with
      | none => rfl
      | some w => simp [hv, hw] at hfirst
    | some v =>
      cases hw : get? name entries' with
      | none => simp [hv, hw] at hfirst
      | some w =>
        have hsame :
            field.encodeAt (placeOf path name) v = field.encodeAt (placeOf path name) w := by
          simpa [hv, hw] using hfirst
        dsimp only
        rw [hsame]

/-- Only what a field finds under its name decides about what is decoded. -/
theorem decodeFields_congr {mode mode' : DecodeMode} {fields : List (String × Schema)}
    {path : String} {entries entries' : List (String × Descriptor)}
    (h : ∀ f ∈ fields, (get? f.1 entries).map (f.2.decodeAt mode (placeOf path f.1)) =
      (get? f.1 entries').map (f.2.decodeAt mode' (placeOf path f.1))) :
    decodeFields mode fields path entries = decodeFields mode' fields path entries' := by
  induction fields with
  | nil => rfl
  | cons f fields ih =>
    obtain ⟨name, field⟩ := f
    obtain ⟨hfirst, hrest⟩ := List.forall_mem_cons.1 h
    rw [decodeFields, decodeFields, ih hrest]
    cases hd : get? name entries with
    | none =>
      cases he : get? name entries' with
      | none => rfl
      | some e => simp [hd, he] at hfirst
    | some d =>
      cases he : get? name entries' with
      | none => simp [hd, he] at hfirst
      | some e =>
        have hsame : field.decodeAt mode (placeOf path name) d =
            field.decodeAt mode' (placeOf path name) e := by
          simpa [hd, he] using hfirst
        dsimp only
        rw [hsame]

/-- Strict decoding accepts a map with no other keys than those that are declared. -/
theorem checkNames_strict_eq_ok {fields : List (String × Schema)} {path : String}
    {entries : List (String × Descriptor)} :
    DecodeMode.strict.checkNames fields path entries = .ok () ↔
      ∀ name ∈ keys entries, name ∈ keys fields := by
  have hhas : ∀ name, ¬ (!has name fields) = true ↔ name ∈ keys fields := by
    intro name
    rw [Bool.not_eq_true, Bool.not_eq_false', has, Option.isSome_iff_exists, mem_keys_iff]
  simp only [← hhas, ← List.find?_eq_none, DecodeMode.checkNames]
  cases (keys entries).find? fun name => !has name fields with
  | none => simp
  | some name => simp

section Fields

variable {name : String} {field : Schema} {fields : List (String × Schema)} {path : String}
  {entries : List (String × Value)} {encoded : List (String × Descriptor)}

/-- A field is encoded if it is present, and left out if it is absent and optional. -/
theorem encodeFields_cons_eq_ok :
    encodeFields ((name, field) :: fields) path entries = .ok encoded ↔
      (∃ v d rest, get? name entries = some v ∧ field.encodeAt (placeOf path name) v = .ok d ∧
        encodeFields fields path entries = .ok rest ∧ encoded = (name, d) :: rest) ∨
      get? name entries = none ∧ field.isOptional = true ∧
        encodeFields fields path entries = .ok encoded := by
  rw [encodeFields]
  -- whether the map has the field decides which half of the statement is at issue
  cases hv : get? name entries with
  | some v =>
    simp only [bind_eq_ok]
    constructor
    · rintro ⟨d, hd, rest, hrest, he⟩
      cases he
      exact .inl ⟨v, d, rest, rfl, hd, hrest, rfl⟩
    · rintro (⟨v', d, rest, hv', hd, hrest, rfl⟩ | ⟨hnone, -⟩)
      · cases hv'
        exact ⟨d, hd, rest, hrest, rfl⟩
      · cases hnone
  | none =>
    by_cases hoptional : field.isOptional = true
    · simp [hoptional]
    · simp [hoptional]

/-- Only what is declared and present is encoded. -/
theorem mem_keys_of_encodeFields (h : encodeFields fields path entries = .ok encoded)
    (hname : name ∈ keys encoded) : name ∈ keys fields ∧ ∃ v, get? name entries = some v := by
  induction fields generalizing encoded with
  | nil =>
    cases h
    cases hname
  | cons f fields ih =>
    obtain ⟨n, first⟩ := f
    have hkeys : keys ((n, first) :: fields) = n :: keys fields := rfl
    rw [hkeys]
    rcases encodeFields_cons_eq_ok.1 h with ⟨v, d, rest, hv, -, hrest, rfl⟩ | ⟨-, -, hrest⟩
    · rcases List.mem_cons.1 hname with rfl | hname
      · exact ⟨List.mem_cons_self, v, hv⟩
      · obtain ⟨hmem, hpresent⟩ := ih hrest hname
        exact ⟨List.mem_cons_of_mem _ hmem, hpresent⟩
    · obtain ⟨hmem, hpresent⟩ := ih hrest hname
      exact ⟨List.mem_cons_of_mem _ hmem, hpresent⟩

/-- Nothing is encoded under a name that the map does not have. -/
theorem get?_eq_none_of_encodeFields (h : encodeFields fields path entries = .ok encoded)
    (hnone : get? name entries = none) : get? name encoded = none := by
  refine get?_eq_none_iff.2 fun hmem => ?_
  obtain ⟨v, hv⟩ := (mem_keys_of_encodeFields h hmem).2
  rw [hv] at hnone
  cases hnone

/-- What is declared and present is encoded under its name, by the first field of the name. -/
theorem get?_of_encodeFields_of_get? (h : encodeFields fields path entries = .ok encoded)
    (hfield : get? name fields = some field) {v : Value} (hv : get? name entries = some v) :
    ∃ d, get? name encoded = some d ∧ field.encodeAt (placeOf path name) v = .ok d := by
  induction fields generalizing encoded with
  | nil => cases hfield
  | cons f fields ih =>
    obtain ⟨n, first⟩ := f
    by_cases hn : n = name
    · rw [get?, if_pos hn] at hfield
      cases hfield
      subst hn
      rcases encodeFields_cons_eq_ok.1 h with ⟨v', d, rest, hv', hd, -, rfl⟩ | ⟨hnone, -⟩
      · rw [hv] at hv'
        cases hv'
        exact ⟨d, by rw [get?, if_pos rfl], hd⟩
      · rw [hv] at hnone
        cases hnone
    -- a field further on is not hidden by one that has another name
    · rw [get?, if_neg hn] at hfield
      rcases encodeFields_cons_eq_ok.1 h with ⟨-, d, rest, -, -, hrest, rfl⟩ | ⟨-, -, hrest⟩
      · rw [get?, if_neg hn]
        exact ih hrest hfield
      · exact ih hrest hfield

/-- Where no name is repeated, every field is the first one of its name. -/
theorem get?_of_encodeFields (hnodup : (keys fields).Nodup)
    (h : encodeFields fields path entries = .ok encoded) (hfield : (name, field) ∈ fields)
    {v : Value} (hv : get? name entries = some v) :
    ∃ d, get? name encoded = some d ∧ field.encodeAt (placeOf path name) v = .ok d :=
  get?_of_encodeFields_of_get? h (get?_of_mem hnodup hfield) hv

/-- Nothing is encoded that strict decoding does not know. -/
theorem checkNames_of_encodeFields (h : encodeFields fields path entries = .ok encoded)
    (place : String) :
    DecodeMode.strict.checkNames fields place encoded = .ok () :=
  checkNames_strict_eq_ok.2 fun _ hname => (mem_keys_of_encodeFields h hname).1

/-- An item is a value that is encoded as a map, without that map. -/
theorem encodeItem_eq_ok_iff {s : Schema} {v : Value} {item : Item} :
    s.encodeItem v = .ok item ↔ s.encode v = .ok (.map item) := by
  rw [encodeItem, bind_eq_ok]
  constructor
  · rintro ⟨d, hencode, hitem⟩
    cases d with
    | map entries =>
      cases hitem
      exact hencode
    | _ => cases hitem
  · intro hencode
    exact ⟨.map item, hencode, rfl⟩

/-- Only maps are encoded as items. -/
theorem encodeItem_map_eq_ok {m : Modifiers} {v : Value} {item : Item} :
    (map m fields).encodeItem v = .ok item ↔
      ∃ entries, v = .map entries ∧ encodeFields fields "" entries = .ok item := by
  rw [encodeItem_eq_ok_iff]
  constructor
  · intro hencode
    cases hv : v.isNull with
    | true =>
      -- null is encoded as null, which is no item
      have hnull : v = .null := by
        cases v with
        | null => rfl
        | _ => cases hv
      rw [hnull, encode, encodeAt_null] at hencode
      split at hencode
      · cases hencode
      · cases hencode
    | false =>
      obtain ⟨entries, encoded, rfl, hfields, he⟩ := (encodeAt_map_eq_ok hv).1 hencode
      cases he
      exact ⟨entries, rfl, hfields⟩
  · rintro ⟨entries, rfl, hfields⟩
    exact (encodeAt_map_eq_ok rfl).2 ⟨entries, item, rfl, hfields, rfl⟩

end Fields

end Schema

end ItemStore
