import ItemStore.Proofs.Schema.Places

/-
Parts of a descriptor.

Who reads an item may ask for some of its attributes only, and the store then leaves the others
out, at whatever depth they stand. A selection says which attributes stay; it is any function of
the place, so any entries of the maps inside may be missing afterwards. The items of a list all
stay: to take one out would move those behind it.

Decoding a part gives the part of what is decoded. Nothing that is decoded depends on what stands
beside it, and no field has to be present: what a schema says about attributes that may be missing
is a rule about what is written. So a value has the maps that its descriptor has, each of them with
the keys that it has there, put into the order in which they are declared.
-/
set_option autoImplicit false

namespace ItemStore

open Entries

/-! ## Selections -/

/-- Which entries stay, by the places where they stand. It is a function and not a list of paths,
so it may keep an entry in one item of a list and drop it in another. -/
abbrev Selection := Place → Bool

/-- The selection as it goes on below a branch. A selection is asked about places from the root,
so going down means to put the branch in front. -/
def Selection.under (keep : Selection) (b : Branch) : Selection := fun place => keep (b :: place)

/-- What is done under a key: the entry goes, or it stays and the selection goes on below it. -/
def Selection.choice {α : Type} (part : Selection → α → α) (keep : Selection) (key : String) :
    Option (α → α) :=
  if keep [.entry key] then some (part (keep.under (.entry key))) else none

namespace Descriptor

mutual

/-- The descriptor without the entries that the selection does not keep. -/
def part (keep : Selection) : Descriptor → Descriptor
  | .list items => .list (partOfItems keep 0 items)
  | .map entries => .map (partOfEntries keep entries)
  | d => d

/-- The items of a list, the first of which has the given position. -/
def partOfItems (keep : Selection) (index : Nat) : List Descriptor → List Descriptor
  | [] => []
  | d :: items => d.part (keep.under (.item index)) :: partOfItems keep (index + 1) items

/-- The entries of a map. -/
def partOfEntries (keep : Selection) : List (String × Descriptor) → List (String × Descriptor)
  | [] => []
  | (key, d) :: entries =>
    if keep [.entry key] then
      (key, d.part (keep.under (.entry key))) :: partOfEntries keep entries
    else partOfEntries keep entries

end

theorem partOfEntries_eq (keep : Selection) (entries : List (String × Descriptor)) :
    partOfEntries keep entries = pick (keep.choice part) entries := by
  induction entries with
  | nil => rfl
  | cons e entries ih =>
    obtain ⟨key, d⟩ := e
    rw [partOfEntries, pick, Selection.choice, ih]
    by_cases hkey : keep [.entry key] = true
    · rw [if_pos hkey, if_pos hkey]
    · rw [if_neg hkey, if_neg hkey]

theorem get?_partOfEntries (keep : Selection) (key : String)
    (entries : List (String × Descriptor)) : get? key (partOfEntries keep entries) =
      if keep [.entry key] then (get? key entries).map (part (keep.under (.entry key)))
      else none := by
  rw [partOfEntries_eq, get?_pick, Selection.choice]
  by_cases hkey : keep [.entry key] = true
  · rw [if_pos hkey, if_pos hkey, Option.bind_some]
  · rw [if_neg hkey, if_neg hkey, Option.bind_none]

/-- No key is added. -/
theorem mem_keys_of_mem_keys_partOfEntries {keep : Selection} {key : String}
    {entries : List (String × Descriptor)} (h : key ∈ keys (partOfEntries keep entries)) :
    key ∈ keys entries := by
  rw [partOfEntries_eq, keys_pick] at h
  exact (List.mem_filter.1 h).1

/-- What holds nothing else stays as it is. -/
theorem part_of_plain {d : Descriptor} (h : d.isContainer = false) (keep : Selection) :
    d.part keep = d := by
  cases d with
  | list items => cases h
  | map entries => cases h
  | _ => rfl

end Descriptor

namespace Value

mutual

/-- The value without the entries that the selection does not keep. -/
def part (keep : Selection) : Value → Value
  | .list items => .list (partOfItems keep 0 items)
  | .map entries => .map (partOfEntries keep entries)
  | v => v

/-- The items of a list, the first of which has the given position. -/
def partOfItems (keep : Selection) (index : Nat) : List Value → List Value
  | [] => []
  | v :: items => v.part (keep.under (.item index)) :: partOfItems keep (index + 1) items

/-- The entries of a map. -/
def partOfEntries (keep : Selection) : List (String × Value) → List (String × Value)
  | [] => []
  | (key, v) :: entries =>
    if keep [.entry key] then
      (key, v.part (keep.under (.entry key))) :: partOfEntries keep entries
    else partOfEntries keep entries

end

/-- What holds nothing else stays as it is. -/
theorem part_of_plain {v : Value} (h : v.isContainer = false) (keep : Selection) :
    v.part keep = v := by
  cases v with
  | list items => cases h
  | map entries => cases h
  | _ => rfl

theorem partOfItems_of_plain {items : List Value}
    (h : (items.all fun v => !v.isContainer) = true) (keep : Selection) (index : Nat) :
    partOfItems keep index items = items := by
  induction items generalizing index with
  | nil => rfl
  | cons v items ih =>
    rw [List.all_cons, Bool.and_eq_true, Bool.not_eq_true'] at h
    rw [partOfItems, part_of_plain h.1, ih h.2]

/-- So does a list of what holds nothing else. -/
theorem part_of_isFlat {v : Value} (h : v.isFlat = true) (keep : Selection) : v.part keep = v := by
  cases v with
  | list items => rw [part, partOfItems_of_plain h]
  | map entries => cases h
  | _ => rfl

end Value

namespace Schema

/-! ## Decoding a part -/

/-- The part of whatever a node decodes is decoded to the part of the value. Failures are left
out, since a part may decode although the whole does not. -/
def DecodesParts (mode : DecodeMode) (s : Schema) : Prop :=
  ∀ keep path d v, s.decodeAt mode path d = .ok v →
    s.decodeAt mode path (d.part keep) = .ok (v.part keep)

variable {mode : DecodeMode}

/-- Null is decoded as null, and both stay as they are. -/
theorem decodesParts_of_not_isNull {s : Schema}
    (h : ∀ keep path d v, d.isNull = false → s.decodeAt mode path d = .ok v →
      s.decodeAt mode path (d.part keep) = .ok (v.part keep)) : s.DecodesParts mode := by
  intro keep path d v hdecode
  cases d with
  | null =>
    have hnull : .ok .null = Except.ok v := (decodeAt_null s).symm.trans hdecode
    cases hnull
    exact hdecode
  | _ => exact h keep path _ v rfl hdecode

/-- A part is null only if the whole is. -/
theorem isNull_part (keep : Selection) (d : Descriptor) : (d.part keep).isNull = d.isNull := by
  cases d with
  | _ => rfl

theorem checkNames_partOfEntries {fields : List (String × Schema)} {path : String}
    {entries : List (String × Descriptor)} (h : mode.checkNames fields path entries = .ok ())
    (keep : Selection) :
    mode.checkNames fields path (Descriptor.partOfEntries keep entries) = .ok () := by
  cases mode with
  | lenient => rfl
  | strict =>
    rw [checkNames_strict_eq_ok] at h ⊢
    exact fun name hname => h name (Descriptor.mem_keys_of_mem_keys_partOfEntries hname)

theorem decodeFields_partOfEntries {fields : List (String × Schema)}
    (hfields : ∀ f ∈ fields, f.2.DecodesParts mode) {path : String}
    {entries : List (String × Descriptor)} {decoded : List (String × Value)}
    (h : decodeFields mode fields path entries = .ok decoded) (keep : Selection) :
    decodeFields mode fields path (Descriptor.partOfEntries keep entries) =
      .ok (Value.partOfEntries keep decoded) := by
  induction fields generalizing decoded with
  | nil =>
    cases h
    rfl
  | cons f fields ih =>
    obtain ⟨name, field⟩ := f
    obtain ⟨hfirst, hrest⟩ := List.forall_mem_cons.1 hfields
    rw [decodeFields_cons_eq_ok, Descriptor.get?_partOfEntries]
    rcases decodeFields_cons_eq_ok.1 h with ⟨d, v, rest, hd, hv, hr, rfl⟩ | ⟨hnone, hr⟩
    · rw [Value.partOfEntries, hd]
      by_cases hname : keep [.entry name] = true
      · rw [if_pos hname, if_pos hname, Option.map_some]
        exact .inl ⟨_, _, _, rfl, hfirst _ _ d v hv, ih hrest hr, rfl⟩
      · rw [if_neg hname, if_neg hname]
        exact .inr ⟨rfl, ih hrest hr⟩
    · rw [hnone, Option.map_none, ite_self]
      exact .inr ⟨rfl, ih hrest hr⟩

theorem decodeItems_partOfItems {element : Schema} (helement : element.DecodesParts mode)
    {path : String} {index : Nat} {items : List Descriptor} {decoded : List Value}
    (h : decodeItems (element.decodeAt mode) path index items = .ok decoded) (keep : Selection)
    (position : Nat) :
    decodeItems (element.decodeAt mode) path index (Descriptor.partOfItems keep position items) =
      .ok (Value.partOfItems keep position decoded) := by
  induction items generalizing index position decoded with
  | nil =>
    cases h
    rfl
  | cons d items ih =>
    obtain ⟨first, hfirst, h⟩ := bind_eq_ok.1 h
    obtain ⟨rest, hrest, he⟩ := bind_eq_ok.1 h
    cases he
    exact bind_eq_ok.2 ⟨_, helement _ _ d first hfirst, bind_eq_ok.2 ⟨_, ih hrest _, rfl⟩⟩

/-- **Parts are decoded like the whole.** It holds for every selection at once, which the
induction needs because the selection changes on the way down. -/
theorem decodesParts (mode : DecodeMode) (s : Schema) : s.DecodesParts mode := by
  induction s using Schema.induction with
  | scalar m kind =>
    refine decodesParts_of_not_isNull fun keep path d v hd h => ?_
    have hplain := h
    rw [decodeAt_scalar hd] at hplain
    obtain ⟨hdescriptor, hflat⟩ := plain_of_decode_scalar hplain
    rw [Descriptor.part_of_plain hdescriptor, Value.part_of_isFlat hflat, h]
  | set m kind =>
    refine decodesParts_of_not_isNull fun keep path d v hd h => ?_
    have hplain := h
    rw [decodeAt_set hd] at hplain
    obtain ⟨hdescriptor, hflat⟩ := plain_of_decode_set hplain
    rw [Descriptor.part_of_plain hdescriptor, Value.part_of_isFlat hflat, h]
  | map m fields ih =>
    refine decodesParts_of_not_isNull fun keep path d v hd h => ?_
    obtain ⟨entries, decoded, rfl, hnames, hfields, rfl⟩ := (decodeAt_map_eq_ok hd).1 h
    exact (decodeAt_map_eq_ok rfl).2 ⟨_, _, rfl, checkNames_partOfEntries hnames keep,
      decodeFields_partOfEntries ih hfields keep, rfl⟩
  | list m element ih =>
    refine decodesParts_of_not_isNull fun keep path d v hd h => ?_
    obtain ⟨items, decoded, rfl, hitems, rfl⟩ := (decodeAt_list_eq_ok hd).1 h
    exact (decodeAt_list_eq_ok rfl).2 ⟨_, _, rfl, decodeItems_partOfItems ih hitems keep 0, rfl⟩
  | partitionKey m inner ih =>
    refine decodesParts_of_not_isNull fun keep path d v hd h => ?_
    rw [decodeAt_partitionKey hd] at h
    rw [decodeAt_partitionKey ((isNull_part keep d).trans hd)]
    exact ih keep path d v h
  | sortKey m inner ih =>
    refine decodesParts_of_not_isNull fun keep path d v hd h => ?_
    rw [decodeAt_sortKey hd] at h
    rw [decodeAt_sortKey ((isNull_part keep d).trans hd)]
    exact ih keep path d v h

/-- A part of an item is decoded as a part of the map that it is. -/
theorem decodeItem_partOfEntries {s : Schema} {item : Item} {v : Value}
    (h : s.decodeItem mode item = .ok v) (keep : Selection) :
    s.decodeItem mode (Descriptor.partOfEntries keep item) = .ok (v.part keep) := by
  cases s with
  | map m fields =>
    rw [decodeItem_map] at h ⊢
    exact decodesParts mode (map m fields) keep "" (.map item) v h
  | _ => cases h

/-! ## The maps of a decoded value -/

/-- The value has maps where the descriptor has them. Their keys are those that the descriptor has
there, in the order of the declaration. Nothing is made up and nothing is left out, and the order
is that of the schema. -/
structure Mirrors (s : Schema) (d : Descriptor) (v : Value) : Prop where
  maps : ∀ place, (∃ entries, d.inside? place = some (.map entries)) ↔
    ∃ decoded, v.inside? place = some (.map decoded)
  names : ∀ place entries decoded, d.inside? place = some (.map entries) →
    v.inside? place = some (.map decoded) → ∀ key, key ∈ keys decoded ↔ key ∈ keys entries
  order : ∀ place entries decoded, d.inside? place = some (.map entries) →
    v.inside? place = some (.map decoded) →
      ∃ node m fields, s.inside? place = some node ∧ node.unmarked = .map m fields ∧
        keys decoded = (keys fields).filter fun key => has key entries

/-- What is decoded strictly mirrors the descriptor. -/
theorem mirrors_of_decode {s : Schema} {d : Descriptor} {v : Value}
    (h : s.decode .strict d = .ok v) : s.Mirrors d v := by
  -- what stands at the place of a map is decoded by a map, and strictly
  have hmap : ∀ place entries, d.inside? place = some (.map entries) →
      ∃ node m fields decoded path, s.inside? place = some node ∧ node.unmarked = .map m fields ∧
        v.inside? place = some (.map decoded) ∧
        DecodeMode.strict.checkNames fields path entries = .ok () ∧
        decodeFields .strict fields path entries = .ok decoded := by
    intro place entries he
    obtain ⟨node, w, path, hnode, hw, hdecode⟩ := exists_inside?_of_decodeAt h he
    cases decodes_of_decodeAt hdecode with
    | plain hd hv => cases hd
    | map hunmarked hnames hfields =>
      exact ⟨node, _, _, _, path, hnode, hunmarked, hw, hnames, hfields⟩
  refine ⟨fun place => ⟨?_, ?_⟩, ?_, ?_⟩
  · rintro ⟨entries, he⟩
    obtain ⟨-, -, -, decoded, -, -, -, hw, -⟩ := hmap place entries he
    exact ⟨decoded, hw⟩
  · rintro ⟨decoded, hw⟩
    obtain ⟨node, e, path, -, he, hdecode⟩ := exists_inside?_of_decodeAt_of_isContainer h hw rfl
    cases decodes_of_decodeAt hdecode with
    | plain hd hv => cases hv
    | map hunmarked hnames hfields => exact ⟨_, he⟩
  · intro place entries decoded he hw key
    obtain ⟨-, -, fields, decoded', _, -, -, hw', hnames, hfields⟩ := hmap place entries he
    rw [hw] at hw'
    cases hw'
    rw [keys_of_decodeFields hfields, List.mem_filter, has, Option.isSome_iff_exists,
      ← mem_keys_iff]
    -- the strict mode saw to it that all keys are declared
    exact ⟨fun hkey => hkey.2, fun hkey => ⟨checkNames_strict_eq_ok.1 hnames key hkey, hkey⟩⟩
  · intro place entries decoded he hw
    obtain ⟨node, m, fields, decoded', _, hnode, hunmarked, hw', -, hfields⟩ :=
      hmap place entries he
    rw [hw] at hw'
    cases hw'
    exact ⟨node, m, fields, hnode, hunmarked, keys_of_decodeFields hfields⟩

/-- **Decoding is partial and local.** What the strict mode makes of a descriptor mirrors it: the
maps of the value have the keys that the maps of the descriptor have, in declared order, and no
others. And where any entries are deleted, at any depth, the strict mode makes of what is left the
value without the same entries. So a part of an item is decoded to the same part of the value. It
asks nothing of the schema, not even that names are not repeated. The second part is the same for
items that are decoded as such. -/
theorem parts_decode (s : Schema) :
    (∀ d v, s.decode .strict d = .ok v → s.Mirrors d v ∧
      ∀ keep, s.decode .strict (d.part keep) = .ok (v.part keep)) ∧
    ∀ item v, s.decodeItem .strict item = .ok v →
      ∀ keep, s.decodeItem .strict (Descriptor.partOfEntries keep item) = .ok (v.part keep) := by
  constructor
  · intro d v h
    exact ⟨mirrors_of_decode h, fun keep => decodesParts .strict s keep "" d v h⟩
  · intro item v h keep
    exact decodeItem_partOfEntries h keep

/-- What was returned of a reading, in no particular order. -/
def returnedReading : Item :=
  [("note", .string "ice"), ("samples", .list [.map [("level", .null)]]),
    ("gauge", .string "north")]

/-- Everything except the note and the levels of the samples. -/
def withoutLevels : Selection
  | [.entry name] => name != "note"
  | [.entry "samples", .item _, .entry name] => name != "level"
  | _ => true

/-- Neither the instant nor the level of the reading is missed, though both are required. Without
the note and the levels it is decoded as before, and the sample is still there. -/
theorem returnedReading_decodes_parts :
    gauge.decodeItem .strict returnedReading = .ok (.map
      [("gauge", .string "north"), ("samples", .list [.map [("level", .null)]]),
        ("note", .string "ice")]) ∧
    gauge.decode .strict ((Descriptor.map returnedReading).part withoutLevels) = .ok (.map
      [("gauge", .string "north"), ("samples", .list [.map []])]) ∧
    gauge.decodeItem .strict [("samples", .list [.map []]), ("gauge", .string "north")] = .ok (.map
      [("gauge", .string "north"), ("samples", .list [.map []])]) := by
  obtain ⟨hdecode, hitem⟩ := parts_decode gauge
  exact ⟨rfl, (hdecode (.map returnedReading) _ rfl).2 withoutLevels,
    hitem returnedReading _ rfl withoutLevels⟩

end Schema

end ItemStore
