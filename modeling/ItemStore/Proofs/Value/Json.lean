import ItemStore.Proofs.Json.Scan
import ItemStore.Proofs.Schema.Congruence
import ItemStore.Proofs.Schema.Places
import ItemStore.Value.Json

/-
Values that travel as JSON.

A value that is written as JSON and read again has lost its finer types and the order of its keys,
and nothing else. Both are said of the whole value at once: what JSON has no type for is exchanged
at the ends of the value (`inJson`), and every map comes back in ascending order. So the value
itself comes back, up to the order of keys, if it has only ends that JSON knows.

As on the wire of descriptors, the doubles have to be ones that read back from their text, and
values that are nested too deeply are not read at all.

Writing is `serialize` of a value, and reading goes through a JSON value and its `from`.
-/
set_option autoImplicit false

namespace ItemStore.Value

open Entries Json

/-! ## Going down a value -/

/-- A property of values holds of all of them if a list has it as soon as its items do, and a map
as soon as the targets of its entries do. -/
theorem induction {P : Value → Prop} (plain : ∀ v : Value, v.isContainer = false → P v)
    (list : ∀ items, (∀ v ∈ items, P v) → P (list items))
    (map : ∀ entries, (∀ e ∈ entries, P e.2) → P (map entries)) (v : Value) : P v := by
  refine @Value.rec P (fun items => ∀ v ∈ items, P v) (fun entries => ∀ e ∈ entries, P e.2)
    (fun e => P e.2) ?_ ?_ ?_ ?_ ?_ ?_ list map ?_ ?_ ?_ ?_ ?_ v
  · exact plain .null rfl
  · exact fun b => plain (.bool b) rfl
  · exact fun x => plain (.number x) rfl
  · exact fun s => plain (.string s) rfl
  · exact fun t => plain (.date t) rfl
  · exact fun bytes => plain (.binary bytes) rfl
  · intro v hv
    cases hv
  · intro v items hv hitems v' hv'
    rcases List.mem_cons.1 hv' with rfl | hv'
    · exact hv
    · exact hitems v' hv'
  · intro e he
    cases he
  · intro e entries he hentries e' he'
    rcases List.mem_cons.1 he' with rfl | he'
    · exact he
    · exact hentries e' he'
  · exact fun _ _ h => h

mutual

/-- Whether all maps in the value have a property. Properties of maps are asked for in this way so
that the recursion is written down once. -/
def everyMap (p : List (String × Value) → Bool) : Value → Bool
  | list items => everyMapOfItems p items
  | map entries => p entries && everyMapOfEntries p entries
  | _ => true

/-- Whether all maps in several values have a property. -/
def everyMapOfItems (p : List (String × Value) → Bool) : List Value → Bool
  | [] => true
  | v :: items => v.everyMap p && everyMapOfItems p items

/-- Whether all maps in the targets of several entries have a property. -/
def everyMapOfEntries (p : List (String × Value) → Bool) : List (String × Value) → Bool
  | [] => true
  | (_, v) :: entries => v.everyMap p && everyMapOfEntries p entries

end

/-- Whether no map in the value has a key twice. Maps that were filled key by key have this
property. -/
def distinctKeys (v : Value) : Bool := v.everyMap fun entries => decide (keys entries).Nodup

/-- Whether the keys of all maps in the value are in ascending order. It is how a JSON value keeps
its objects. -/
def ascendingKeys (v : Value) : Bool :=
  v.everyMap fun entries => decide ((keys entries).Pairwise (· < ·))

mutual

/-- What the value holds that holds nothing else, in order. An empty list or map has none. -/
def ends : Value → List Value
  | list items => endsOfItems items
  | map entries => endsOfEntries entries
  | v => [v]

/-- The ends of several values. -/
def endsOfItems : List Value → List Value
  | [] => []
  | v :: items => v.ends ++ endsOfItems items

/-- The ends of the targets of several entries. -/
def endsOfEntries : List (String × Value) → List Value
  | [] => []
  | (_, v) :: entries => v.ends ++ endsOfEntries entries

end

mutual

/-- The value with something else at its ends. Lists and maps stay as they are, with their order. -/
def mapEnds (f : Value → Value) : Value → Value
  | list items => list (mapEndsOfItems f items)
  | map entries => map (mapEndsOfEntries f entries)
  | v => f v

/-- Several values with something else at their ends. -/
def mapEndsOfItems (f : Value → Value) : List Value → List Value
  | [] => []
  | v :: items => v.mapEnds f :: mapEndsOfItems f items

/-- Several entries with something else at the ends of their targets. -/
def mapEndsOfEntries (f : Value → Value) : List (String × Value) → List (String × Value)
  | [] => []
  | (k, v) :: entries => (k, v.mapEnds f) :: mapEndsOfEntries f entries

end

section Descent

variable {p : List (String × Value) → Bool} {f : Value → Value}

theorem everyMap_list {items : List Value} :
    (list items).everyMap p = true ↔ ∀ v ∈ items, v.everyMap p = true := by
  rw [everyMap]
  induction items with
  | nil => simp [everyMapOfItems]
  | cons v items ih => rw [everyMapOfItems, Bool.and_eq_true, ih, List.forall_mem_cons]

theorem everyMap_map {entries : List (String × Value)} :
    (map entries).everyMap p = true ↔
      p entries = true ∧ ∀ e ∈ entries, e.2.everyMap p = true := by
  have hentries : everyMapOfEntries p entries = true ↔ ∀ e ∈ entries, e.2.everyMap p = true := by
    induction entries with
    | nil => simp [everyMapOfEntries]
    | cons e entries ih => rw [everyMapOfEntries, Bool.and_eq_true, ih, List.forall_mem_cons]
  rw [everyMap, Bool.and_eq_true, hentries]

theorem ends_list (items : List Value) : (list items).ends = items.flatMap ends := by
  rw [ends]
  induction items with
  | nil => rfl
  | cons v items ih => rw [endsOfItems, ih, List.flatMap_cons]

theorem ends_map (entries : List (String × Value)) :
    (map entries).ends = entries.flatMap fun e => e.2.ends := by
  rw [ends]
  induction entries with
  | nil => rfl
  | cons e entries ih => rw [endsOfEntries, ih, List.flatMap_cons]

theorem mapEnds_list (items : List Value) :
    (list items).mapEnds f = list (items.map (mapEnds f)) := by
  rw [mapEnds]
  congr 1
  induction items with
  | nil => rfl
  | cons v items ih => rw [mapEndsOfItems, ih, List.map_cons]

theorem mapEnds_map (entries : List (String × Value)) :
    (map entries).mapEnds f = map (entries.map fun e => (e.1, e.2.mapEnds f)) := by
  rw [mapEnds]
  congr 1
  induction entries with
  | nil => rfl
  | cons e entries ih => rw [mapEndsOfEntries, ih, List.map_cons]

/-- A value has its ends exchanged for themselves if each of them is. -/
theorem mapEnds_eq_self {v : Value} (h : ∀ w ∈ v.ends, f w = w) : v.mapEnds f = v := by
  induction v using induction with
  | plain v hplain =>
    cases v with
    | list items => cases hplain
    | map entries => cases hplain
    | _ => exact h _ List.mem_cons_self
  | list items ih =>
    rw [ends_list] at h
    have hitems : items.map (mapEnds f) = items.map id := List.map_congr_left fun v hv =>
      ih v hv fun w hw => h w (List.mem_flatMap.2 ⟨v, hv, hw⟩)
    rw [mapEnds_list, hitems, List.map_id]
  | map entries ih =>
    rw [ends_map] at h
    have hentries : entries.map (fun e => (e.1, e.2.mapEnds f)) = entries.map id := by
      refine List.map_congr_left fun e he => ?_
      rw [ih e he fun w hw => h w (List.mem_flatMap.2 ⟨e, he, hw⟩)]
      rfl
    rw [mapEnds_map, hentries, List.map_id]

end Descent

/-! ## What JSON makes of a value -/

/-- What becomes of an end: a date is its ISO text, bytes are their base64 text, and a number that
is not finite is null. Numbers without a text in JSON are written as null. -/
def endInJson : Value → Value
  | date t => string (String.ofList t.text)
  | binary bytes => string (String.ofList (Text.Base64.encode bytes))
  | number x => if x.isFinite then number x else null
  | v => v

/-- The value as far as JSON has types for it. Nothing that it puts in would be changed by it
again. -/
def inJson (v : Value) : Value := v.mapEnds endInJson

/-- Whether JSON has a type for an end. It is the case of an end that comes back as it is. -/
def isJsonEnd : Value → Bool
  | date _ => false
  | binary _ => false
  | number x => x.isFinite
  | _ => true

/-- Whether the value has no dates, no bytes and no numbers that are not finite. It looks at ends
alone, since lists and maps are known to JSON. -/
def isJson (v : Value) : Bool := v.ends.all isJsonEnd

/-- All finite numbers in the value are read back from the text that is written for them. It asks
for it of the doubles in the value and of no others. -/
def DoublesReadBack (v : Value) : Prop :=
  ∀ x, .number x ∈ v.ends → x.isFinite = true → (Number.double x).ReadsBack

/-- A value of JSON types stays as it is. -/
theorem inJson_of_isJson {v : Value} (h : v.isJson = true) : v.inJson = v := by
  refine mapEnds_eq_self fun w hw => ?_
  have hend := List.all_eq_true.1 h w hw
  cases w with
  | date t => cases hend
  | binary bytes => cases hend
  | number x => exact if_pos hend
  | _ => rfl

theorem doublesReadBack_list {items : List Value} (h : (list items).DoublesReadBack) :
    ∀ v ∈ items, v.DoublesReadBack := by
  rw [DoublesReadBack, ends_list] at h
  exact fun v hv x hx => h x (List.mem_flatMap.2 ⟨v, hv, hx⟩)

theorem doublesReadBack_map {entries : List (String × Value)} (h : (map entries).DoublesReadBack) :
    ∀ e ∈ entries, e.2.DoublesReadBack := by
  rw [DoublesReadBack, ends_map] at h
  exact fun e he x hx => h x (List.mem_flatMap.2 ⟨e, he, hx⟩)

/-! ## Writing and reading -/

theorem itemsToDocuments_eq (items : List Value) :
    itemsToDocuments items = items.map toDocument := by
  induction items with
  | nil => rfl
  | cons v items ih => rw [itemsToDocuments, ih, List.map_cons]

theorem entriesToMembers_eq (entries : List (String × Value)) :
    entriesToMembers entries = entries.map fun e => (e.1, e.2.toDocument) := by
  induction entries with
  | nil => rfl
  | cons e entries ih => rw [entriesToMembers, ih, List.map_cons]

theorem ofDocuments_eq (items : List Document) : ofDocuments items = items.map ofDocument := by
  induction items with
  | nil => rfl
  | cons d items ih => rw [ofDocuments, ih, List.map_cons]

theorem ofMembers_eq (members : List (String × Document)) :
    ofMembers members = members.map fun m => (m.1, ofDocument m.2) := by
  induction members with
  | nil => rfl
  | cons m members ih => rw [ofMembers, ih, List.map_cons]

/-- The document of a value can be written. -/
theorem wellWritten_toDocument {v : Value} (h : v.DoublesReadBack) : v.toDocument.WellWritten := by
  induction v using induction with
  | plain v hplain =>
    cases v with
    | null => exact .null
    | bool b => exact .bool b
    | number x =>
      rw [toDocument]
      by_cases hx : x.isFinite = true
      · rw [if_pos hx]
        exact .number (h x List.mem_cons_self hx)
      · rw [if_neg hx]
        exact .null
    | string s => exact .string s
    | date t => exact .string _
    | binary bytes => exact .string _
    | list items => cases hplain
    | map entries => cases hplain
  | list items ih =>
    rw [toDocument, itemsToDocuments_eq]
    exact .list_map fun v hv => ih v hv (doublesReadBack_list h v hv)
  | map entries ih =>
    rw [toDocument, entriesToMembers_eq]
    exact .record (List.forall_mem_map.2 fun e he => ih e he (doublesReadBack_map h e he))

/-- An end is read as what JSON makes of it. -/
theorem ofDocument_toDocument_of_plain {v : Value} (h : v.isContainer = false) :
    ofDocument v.toDocument = v.inJson := by
  cases v with
  | number x =>
    show ofDocument (if x.isFinite then .number (.double x) else .null) =
      if x.isFinite then number x else null
    by_cases hx : x.isFinite = true
    · rw [if_pos hx, if_pos hx]
      rfl
    · rw [if_neg hx, if_neg hx]
      rfl
  | list items => cases h
  | map entries => cases h
  | _ => rfl

/-- What a value travels as is read as what JSON makes of it, the order of keys aside. -/
theorem alike_ofDocument_toDocument {v : Value} (h : v.distinctKeys = true) :
    Alike (ofDocument v.toDocument) v.inJson := by
  induction v using induction with
  | plain v hplain =>
    rw [ofDocument_toDocument_of_plain hplain]
    exact .refl _
  | list items ih =>
    have hitems := everyMap_list.1 h
    rw [toDocument, itemsToDocuments_eq, ofDocument, ofDocuments_eq, List.map_map, inJson,
      mapEnds_list]
    refine .list (List.forall₂_map_left_iff.2 (List.forall₂_map_right_iff.2 ?_))
    exact List.forall₂_same.2 fun v hv => ih v hv (hitems v hv)
  | map entries ih =>
    obtain ⟨hnodup, hentries⟩ := everyMap_map.1 h
    rw [decide_eq_true_iff] at hnodup
    rw [toDocument, entriesToMembers_eq, ofDocument, ofMembers_eq, List.map_map, inJson,
      mapEnds_map]
    refine .map ?_ fun name a b ha hb => ?_
    · refine (List.perm_ext_iff_of_nodup (ascending_ofListSorted _).nodup ?_).2 fun key => ?_
      · rw [keys, List.map_map]
        exact hnodup
      · rw [mem_keys_ofListSorted, keys, keys, List.map_map, List.map_map]
        rfl
    · have hread : (keys (entries.map fun e => (e.1, ofDocument e.2.toDocument))).Nodup := by
        rw [keys, List.map_map]
        exact hnodup
      rw [get?_ofListSorted] at ha
      have hfound := (get?_reverse hread).symm.trans ha
      rw [get?_map_snd fun v : Value => ofDocument v.toDocument] at hfound
      rw [get?_map_snd (mapEnds endInJson)] at hb
      -- both come from the one entry under the name
      obtain ⟨v, hv, rfl⟩ := Option.map_eq_some_iff.1 hfound
      rw [hv] at hb
      cases hb
      have hmem := mem_of_get? hv
      exact ih (name, v) hmem (hentries (name, v) hmem)

/-- Whatever document a value is read from, its keys are in ascending order. -/
theorem ascendingKeys_ofDocument (d : Document) : (ofDocument d).ascendingKeys = true := by
  induction d using Document.induction with
  | plain d hplain =>
    cases d with
    | array items closed => cases hplain
    | object members closed => cases hplain
    | _ => rfl
  | array items closed ih =>
    rw [ofDocument, ofDocuments_eq, ascendingKeys, everyMap_list]
    exact List.forall_mem_map.2 ih
  | object members closed ih =>
    rw [ofDocument, ofMembers_eq, ascendingKeys, everyMap_map, decide_eq_true_iff]
    have hascending := ascending_ofListSorted (members.map fun m => (m.1, ofDocument m.2))
    refine ⟨hascending, fun e he => ?_⟩
    -- every entry is one of those that were filled in
    have hfound := get?_of_mem hascending.nodup he
    rw [get?_ofListSorted] at hfound
    obtain ⟨m, hm, hme⟩ := List.mem_map.1 (List.mem_reverse.1 (mem_of_get? hfound))
    rw [← (Prod.mk.inj hme).2]
    exact ih m hm

/-- What is read of the text of a value, if anything is. -/
theorem ofJson?_json {v : Value} (h : v.DoublesReadBack) :
    ofJson? v.json = if v.toDocument.depth ≤ 127 then some (ofDocument v.toDocument) else none := by
  rw [ofJson?, json, parse?_eq (wellWritten_toDocument h).isTextOf, maxLevels]
  split <;> rfl

/-- **There and back.** A value that is written as JSON and read again is what JSON makes of it,
the order of keys aside, which is ascending then. If JSON has a type for everything in the value,
it is the value. This goes for values that are nested 127 deep at most; deeper ones are written,
but they are not read. What comes back is compared in two ways, first with what JSON can hold of
the value and then with the value itself, which asks for more. The last part is there to show that
the bound on the depth is the exact one. -/
theorem json_reads_back {v : Value} (hkeys : v.distinctKeys = true) (hdoubles : v.DoublesReadBack) :
    (v.toDocument.depth ≤ 127 → ∃ w, ofJson? v.json = some w ∧ Alike w v.inJson ∧
      w.ascendingKeys = true ∧ (v.isJson = true → Alike w v)) ∧
    (127 < v.toDocument.depth → ofJson? v.json = none) := by
  rw [ofJson?_json hdoubles]
  refine ⟨fun hdepth => ?_, fun hdepth => if_neg (Nat.not_le.2 hdepth)⟩
  have halike := alike_ofDocument_toDocument hkeys
  refine ⟨_, if_pos hdepth, halike, ascendingKeys_ofDocument _, fun hjson => ?_⟩
  rw [inJson_of_isJson hjson] at halike
  exact halike

/-- An order with a date, with bytes and with a number that is not finite. -/
def parcel : Value :=
  .map [("total", .number 12.5), ("items", .list [.string "tea \"green\"", .null, .list []]),
    ("shipped", .date ⟨1709204400, 0⟩), ("label", .binary [1, 2, 255]),
    ("rest", .number (0.0 / 0.0))]

theorem parcel_reads_back :
    parcel.distinctKeys = true ∧ parcel.DoublesReadBack ∧ parcel.toDocument.depth ≤ 127 ∧
      parcel.isJson = false ∧ ∃ w, ofJson? parcel.json = some w ∧ Alike w parcel.inJson ∧
        w.ascendingKeys = true := by
  have hkeys : parcel.distinctKeys = true := by decide
  have hdoubles : parcel.DoublesReadBack := by
    have hends : parcel.ends = [.number 12.5, .string "tea \"green\"", .null,
      .date ⟨1709204400, 0⟩, .binary [1, 2, 255], .number (0.0 / 0.0)] := rfl
    intro x hx hfinite
    rw [hends] at hx
    simp only [List.mem_cons, List.not_mem_nil, or_false, reduceCtorEq, false_or,
      number.injEq] at hx
    rcases hx with rfl | rfl
    · show Number.ofText? (Number.double 12.5).text = some (Number.double 12.5)
      decide +kernel
    · exact absurd hfinite (by decide +kernel)
  have hdepth : parcel.toDocument.depth ≤ 127 := by decide +kernel
  obtain ⟨w, hw, halike, hascending, -⟩ := (json_reads_back hkeys hdoubles).1 hdepth
  exact ⟨hkeys, hdoubles, hdepth, by decide +kernel, w, hw, halike, hascending⟩

/-- Null in a list in a list, and so on. -/
def nest : Nat → Value
  | 0 => .null
  | n + 1 => .list [nest n]

theorem ends_nest (n : Nat) : (nest n).ends = [.null] := by
  induction n with
  | zero => rfl
  | succ n ih => rw [nest, ends_list, List.flatMap_cons, ih, List.flatMap_nil, List.append_nil]

theorem distinctKeys_nest (n : Nat) : (nest n).distinctKeys = true := by
  induction n with
  | zero => rfl
  | succ n ih => exact everyMap_list.2 (List.forall_mem_singleton.2 ih)

theorem depth_nest (n : Nat) : (nest n).toDocument.depth = n := by
  induction n with
  | zero => rfl
  | succ n ih =>
    rw [nest, toDocument, itemsToDocuments_eq, List.map_singleton, Document.depth,
      Document.depthOfItems, Document.depthOfItems, ih, Nat.max_zero]

/-- There is nothing in this value but lists and null, and it is written, but nothing is read. -/
theorem nest_is_not_read : (nest 128).distinctKeys = true ∧ (nest 128).DoublesReadBack ∧
    (nest 128).isJson = true ∧ ofJson? (nest 128).json = none ∧
      ¬ ∃ w, ofJson? (nest 128).json = some w ∧ Alike w (nest 128).inJson := by
  have hdoubles : (nest 128).DoublesReadBack := by
    intro x hx
    rw [ends_nest, List.mem_singleton] at hx
    cases hx
  have hjson : (nest 128).isJson = true := by
    rw [isJson, ends_nest]
    rfl
  have hnone : ofJson? (nest 128).json = none := by
    rw [ofJson?_json hdoubles, depth_nest]
    rfl
  refine ⟨distinctKeys_nest 128, hdoubles, hjson, hnone, ?_⟩
  rintro ⟨w, hw, -⟩
  rw [hnone] at hw
  cases hw

end ItemStore.Value
