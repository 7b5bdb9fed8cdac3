import ItemStore.Descriptor.Wire
import ItemStore.Proofs.Descriptor.Same
import ItemStore.Proofs.Json.Scan
import ItemStore.Proofs.Outcome

/-
What the wire does to a descriptor.

Almost nothing: a descriptor that is written is read as it was, with its tags, its strings, its
bytes and the order of its lists and maps. The exception are the members of number sets. Where
such a member is a JSON number it travels as one, and what arrives is the canonical text of that
number. `wireForm` is what arrives. It travels without any further change, so what is read and
written again is the same text.

One thing has to be assumed. A double is written with the shortest digits that name it, and the
fast reader of numbers does not find the double back from its digits in every case. So the
doubles that are there have to be ones that read back.

The number that a member travels as is made by `from_decimal`, and its text is made by
`into_decimal`.
-/
set_option autoImplicit false

namespace ItemStore

open Entries Json

namespace Descriptor

/-! ## The wire form -/

/-- What becomes of a member of a number set: a double is put into its shortest form; an integer
of 64 bits, and whatever is no JSON number, stay as they are. It is a function on texts, since
this is how a descriptor holds its numbers. -/
def memberForm (text : String) : String :=
  match Number.ofText? text.toList with
  | some (.double x) => String.ofList (Decimal.wire x)
  | _ => text

/-- Whole numbers within 64 bits are kept, longer ones are not, and there is no integer `-0`. -/
example : ["007", "-5", "1e2", "-0", "100000000000000000000"].map memberForm =
    ["007", "-5", "100.0", "-0.0", "1e+20"] := by decide +kernel

mutual

/-- The descriptor with the members of all its number sets in their wire form. Numbers outside of
number sets are strings on the wire and are not touched. -/
def wireForm : Descriptor → Descriptor
  | numberSet members => numberSet (members.map memberForm)
  | list items => list (wireFormItems items)
  | map entries => map (wireFormEntries entries)
  | d => d

/-- Several descriptors in their wire form. -/
def wireFormItems : List Descriptor → List Descriptor
  | [] => []
  | d :: items => d.wireForm :: wireFormItems items

/-- Several entries with their targets in wire form. -/
def wireFormEntries : List (String × Descriptor) → List (String × Descriptor)
  | [] => []
  | (k, d) :: entries => (k, d.wireForm) :: wireFormEntries entries

end

/-- The double that a text is as a whole. A text that is an integer of 64 bits has none, because
it travels as an integer. -/
def double? (text : String) : Option Float :=
  match Number.ofText? text.toList with
  | some (.double x) => some x
  | _ => none

mutual

/-- The doubles among the members of the number sets of a descriptor. Only these can be affected
by how well doubles are read. -/
def doubles : Descriptor → List Float
  | numberSet members => members.filterMap double?
  | list items => doublesOfItems items
  | map entries => doublesOfEntries entries
  | _ => []

/-- The doubles in several descriptors. -/
def doublesOfItems : List Descriptor → List Float
  | [] => []
  | d :: items => d.doubles ++ doublesOfItems items

/-- The doubles in the targets of several entries. -/
def doublesOfEntries : List (String × Descriptor) → List Float
  | [] => []
  | (_, d) :: entries => d.doubles ++ doublesOfEntries entries

end

/-- All doubles in the descriptor are read back from the text that is written for them. It is a
condition on the doubles that occur and not on all there are, because the reader of JSON does not
read every double back. -/
def DoublesReadBack (d : Descriptor) : Prop := ∀ x ∈ d.doubles, (Number.double x).ReadsBack

/-! ## Going through lists and maps -/

theorem wireForm_list (items : List Descriptor) :
    (list items).wireForm = list (items.map wireForm) := by
  rw [wireForm]
  congr 1
  induction items with
  | nil => rfl
  | cons d items ih => rw [wireFormItems, ih, List.map_cons]

theorem wireForm_map (entries : List (String × Descriptor)) :
    (map entries).wireForm = map (entries.map fun e => (e.1, e.2.wireForm)) := by
  rw [wireForm]
  congr 1
  induction entries with
  | nil => rfl
  | cons e entries ih => rw [wireFormEntries, ih, List.map_cons]

theorem itemsToDocuments_eq (items : List Descriptor) :
    itemsToDocuments items = items.map toDocument := by
  induction items with
  | nil => rfl
  | cons d items ih => rw [itemsToDocuments, ih, List.map_cons]

theorem entriesToMembers_eq (entries : List (String × Descriptor)) :
    entriesToMembers entries = entries.map fun e => (e.1, e.2.toDocument) := by
  induction entries with
  | nil => rfl
  | cons e entries ih => rw [entriesToMembers, ih, List.map_cons]

theorem doublesReadBack_list {items : List Descriptor} (h : (list items).DoublesReadBack) :
    ∀ d ∈ items, d.DoublesReadBack := by
  rw [DoublesReadBack, doubles] at h
  induction items with
  | nil => exact fun d hd => absurd hd List.not_mem_nil
  | cons d items ih =>
    rw [doublesOfItems] at h
    intro d' hd'
    rcases List.mem_cons.1 hd' with rfl | hd'
    · exact fun x hx => h x (List.mem_append_left _ hx)
    · exact ih (fun x hx => h x (List.mem_append_right _ hx)) d' hd'

theorem doublesReadBack_map {entries : List (String × Descriptor)}
    (h : (map entries).DoublesReadBack) : ∀ e ∈ entries, e.2.DoublesReadBack := by
  rw [DoublesReadBack, doubles] at h
  induction entries with
  | nil => exact fun e he => absurd he List.not_mem_nil
  | cons e entries ih =>
    rw [doublesOfEntries] at h
    intro e' he'
    rcases List.mem_cons.1 he' with rfl | he'
    · exact fun x hx => h x (List.mem_append_left _ hx)
    · exact ih (fun x hx => h x (List.mem_append_right _ hx)) e' he'

/-! ## Members of number sets -/

/-- A member that is a number travels as its canonical text. -/
theorem memberForm_eq {text : String} {n : Number} (h : Number.ofText? text.toList = some n) :
    memberForm text = String.ofList n.text := by
  rw [memberForm, h]
  cases n with
  | integer i => rw [Number.text_of_ofText?_eq_integer h, String.ofList_toList]
  | double x => rfl

theorem memberForm_of_eq_none {text : String} (h : Number.ofText? text.toList = none) :
    memberForm text = text := by
  rw [memberForm, h]

/-- The numbers among the members read back: doubles by assumption, integers in any case. -/
theorem readsBack_of_mem {members : List String} (h : (numberSet members).DoublesReadBack)
    {text : String} (htext : text ∈ members) {n : Number}
    (hn : Number.ofText? text.toList = some n) : n.ReadsBack := by
  cases n with
  | integer i => exact Number.readsBack_integer hn
  | double x =>
    refine h x ?_
    rw [doubles]
    refine List.mem_filterMap.2 ⟨text, htext, ?_⟩
    rw [double?, hn]

/-- What arrives is written as what was sent. -/
theorem memberDocument_memberForm {members : List String}
    (h : (numberSet members).DoublesReadBack) {text : String} (htext : text ∈ members) :
    memberDocument (memberForm text) = memberDocument text := by
  cases hn : Number.ofText? text.toList with
  | none => rw [memberForm_of_eq_none hn]
  | some n =>
    have hback : Number.ofText? n.text = some n := readsBack_of_mem h htext hn
    rw [memberForm_eq hn, memberDocument, memberDocument, String.toList_ofList, hback, hn]

/-- What was sent arrives in its wire form. -/
theorem memberOfDocument_memberDocument (text : String) :
    memberOfDocument (memberDocument text) = .ok (memberForm text) := by
  cases hn : Number.ofText? text.toList with
  | none => rw [memberForm_of_eq_none hn, memberDocument, hn, memberOfDocument]
  | some n => rw [memberForm_eq hn, memberDocument, hn, memberOfDocument]

/-! ## Writing -/

/-- What a descriptor travels as can be written. -/
theorem wellWritten_toDocument {d : Descriptor} (h : d.DoublesReadBack) :
    d.toDocument.WellWritten := by
  induction d using Descriptor.induction with
  | plain d hplain =>
    cases d with
    | string s => exact .single (.string s) "S"
    | number text => exact .single (.string text) "N"
    | binary bytes => exact .single (.string _) "B"
    | stringSet members => exact .single (.list_map fun s _ => .string s) "SS"
    | numberSet members =>
      refine .single (.list_map fun text htext => ?_) "NS"
      rw [memberDocument]
      cases hn : Number.ofText? text.toList with
      | none => exact .string text
      | some n => exact .number (readsBack_of_mem h htext hn)
    | binarySet members => exact .single (.list_map fun bytes _ => .string _) "BS"
    | bool b => exact .single (.bool b) "BOOL"
    | null => exact .single .null "NULL"
    | list items => cases hplain
    | map entries => cases hplain
  | list items ih =>
    rw [toDocument, itemsToDocuments_eq]
    exact .single (.list_map fun d hd => ih d hd (doublesReadBack_list h d hd)) "L"
  | map entries ih =>
    rw [toDocument, entriesToMembers_eq]
    refine .single (.record fun m hm => ?_) "M"
    obtain ⟨e, he, rfl⟩ := List.mem_map.1 hm
    exact ih e he (doublesReadBack_map h e he)

/-- What arrives is written as what was sent. -/
theorem toDocument_wireForm {d : Descriptor} (h : d.DoublesReadBack) :
    d.wireForm.toDocument = d.toDocument := by
  induction d using Descriptor.induction with
  | plain d hplain =>
    cases d with
    | numberSet members =>
      rw [wireForm, toDocument, toDocument, List.map_map]
      have hmembers : members.map (memberDocument ∘ memberForm) = members.map memberDocument :=
        List.map_congr_left fun text htext => memberDocument_memberForm h htext
      rw [hmembers]
    | list items => cases hplain
    | map entries => cases hplain
    | _ => rfl
  | list items ih =>
    rw [wireForm_list, toDocument, toDocument, itemsToDocuments_eq, itemsToDocuments_eq,
      List.map_map]
    have hitems : items.map (toDocument ∘ wireForm) = items.map toDocument :=
      List.map_congr_left fun d hd => ih d hd (doublesReadBack_list h d hd)
    rw [hitems]
  | map entries ih =>
    rw [wireForm_map, toDocument, toDocument, entriesToMembers_eq, entriesToMembers_eq,
      List.map_map]
    have hentries : entries.map ((fun e => (e.1, e.2.toDocument)) ∘ fun e => (e.1, e.2.wireForm)) =
        entries.map fun e => (e.1, e.2.toDocument) := by
      refine List.map_congr_left fun e he => ?_
      rw [Function.comp_apply, ih e he (doublesReadBack_map h e he)]
    rw [hentries]

/-! ## Reading -/

/-- An object with a tag as its only key is read as the tag says. -/
theorem ofDocument_record (tag : Tag) {payload : Document} {d : Descriptor}
    (h : ofPayload tag payload = .ok d) : ofDocument (.record [(tag.text, payload)]) = .ok d := by
  rw [ofDocument, Tag.ofText?_text]
  dsimp only
  rw [h]
  rfl

/-- An array is read member by member. -/
theorem arrayOfDocument_list {α : Type} {read : Document → Except Refusal α}
    {write : α → Document} {form : α → α} (members : List α)
    (h : ∀ a ∈ members, read (write a) = .ok (form a)) :
    arrayOfDocument read (.list (members.map write)) = .ok (members.map form) := by
  rw [arrayOfDocument, mapM_map_eq_ok h]
  rfl

theorem ofDocuments_eq {items : List Descriptor}
    (h : ∀ d ∈ items, ofDocument d.toDocument = .ok d.wireForm) :
    ofDocuments (items.map toDocument) = .ok (items.map wireForm) := by
  induction items with
  | nil => rfl
  | cons d items ih =>
    rw [List.map_cons, ofDocuments, h d List.mem_cons_self]
    dsimp only [bind, Except.bind]
    rw [ih fun e he => h e (List.mem_cons_of_mem d he)]
    rfl

theorem ofMembers_eq {entries : List (String × Descriptor)}
    (h : ∀ e ∈ entries, ofDocument e.2.toDocument = .ok e.2.wireForm) :
    ofMembers (entries.map fun e => (e.1, e.2.toDocument)) =
      .ok (entries.map fun e => (e.1, e.2.wireForm)) := by
  induction entries with
  | nil => rfl
  | cons e entries ih =>
    rw [List.map_cons, ofMembers, h e List.mem_cons_self]
    dsimp only [bind, Except.bind]
    rw [ih fun e' he' => h e' (List.mem_cons_of_mem e he')]
    rfl

theorem bytesOfDocument_bytesDocument (bytes : List UInt8) :
    bytesOfDocument (bytesDocument bytes) = .ok bytes := by
  rw [bytesDocument, bytesOfDocument, String.toList_ofList, Text.Base64.decode?_encode]

/-- What a descriptor travels as is read as its wire form. -/
theorem ofDocument_toDocument {d : Descriptor} (h : d.distinctKeys = true) :
    ofDocument d.toDocument = .ok d.wireForm := by
  induction d using Descriptor.induction with
  | plain d hplain =>
    cases d with
    | string s => exact ofDocument_record .string rfl
    | number text => exact ofDocument_record .number rfl
    | binary bytes =>
      refine ofDocument_record .binary ?_
      rw [ofPayload, bytesOfDocument_bytesDocument]
      rfl
    | stringSet members =>
      have hmembers : arrayOfDocument stringOfDocument (.list (members.map .string)) =
          .ok (members.map id) := arrayOfDocument_list members fun _ _ => rfl
      refine ofDocument_record .stringSet ?_
      rw [ofPayload, hmembers, List.map_id]
      rfl
    | numberSet members =>
      refine ofDocument_record .numberSet ?_
      rw [ofPayload, arrayOfDocument_list members fun text _ =>
        memberOfDocument_memberDocument text]
      rfl
    | binarySet members =>
      have hmembers : arrayOfDocument bytesOfDocument (.list (members.map bytesDocument)) =
          .ok (members.map id) :=
        arrayOfDocument_list members fun bytes _ => bytesOfDocument_bytesDocument bytes
      refine ofDocument_record .binarySet ?_
      rw [ofPayload, hmembers, List.map_id]
      rfl
    | bool b => exact ofDocument_record .bool rfl
    | null => exact ofDocument_record .null rfl
    | list items => cases hplain
    | map entries => cases hplain
  | list items ih =>
    rw [distinctKeys_list] at h
    rw [toDocument, itemsToDocuments_eq, wireForm_list]
    refine ofDocument_record .list ?_
    rw [ofPayload, ofDocuments_eq fun d hd => ih d hd (h d hd)]
    rfl
  | map entries ih =>
    rw [distinctKeys_map] at h
    rw [toDocument, entriesToMembers_eq, wireForm_map]
    refine ofDocument_record .map ?_
    rw [ofPayload, ofMembers_eq fun e he => ih e he (h.2 e he)]
    -- no key is repeated, so every entry keeps its place
    have hnodup : (keys (entries.map fun e => (e.1, e.2.wireForm))).Nodup := by
      rw [keys, List.map_map]
      exact h.1
    dsimp only [bind, Except.bind]
    rw [ofList_eq_self hnodup]
    rfl

/-! ## Items -/

end Descriptor

/-- An item with its attributes in their wire form. The names of attributes are strings and stay. -/
def Item.wireForm (item : Item) : Item := item.map fun e => (e.1, e.2.wireForm)

/-- What an item travels as can be written. -/
theorem Item.wellWritten_toDocument {item : Item} (h : (Descriptor.map item).DoublesReadBack) :
    (Item.toDocument item).WellWritten := by
  rw [Item.toDocument, Descriptor.entriesToMembers_eq]
  refine .record fun m hm => ?_
  obtain ⟨e, he, rfl⟩ := List.mem_map.1 hm
  exact Descriptor.wellWritten_toDocument (Descriptor.doublesReadBack_map h e he)

/-- What an item travels as is read as its wire form. -/
theorem Item.ofDocument_toDocument {item : Item} (h : (Descriptor.map item).distinctKeys = true) :
    Item.ofDocument (Item.toDocument item) = .ok item.wireForm := by
  rw [Descriptor.distinctKeys_map] at h
  have hmembers := Descriptor.ofMembers_eq fun e he => Descriptor.ofDocument_toDocument (h.2 e he)
  have hnodup : (keys item.wireForm).Nodup := by
    rw [Item.wireForm, keys, List.map_map]
    exact h.1
  rw [Item.toDocument, Descriptor.entriesToMembers_eq, Item.ofDocument, hmembers]
  show Descriptor.ifClosed true (ofList item.wireForm) = .ok item.wireForm
  rw [ofList_eq_self hnodup]
  rfl

namespace Descriptor

/-! ## There and back -/

theorem memberForm_memberForm {members : List String} (h : (numberSet members).DoublesReadBack)
    {text : String} (htext : text ∈ members) : memberForm (memberForm text) = memberForm text := by
  cases hn : Number.ofText? text.toList with
  | none => rw [memberForm_of_eq_none hn, memberForm_of_eq_none hn]
  | some n =>
    have hback : Number.ofText? (String.ofList n.text).toList = some n := by
      rw [String.toList_ofList]
      exact readsBack_of_mem h htext hn
    rw [memberForm_eq hn, memberForm_eq hback]

/-- The wire form is in wire form. -/
theorem wireForm_wireForm {d : Descriptor} (h : d.DoublesReadBack) :
    d.wireForm.wireForm = d.wireForm := by
  induction d using Descriptor.induction with
  | plain d hplain =>
    cases d with
    | numberSet members =>
      have hmembers : members.map (memberForm ∘ memberForm) = members.map memberForm :=
        List.map_congr_left fun text htext => memberForm_memberForm h htext
      rw [wireForm, wireForm, List.map_map, hmembers]
    | list items => cases hplain
    | map entries => cases hplain
    | _ => rfl
  | list items ih =>
    have hitems : items.map (wireForm ∘ wireForm) = items.map wireForm :=
      List.map_congr_left fun d hd => ih d hd (doublesReadBack_list h d hd)
    rw [wireForm_list, wireForm_list, List.map_map, hitems]
  | map entries ih =>
    rw [wireForm_map, wireForm_map, List.map_map]
    have hentries : entries.map ((fun e => (e.1, e.2.wireForm)) ∘ fun e => (e.1, e.2.wireForm)) =
        entries.map fun e => (e.1, e.2.wireForm) := by
      refine List.map_congr_left fun e he => ?_
      rw [Function.comp_apply, ih e he (doublesReadBack_map h e he)]
    rw [hentries]

/-- What is written is accepted and arrives in its wire form. -/
theorem read_wire_eq_wireForm {d : Descriptor} (hkeys : d.distinctKeys = true)
    (hdepth : d.toDocument.depth ≤ 127) (hdoubles : d.DoublesReadBack) :
    read d.wire = .ok d.wireForm := by
  have hscan := scanText_render (wellWritten_toDocument hdoubles) hdepth
  rw [read, wire, hscan]
  dsimp only
  rw [ofDocument_toDocument hkeys]
  rfl

/-- **The wire.** A descriptor whose document is nested no deeper than the reader goes is accepted
and arrives in its wire form, which is one: it is written as the same text, so that it arrives
unchanged. The second and the third part say that wire form is reached in one step: on the way
back nothing changes any more, be it in the descriptor or in its text. -/
theorem read_wire {d : Descriptor} (hkeys : d.distinctKeys = true)
    (hdepth : d.toDocument.depth ≤ 127) (hdoubles : d.DoublesReadBack) :
    read d.wire = .ok d.wireForm ∧ d.wireForm.wireForm = d.wireForm ∧
      d.wireForm.wire = d.wire := by
  refine ⟨read_wire_eq_wireForm hkeys hdepth hdoubles, wireForm_wireForm hdoubles, ?_⟩
  rw [wire, wire, toDocument_wireForm hdoubles]

/-- A descriptor with everything in it that has to be taken care of. -/
def parcel : Descriptor :=
  .map
    [("say", .string "\"a\\b\"\n\x01é"), ("raw", .binary [0, 255, 62, 63]), ("n", .number "1e2"),
      ("parts", .list [.null, .bool false, .stringSet ["", "]"], .binarySet [[], [7]]]),
      ("ns", .numberSet ["1e2", "-0", "7", "007", "18446744073709551616", "1.5e-7", "x"])]

/-- It arrives, with the doubles in its number set in their shortest form. -/
theorem parcel_read_wire : read parcel.wire = .ok parcel.wireForm ∧
    parcel.wireForm.wireForm = parcel.wireForm ∧ parcel.wireForm.wire = parcel.wire := by
  have hdoubles : parcel.DoublesReadBack := by
    show ∀ x ∈ parcel.doubles, Number.ofText? (Number.double x).text = some (.double x)
    decide +kernel
  exact read_wire (by decide) (by decide +kernel) hdoubles

end Descriptor

end ItemStore
