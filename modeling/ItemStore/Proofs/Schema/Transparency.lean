import ItemStore.Proofs.Descriptor.WireForm
import ItemStore.Proofs.Json.Nearest
import ItemStore.Proofs.Schema.Encoding

/-
The wire cannot be seen through a schema.

A descriptor arrives with the members of its number sets in other words than those in which it
was sent. Decoding does not tell the two apart, at any schema and in either mode: a member that
is put into other words is a double, and the words name the same double; a member that is no
number of a JSON text, or is an integer, arrives as it was sent, so that it is decoded to the same
number or refused with the same text. Everything else that decoding looks at, the tags, the keys
and the order of the items, arrives unchanged.

Two readers of numbers are compared here, so something is assumed of the one that is not always
right: every text that it reads on the way is read as the free-form reader reads it.

What arrives is `read` of `wire`, and it is decoded by `decode_with_mode`.
-/
set_option autoImplicit false

namespace ItemStore

open Entries Json

namespace Descriptor

/-! ## The numbers that are read on the way -/

mutual

/-- The members of all number sets of a descriptor. -/
def numberMembers : Descriptor → List String
  | numberSet members => members
  | list items => numberMembersOfItems items
  | map entries => numberMembersOfEntries entries
  | _ => []

/-- The members of the number sets of several descriptors. -/
def numberMembersOfItems : List Descriptor → List String
  | [] => []
  | d :: items => d.numberMembers ++ numberMembersOfItems items

/-- The members of the number sets in the targets of several entries. -/
def numberMembersOfEntries : List (String × Descriptor) → List String
  | [] => []
  | (_, d) :: entries => d.numberMembers ++ numberMembersOfEntries entries

end

theorem numberMembers_list (items : List Descriptor) :
    (list items).numberMembers = items.flatMap numberMembers := by
  rw [numberMembers]
  induction items with
  | nil => rfl
  | cons d items ih => rw [numberMembersOfItems, ih, List.flatMap_cons]

theorem numberMembers_map (entries : List (String × Descriptor)) :
    (map entries).numberMembers = entries.flatMap fun e => e.2.numberMembers := by
  rw [numberMembers]
  induction entries with
  | nil => rfl
  | cons e entries ih => rw [numberMembersOfEntries, ih, List.flatMap_cons]

/-- The double that a text is, and the text that is written for it, are read correctly. It is
asked of two texts, since one is read in place of the other; for doubles with few digits it can be
computed. -/
def RoundsCorrectly (text : String) : Prop :=
  ∀ x ∈ double? text, Number.ReadsNearest text.toList ∧ Number.ReadsNearest (Decimal.wire x)

instance (text : String) : Decidable (RoundsCorrectly text) :=
  inferInstanceAs (Decidable (∀ x ∈ double? text,
    Number.ReadsNearest text.toList ∧ Number.ReadsNearest (Decimal.wire x)))

/-- All numbers are read correctly that are read while the descriptor travels. It is asked of the
members of number sets only, as nothing else travels as a JSON number. -/
def NumbersReadNearest (d : Descriptor) : Prop := ∀ text ∈ d.numberMembers, RoundsCorrectly text

instance (d : Descriptor) : Decidable d.NumbersReadNearest :=
  inferInstanceAs (Decidable (∀ text ∈ d.numberMembers, RoundsCorrectly text))

theorem numbersReadNearest_list {items : List Descriptor} :
    (list items).NumbersReadNearest ↔ ∀ d ∈ items, d.NumbersReadNearest := by
  simp only [NumbersReadNearest, numberMembers_list, List.mem_flatMap]
  constructor
  · exact fun h d hd text htext => h text ⟨d, hd, htext⟩
  · rintro h text ⟨d, hd, htext⟩
    exact h d hd text htext

theorem numbersReadNearest_map {entries : List (String × Descriptor)} :
    (map entries).NumbersReadNearest ↔ ∀ e ∈ entries, e.2.NumbersReadNearest := by
  simp only [NumbersReadNearest, numberMembers_map, List.mem_flatMap]
  constructor
  · exact fun h e he text htext => h text ⟨e, he, htext⟩
  · rintro h text ⟨e, he, htext⟩
    exact h e he text htext

/-! ## Members of number sets -/

theorem ofText?_of_double? {text : String} {x : Float} (h : double? text = some x) :
    Number.ofText? text.toList = some (.double x) := by
  unfold double? at h
  split at h
  · next y hy =>
    cases h
    exact hy
  · cases h

/-- A text that is read correctly is decoded to the double that it is, blanks or not. -/
theorem decodeNumber_of_readsNearest {text : String} {x : Float} (path : String)
    (h : Number.ReadsNearest text.toList)
    (hx : Number.ofText? text.toList = some (.double x)) : decodeNumber path text = .ok x := by
  rw [decodeNumber, Number.trim_of_ofText? hx, h.read?_eq hx]

/-- **Members.** What arrives for a member is decoded as what was sent. Both errors name the same
text, because a text that is refused is one that travels as it is. -/
theorem decodeNumber_memberForm {text : String} (h : RoundsCorrectly text) (path : String) :
    decodeNumber path (memberForm text) = decodeNumber path text := by
  cases hx : double? text with
  | none =>
    have hform : memberForm text = text := by
      unfold double? at hx
      unfold memberForm
      split at hx
      · cases hx
      · rfl
    rw [hform]
  | some x =>
    obtain ⟨hsent, hwritten⟩ := h x hx
    have htext : Number.ofText? text.toList = some (.double x) := ofText?_of_double? hx
    have hfinite : x.isFinite = true := hsent.isFinite htext
    -- what is written for the double is read back as the double
    have hback : Number.ofText? (memberForm text).toList = some (.double x) := by
      rw [memberForm_eq htext, String.toList_ofList]
      exact Number.readsBack_of_readsNearest hfinite hwritten
    have hform : Number.ReadsNearest (memberForm text).toList := by
      rw [memberForm_eq htext, String.toList_ofList]
      exact hwritten
    rw [decodeNumber_of_readsNearest path hsent htext,
      decodeNumber_of_readsNearest path hform hback]

/-! ## Doubles -/

/-- The doubles of a descriptor are among the members of its number sets. -/
theorem doubles_eq (d : Descriptor) : d.doubles = d.numberMembers.filterMap double? := by
  induction d using Descriptor.induction with
  | plain d hplain =>
    cases d with
    | list items => cases hplain
    | map entries => cases hplain
    | _ => rfl
  | list items ih =>
    rw [doubles, numberMembers]
    induction items with
    | nil => rfl
    | cons d items ih' =>
      rw [doublesOfItems, numberMembersOfItems, List.filterMap_append, ih d List.mem_cons_self,
        ih' fun e he => ih e (List.mem_cons_of_mem d he)]
  | map entries ih =>
    rw [doubles, numberMembers]
    induction entries with
    | nil => rfl
    | cons e entries ih' =>
      rw [doublesOfEntries, numberMembersOfEntries, List.filterMap_append,
        ih e List.mem_cons_self, ih' fun e' he => ih e' (List.mem_cons_of_mem e he)]

/-- Where numbers are read correctly, the doubles that travel are read back. -/
theorem doublesReadBack_of_numbersReadNearest {d : Descriptor} (h : d.NumbersReadNearest) :
    d.DoublesReadBack := by
  intro x hx
  rw [doubles_eq] at hx
  obtain ⟨text, htext, he⟩ := List.mem_filterMap.1 hx
  obtain ⟨hsent, hwritten⟩ := h text htext x he
  exact Number.readsBack_of_readsNearest (hsent.isFinite (ofText?_of_double? he)) hwritten

/-! ## What does not change -/

theorem isNull_wireForm (d : Descriptor) : d.wireForm.isNull = d.isNull := by
  cases d with
  | _ => rfl

theorem keys_wireForm (entries : List (String × Descriptor)) :
    keys (entries.map fun e => (e.1, e.2.wireForm)) = keys entries := by
  rw [keys, List.map_map]
  rfl

end Descriptor

/-! ## Decoding -/

theorem ScalarKind.decode_wireForm (kind : ScalarKind) (path : String) (d : Descriptor) :
    kind.decode path d.wireForm = kind.decode path d := by
  cases d with
  | numberSet members => cases kind <;> rfl
  | list items => cases kind <;> rfl
  | map entries => cases kind <;> rfl
  | _ => rfl

theorem SetKind.decode_wireForm (kind : SetKind) (path : String) {d : Descriptor}
    (h : d.NumbersReadNearest) : kind.decode path d.wireForm = kind.decode path d := by
  cases d with
  | numberSet members =>
    cases kind with
    | number =>
      have hmembers : List.Forall₂ (fun text sent => ∀ place,
          (decodeNumber place text).map Value.number = (decodeNumber place sent).map Value.number)
          (members.map Descriptor.memberForm) members := by
        rw [List.forall₂_map_left_iff, List.forall₂_same]
        intro text htext place
        rw [Descriptor.decodeNumber_memberForm (h text htext)]
      rw [Descriptor.wireForm, decode, decode, decodeItems_congr hmembers]
    | _ => rfl
  | list items => cases kind <;> rfl
  | map entries => cases kind <;> rfl
  | _ => rfl

namespace Schema

/-- Of the entries of a map only the keys are looked at first, and they arrive as they were. -/
theorem checkNames_wireForm (mode : DecodeMode) (fields : List (String × Schema)) (path : String)
    (entries : List (String × Descriptor)) :
    mode.checkNames fields path (entries.map fun e => (e.1, e.2.wireForm)) =
      mode.checkNames fields path entries := by
  cases mode with
  | lenient => rfl
  | strict => rw [DecodeMode.checkNames, DecodeMode.checkNames, Descriptor.keys_wireForm]

/-- **Decoding does not see the wire.** What arrives is decoded as what was sent, to the same
value or to the same error. It needs nothing of the schema. -/
theorem decodeAt_wireForm {s : Schema} {mode : DecodeMode} {path : String} {d : Descriptor}
    (h : d.NumbersReadNearest) : s.decodeAt mode path d.wireForm = s.decodeAt mode path d := by
  induction s using Schema.induction generalizing path d with
  | scalar m kind =>
    rw [decodeAt, decodeAt, Descriptor.isNull_wireForm, kind.decode_wireForm]
  | set m kind =>
    rw [decodeAt, decodeAt, Descriptor.isNull_wireForm, kind.decode_wireForm path h]
  | map m fields ih =>
    cases d with
    | map entries =>
      have hentries := Descriptor.numbersReadNearest_map.1 h
      have hfields : decodeFields mode fields path (entries.map fun e => (e.1, e.2.wireForm)) =
          decodeFields mode fields path entries := by
        refine decodeFields_congr fun f hf => ?_
        rw [get?_map_snd]
        cases hd : get? f.1 entries with
        | none => rfl
        | some d =>
          rw [Option.map_some, Option.map_some, Option.map_some,
            ih f hf (hentries (f.1, d) (mem_of_get? hd))]
      rw [Descriptor.wireForm_map, decodeAt_map, decodeAt_map, checkNames_wireForm, hfields]
    | _ => rfl
  | list m element ih =>
    cases d with
    | list items =>
      have hitems := Descriptor.numbersReadNearest_list.1 h
      have hall : List.Forall₂ (fun d sent => ∀ place,
          element.decodeAt mode place d = element.decodeAt mode place sent)
          (items.map Descriptor.wireForm) items := by
        rw [List.forall₂_map_left_iff, List.forall₂_same]
        exact fun d hd place => ih (hitems d hd)
      rw [Descriptor.wireForm_list, decodeAt_list, decodeAt_list, decodeItems_congr hall]
    | _ => rfl
  | partitionKey m inner ih =>
    rw [decodeAt, decodeAt, Descriptor.isNull_wireForm, ih h]
  | sortKey m inner ih =>
    rw [decodeAt, decodeAt, Descriptor.isNull_wireForm, ih h]

/-- **The wire is transparent.** A descriptor whose document is nested no deeper than the reader
goes is accepted by the reader, and what arrives is decoded as the descriptor itself: at every
schema and in both modes to the same value, or to the same error. The bound on nesting is that of
the reader, distinct keys are what a map has by itself, and that numbers are read to the nearest
double is asked only of those that travel as JSON numbers. The descriptor need not come from the
encoder. -/
theorem decode_read_wire {d : Descriptor} (hkeys : d.distinctKeys = true)
    (hdepth : d.toDocument.depth ≤ 127) (hnumbers : d.NumbersReadNearest) :
    ∃ d', Descriptor.read d.wire = .ok d' ∧
      ∀ (s : Schema) (mode : DecodeMode), s.decode mode d' = s.decode mode d := by
  have hread : Descriptor.read d.wire = .ok d.wireForm :=
    Descriptor.read_wire_eq_wireForm hkeys hdepth
      (Descriptor.doublesReadBack_of_numbersReadNearest hnumbers)
  refine ⟨d.wireForm, hread, ?_⟩
  intro s mode
  exact decodeAt_wireForm hnumbers

/-- Weights in all the spellings that the wire treats differently: doubles that are put into
other words, an integer beyond 64 bits, one within, a number with a blank, one that is too large,
and a text that is no number at all. -/
def weights : Descriptor :=
  .map [("label", .string "sack"),
    ("weights", .list [.numberSet ["1e2", "-0", "18446744073709551616", "7", " 7", "1e400", "x"],
      .numberSet ["0.30000000000000004"]])]

/-- The decoded weights are the same before and after, and so is the complaint about `1e400`. -/
theorem weights_decode_read_wire : ∃ d', Descriptor.read weights.wire = .ok d' ∧
    ∀ (s : Schema) (mode : DecodeMode), s.decode mode d' = s.decode mode weights :=
  decode_read_wire (by decide) (by decide +kernel) (by decide +kernel)

end Schema

end ItemStore
