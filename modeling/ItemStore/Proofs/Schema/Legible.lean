import ItemStore.Proofs.Schema.RoundTrip

/-
What was encoded and still cannot be decoded.

Encoding takes every instant for a date, also one that its offset from UTC puts into a year
before 0 or after 9999, whereas the texts that can be read have years of four digits. Nothing
else keeps a value from coming back. So decoding tells whether the dates of the value are
legible: it succeeds if all of them are, and otherwise it names one that is not. `Tells` says
this of a computation and some dates. It is closed under sequencing, with one row of dates
after the other, and the proof goes along the schema by that alone.

What writes the text is `format_date` and what refuses it `parse_date`.
-/
set_option autoImplicit false

namespace ItemStore

open Entries

/-- A date whose text can be read again, because its year in UTC has four digits. The year is that
in UTC, after the offset was taken off. -/
def Time.Instant.IsLegible (t : Time.Instant) : Prop := 0 ≤ t.year ∧ t.year ≤ 9999

instance (t : Time.Instant) : Decidable t.IsLegible := inferInstanceAs (Decidable (_ ∧ _))

/-- The refusal of a date's text, at some place. -/
def Error.Refuses (e : Error) (t : Time.Instant) : Prop :=
  ∃ place, e = .invalidDate place (String.ofList t.text)

/-! ## Computations that tell about dates -/

section Tells

variable {α β : Type} {dates more : List Time.Instant}

/-- A computation that succeeds if all of the dates are legible, and otherwise refuses one of
those that are not. Both parts say the same of a date, so dates of several fields can be put
together in a row. -/
structure Tells (dates : List Time.Instant) (x : Except Error α) : Prop where
  legible : ∀ a, x = .ok a → ∀ t ∈ dates, t.IsLegible
  refused : ∀ e, x = .error e → ∃ t ∈ dates, ¬ t.IsLegible ∧ e.Refuses t

/-- A computation that succeeds anyway tells nothing. -/
theorem Tells.ok (a : α) : Tells [] (.ok a : Except Error α) := by
  constructor
  · intro _ _ t ht
    exact absurd ht List.not_mem_nil
  · intro e he
    cases he

theorem Tells.bind {x : Except Error α} {f : α → Except Error β} (hx : Tells dates x)
    (hf : ∀ a, x = .ok a → Tells more (f a)) : Tells (dates ++ more) (x >>= f) := by
  cases x with
  | error e =>
    constructor
    · intro b hb
      cases hb
    · intro e' he
      cases he
      obtain ⟨t, ht, hbad⟩ := hx.refused e rfl
      exact ⟨t, List.mem_append_left more ht, hbad⟩
  | ok a =>
    constructor
    · intro b hb t ht
      rcases List.mem_append.1 ht with ht | ht
      · exact hx.legible a rfl t ht
      · exact (hf a rfl).legible b hb t ht
    · intro e he
      obtain ⟨t, ht, hbad⟩ := (hf a rfl).refused e he
      exact ⟨t, List.mem_append_right dates ht, hbad⟩

/-- Changing a result tells nothing more. -/
theorem Tells.map {x : Except Error α} (hx : Tells dates x) (f : α → β) :
    Tells dates (x.map f) := by
  cases x with
  | error e =>
    constructor
    · intro b hb
      cases hb
    · intro e' he
      cases he
      exact hx.refused e rfl
  | ok a =>
    constructor
    · intro b _
      exact hx.legible a rfl
    · intro e he
      cases he

end Tells

/-- The text of a date tells about this date. -/
theorem tells_decodeDate (t : Time.Instant) (place : String) :
    Tells [t] (decodeDate place (String.ofList t.text)) := by
  by_cases ht : t.IsLegible
  · rw [decodeDate_text ht]
    refine ⟨fun _ _ t' ht' => List.mem_singleton.1 ht' ▸ ht, ?_⟩
    intro e he
    cases he
  · have hrefused : decodeDate place (String.ofList t.text) =
        .error (.invalidDate place (String.ofList t.text)) := by
      rw [decodeDate, String.toList_ofList, Time.Instant.read?_text_eq_none ht]
    rw [hrefused]
    constructor
    · intro a ha
      cases ha
    · intro e he
      cases he
      exact ⟨t, List.mem_singleton_self t, ht, place, rfl⟩

/-- Items that are decoded one by one tell about the dates of all of them. -/
theorem tells_decodeItems {α : Type} {encode : String → Value → Except Error α}
    {decode : String → α → Except Error Value} {dates : Value → List Time.Instant}
    {items : List Value}
    (hitems : ∀ v ∈ items, ∀ path a, encode path v = .ok a → ∀ place,
      Tells (dates v) (decode place a))
    {path : String} {index : Nat} {encoded : List α}
    (h : encodeItems encode path index items = .ok encoded) (place : String) (start : Nat) :
    Tells (items.flatMap dates) (decodeItems decode place start encoded) := by
  induction items generalizing index encoded start with
  | nil =>
    cases h
    exact .ok []
  | cons v items ih =>
    obtain ⟨first, hfirst, h⟩ := bind_eq_ok.1 h
    obtain ⟨rest, hrest, he⟩ := bind_eq_ok.1 h
    cases he
    have hhead := hitems v List.mem_cons_self _ _ hfirst (placeAt place start)
    have htail := ih (fun w hw => hitems w (List.mem_cons_of_mem v hw)) hrest (start + 1)
    refine hhead.bind fun w _ => ?_
    exact htail.map (w :: ·)

namespace Schema

/-- Decoding what a value is encoded as tells about the dates that the node finds in it. -/
def TellsDates (s : Schema) (v : Value) : Prop :=
  ∀ path d, s.encodeAt path v = .ok d → ∀ place,
    Tells (s.dates v) (s.decodeAt .strict place d)

/-! ## The six kinds of nodes -/

/-- There is no date in nothing. -/
theorem dates_null (s : Schema) : s.dates .null = [] := by
  induction s using Schema.induction with
  | scalar m kind => cases kind <;> rfl
  | partitionKey m inner ih => rw [dates, ih]
  | sortKey m inner ih => rw [dates, ih]
  | _ => rfl

/-- Null is decoded as null, so only other values have to be looked at. -/
theorem tellsDates_of_not_isNull {s : Schema} {v : Value}
    (h : v.isNull = false → s.TellsDates v) : s.TellsDates v := by
  cases hv : v.isNull with
  | false => exact h hv
  | true =>
    have hnull : v = .null := by
      cases v with
      | null => rfl
      | _ => cases hv
    subst hnull
    intro path d hencode place
    have hd : d = .null := by
      rw [encodeAt_null] at hencode
      split at hencode
      · exact (Except.ok.inj hencode).symm
      · cases hencode
    rw [hd, decodeAt_null, dates_null]
    exact .ok _

/-- A value without any date comes back, and so there is nothing to tell. -/
theorem RoundTrips.tellsDates {s : Schema} {v : Value} (h : s.RoundTrips v)
    (hdates : s.dates v = []) : s.TellsDates v := by
  intro path d hencode place
  rw [hdates, (h path d hencode place).1]
  exact .ok _

theorem tellsDates_scalar {m : Modifiers} {kind : ScalarKind} {v : Value} :
    (scalar m kind).TellsDates v := by
  by_cases hkind : kind = .date
  · subst hkind
    refine tellsDates_of_not_isNull fun hv path d h place => ?_
    have hd : d.isNull = false := isNull_of_encodeAt h hv
    rw [encodeAt_scalar hv] at h
    obtain ⟨text, htext, rfl⟩ := map_eq_ok.1 (show (encodeDate path v).map .string = .ok d by
      cases v <;> exact h)
    obtain ⟨t, ht, rfl⟩ := date?_of_encodeDate htext
    have hdates : (scalar m .date).dates v = [t] := by simp [dates, ht]
    rw [decodeAt_scalar hd, hdates]
    exact tells_decodeDate t place
  · have hdates : (scalar m kind).dates v = [] := by rw [dates, if_neg hkind]
    refine (roundTrips_scalar ?_).tellsDates hdates
    rw [hdates]
    exact fun t ht => absurd ht List.not_mem_nil

/-- A mark of a key is only looked through. -/
theorem tellsDates_of_mark {s inner : Schema} {v : Value}
    (hencode : ∀ {path v}, v.isNull = false → s.encodeAt path v = inner.encodeAt path v)
    (hdecode : ∀ {path d}, d.isNull = false →
      s.decodeAt .strict path d = inner.decodeAt .strict path d)
    (hdates : s.dates v = inner.dates v) (h : inner.TellsDates v) : s.TellsDates v := by
  refine tellsDates_of_not_isNull fun hv path d hd place => ?_
  have hnull : d.isNull = false := isNull_of_encodeAt hd hv
  rw [hdecode hnull, hdates]
  rw [hencode hv] at hd
  exact h path d hd place

theorem tellsDates_list {m : Modifiers} {element : Schema} {v : Value}
    (h : ∀ items, v = .list items → ∀ w ∈ items, element.TellsDates w) :
    (list m element).TellsDates v := by
  refine tellsDates_of_not_isNull fun hv path d hencode place => ?_
  obtain ⟨items, encoded, rfl, hitems, rfl⟩ := (encodeAt_list_eq_ok hv).1 hencode
  rw [decodeAt_list, dates]
  exact (tells_decodeItems (h items rfl) hitems place 0).map Value.list

/-- The fields of a map tell about the dates that stand under their names. -/
theorem tells_decodeFields {fields : List (String × Schema)} {entries : List (String × Value)}
    {encoded : List (String × Descriptor)} {path : String}
    (htells : ∀ name field v, (name, field) ∈ fields → get? name entries = some v →
      field.TellsDates v)
    (hpresent : ∀ name field v, (name, field) ∈ fields → get? name entries = some v →
      ∃ d, get? name encoded = some d ∧ field.encodeAt (placeOf path name) v = .ok d)
    (habsent : ∀ name, get? name entries = none → get? name encoded = none) (place : String) :
    Tells (datesOfFields fields entries) (decodeFields .strict fields place encoded) := by
  induction fields with
  | nil => exact .ok []
  | cons f fields ih =>
    obtain ⟨name, field⟩ := f
    have hrest := ih (fun n f v hf => htells n f v (List.mem_cons_of_mem _ hf))
      fun n f v hf => hpresent n f v (List.mem_cons_of_mem _ hf)
    rw [decodeFields, datesOfFields]
    cases hv : get? name entries with
    | none =>
      rw [habsent name hv]
      exact hrest
    | some v =>
      obtain ⟨d, hd, hencode⟩ := hpresent name field v List.mem_cons_self hv
      have hfirst := htells name field v List.mem_cons_self hv _ d hencode (placeOf place name)
      rw [hd]
      refine hfirst.bind fun w _ => ?_
      exact hrest.map ((name, w) :: ·)

theorem tellsDates_map {m : Modifiers} {fields : List (String × Schema)} {v : Value}
    (hnodup : (keys fields).Nodup)
    (htells : ∀ entries, v = .map entries → ∀ name field w, (name, field) ∈ fields →
      get? name entries = some w → field.TellsDates w) :
    (map m fields).TellsDates v := by
  refine tellsDates_of_not_isNull fun hv path d hencode place => ?_
  obtain ⟨entries, encoded, rfl, hfields, rfl⟩ := (encodeAt_map_eq_ok hv).1 hencode
  have htold := tells_decodeFields (htells entries rfl)
    (fun name field w hfield hw => get?_of_encodeFields hnodup hfields hfield hw)
    (fun name hnone => get?_eq_none_of_encodeFields hfields hnone) place
  -- all names are declared, so decoding goes straight to the fields
  have hdecode : (map m fields).decodeAt .strict place (.map encoded) =
      (decodeFields .strict fields place encoded).map Value.map := by
    rw [decodeAt]
    simp only [Descriptor.isNull, Bool.false_eq_true, if_false,
      checkNames_of_encodeFields hfields place]
    cases decodeFields .strict fields place encoded <;> rfl
  rw [hdecode, dates]
  exact htold.map Value.map

/-! ## The whole schema -/

/-- Every node tells about its dates, by induction on the schema. -/
theorem tellsDates {s : Schema} (hnames : s.repeatedName? = none) {v : Value} :
    s.TellsDates v := by
  induction s using Schema.induction generalizing v with
  | scalar m kind => exact tellsDates_scalar
  | set m kind => exact (roundTrips_set m kind v).tellsDates rfl
  | map m fields ih =>
    obtain ⟨hnodup, -, hinside⟩ := repeatedNameAmong?_eq_none hnames
    refine tellsDates_map hnodup ?_
    rintro entries rfl name field w hfield hw
    exact ih _ hfield (hinside _ hfield)
  | list m element ih =>
    refine tellsDates_list ?_
    rintro items rfl w hw
    exact ih hnames
  | partitionKey m inner ih =>
    exact tellsDates_of_mark encodeAt_partitionKey decodeAt_partitionKey (by rw [dates])
      (ih hnames)
  | sortKey m inner ih =>
    exact tellsDates_of_mark encodeAt_sortKey decodeAt_sortKey (by rw [dates])
      (ih hnames)

/-- **What comes back.** What a value of a declared schema is encoded as is decoded if and only if
all the dates that the schema finds in the value are legible. Where it is not, the error names one
of the dates that are not. The equivalence leaves no other reason for a failure, and the second
part leaves no other error. Nothing is asked of the value but that it was encoded. -/
theorem decodes_iff_legible {s : Schema} (hschema : s.validate = .ok s) {v : Value}
    {d : Descriptor} (h : s.encode v = .ok d) :
    ((∃ w, s.decode .strict d = .ok w) ↔ ∀ t ∈ s.dates v, t.IsLegible) ∧
      ∀ e, s.decode .strict d = .error e → ∃ t ∈ s.dates v, ¬ t.IsLegible ∧ e.Refuses t := by
  have hnames : s.repeatedName? = none := repeatedName?_eq_none_of_validate hschema
  have htells : Tells (s.dates v) (s.decode .strict d) := tellsDates hnames "" d h ""
  refine ⟨⟨?_, ?_⟩, htells.refused⟩
  · rintro ⟨w, hw⟩
    exact htells.legible w hw
  · intro hlegible
    exact ⟨s.norm v, (roundTrips hnames hlegible "" d h "").1⟩

/-- A reading at the turn of a millennium, by a clock that is behind. -/
def lateReading : Value :=
  .map
    [("gauge", .string "west"), ("at", .string "9999-12-31T23:59:59-01:00"),
      ("level", .number 0.5), ("samples", .list [])]

/-- The reading is stored with a date of the year 10000, and is refused for it. -/
theorem lateReading_refused : ∃ d, gauge.encode lateReading = .ok d ∧
    (∀ t ∈ gauge.dates lateReading, t = ⟨253402304399, 0⟩) ∧
    ¬ ∃ w, gauge.decode .strict d = .ok w := by
  have hrun : ((gauge.encode lateReading).toOption.map fun _ => ()) = some () := by
    decide +kernel
  have hdates : gauge.dates lateReading = [⟨253402304399, 0⟩] := by decide +kernel
  obtain ⟨d, hencode, -⟩ := exists_ok_of_toOption_map hrun
  refine ⟨d, hencode, by simp [hdates], ?_⟩
  rw [(decodes_iff_legible (s := gauge) rfl hencode).1, hdates]
  decide +kernel

/-- An hour west of Greenwich the year 9999 ends in the year 10000. So its last second is encoded
with a year of five digits, and cannot be decoded. -/
theorem endOfYear_refused : ∃ d,
    (ofKind .date).encode (.string "9999-12-31T23:59:59-01:00") = .ok d ∧
      ∀ w, (ofKind .date).decode .strict d ≠ .ok w := by
  have hencode : (ofKind .date).encode (.string "9999-12-31T23:59:59-01:00") =
      .ok (.string "+10000-01-01T00:59:59.000Z") := by cbv
  have hread : Time.Instant.read? "+10000-01-01T00:59:59.000Z".toList = none := by decide +kernel
  refine ⟨_, hencode, ?_⟩
  intro w hw
  rw [decode, ofKind, decodeAt_scalar rfl, ScalarKind.decode, decodeDate, hread] at hw
  cases hw

end Schema

end ItemStore
