import ItemStore.Proofs.Decimal.Plain
import ItemStore.Proofs.Schema.Normal

/-
A value that was encoded is decoded to its normal form.

Encoding, decoding and `norm` all go along the schema, so the proof does too. What it shows
of a node, `RoundTrips`, is said of every place: a place is only ever used for messages, and
a value that is encoded at one of them is encoded as the same at any other. Null is treated
once for all nodes, because every node looks for it first. For the other values each kind of
node is inverted: from what was encoded it is known what the value must have been, and then
decoding has nothing to decide.

At the leaves stand two facts about texts, that the text of a finite number names it and that
the text of an instant names it up to milliseconds.

The round trip is `decode` after `encode`.
-/
set_option autoImplicit false

namespace ItemStore

open Entries

/-- A number comes back. -/
theorem decodeNumber_of_encodeNumber {path text : String} {x : Float}
    (h : encodeNumber path x = .ok text) (place : String) :
    decodeNumber place text = .ok x ∧ encodeNumber place x = .ok text := by
  obtain ⟨hx, rfl⟩ := encodeNumber_eq_ok.1 h
  refine ⟨?_, encodeNumber_eq_ok.2 ⟨hx, rfl⟩⟩
  have hfilter : (some x).filter Float.isFinite = some x := by simp [hx]
  rw [decodeNumber, Decimal.read?_plain hx, hfilter]

/-! ## Lists and sets -/

section Items

variable {α : Type} {encode : String → Value → Except Error α}

/-- Members from which their items can be told are the same at every place, and the items
can be told from all of them. -/
theorem map_of_encodeItems {f : α → Value}
    (hf : ∀ path v a, encode path v = .ok a → f a = v ∧ ∀ place, encode place v = .ok a)
    {path : String} {index : Nat} {items : List Value} {members : List α}
    (h : encodeItems encode path index items = .ok members) (place : String) (start : Nat) :
    members.map f = items ∧ encodeItems encode place start items = .ok members := by
  -- item by item; the place only moves on
  induction items generalizing index members start with
  | nil =>
    cases h
    exact ⟨rfl, rfl⟩
  | cons v items ih =>
    obtain ⟨first, hfirst, h⟩ := bind_eq_ok.1 h
    obtain ⟨rest, hrest, he⟩ := bind_eq_ok.1 h
    cases he
    obtain ⟨hback, hagain⟩ := hf _ _ _ hfirst
    obtain ⟨hbacks, hagains⟩ := ih hrest (start + 1)
    refine ⟨by rw [List.map_cons, hback, hbacks], ?_⟩
    rw [encodeItems, hagain]
    simp only [bind, Except.bind, hagains]

/-- Items that come back one by one come back as a list. -/
theorem decodeItems_of_encodeItems {decode : String → α → Except Error Value}
    {norm : Value → Value} {items : List Value}
    (hitems : ∀ v ∈ items, ∀ path a, encode path v = .ok a → ∀ place,
      decode place a = .ok (norm v) ∧ encode place (norm v) = .ok a)
    {path : String} {index : Nat} {encoded : List α}
    (h : encodeItems encode path index items = .ok encoded) (place : String) (start : Nat) :
    decodeItems decode place start encoded = .ok (items.map norm) ∧
      encodeItems encode place start (items.map norm) = .ok encoded := by
  induction items generalizing index encoded start with
  | nil =>
    cases h
    exact ⟨rfl, rfl⟩
  | cons v items ih =>
    obtain ⟨first, hfirst, h⟩ := bind_eq_ok.1 h
    obtain ⟨rest, hrest, he⟩ := bind_eq_ok.1 h
    cases he
    obtain ⟨hdecode, hencode⟩ := hitems v (by simp) _ _ hfirst (placeAt place start)
    obtain ⟨hdecodes, hencodes⟩ := ih (fun w hw => hitems w (by simp [hw])) hrest (start + 1)
    refine ⟨?_, ?_⟩
    · rw [decodeItems, hdecode, List.map_cons]
      simp only [bind, Except.bind, hdecodes]
    · rw [List.map_cons, encodeItems, hencode]
      simp only [bind, Except.bind, hencodes]

end Items

/-! ## Scalars -/

/-- A date is encoded as the text of the instant it is taken for. -/
theorem date?_of_encodeDate {path text : String} {v : Value} (h : encodeDate path v = .ok text) :
    ∃ t, v.date? = some t ∧ text = String.ofList t.text := by
  unfold encodeDate at h
  split at h
  · next t => exact ⟨t, rfl, (Except.ok.inj h).symm⟩
  · next s =>
    split at h
    · next t ht => exact ⟨t, ht, (Except.ok.inj h).symm⟩
    · cases h
  · cases h

theorem decodeDate_text {t : Time.Instant} (hyear : 0 ≤ t.year ∧ t.year ≤ 9999)
    (place : String) : decodeDate place (String.ofList t.text) = .ok (.date t.shown) := by
  rw [decodeDate, String.toList_ofList, Time.Instant.read?_text hyear.1 hyear.2]

namespace Schema

/-- What is asked of a node and a value: whatever the value is encoded as is decoded, at any
place, to what is left of the value, and that is encoded as the same again. The second half is
needed by itself: it says that decoding and encoding again changes nothing in the store. -/
def RoundTrips (s : Schema) (v : Value) : Prop :=
  ∀ path d, s.encodeAt path v = .ok d → ∀ place,
    s.decodeAt .strict place d = .ok (s.norm v) ∧ s.encodeAt place (s.norm v) = .ok d

/-! ## The six kinds of nodes -/

/-- A null comes back as null, so only other values have to be looked at. -/
theorem roundTrips_of_not_isNull {s : Schema} {v : Value}
    (h : v.isNull = false → s.RoundTrips v) : s.RoundTrips v := by
  cases hv : v.isNull with
  | false => exact h hv
  | true =>
    have hnull : v = .null := by
      cases v <;> first | rfl | cases hv
    subst hnull
    intro path d hencode place
    rw [encodeAt_null] at hencode
    -- null was encoded, so the node is nullable, and it still is at the other place
    split at hencode
    · next hnullable =>
      cases hencode
      rw [norm_null, encodeAt_null, if_pos hnullable, decodeAt_null]
      exact ⟨rfl, rfl⟩
    · cases hencode

theorem roundTrips_scalar {m : Modifiers} {kind : ScalarKind} {v : Value}
    (hyears : ∀ t ∈ (scalar m kind).dates v, 0 ≤ t.year ∧ t.year ≤ 9999) :
    (scalar m kind).RoundTrips v := by
  refine roundTrips_of_not_isNull fun hv path d h place => ?_
  have hd : d.isNull = false := isNull_of_encodeAt h hv
  have hnorm : ((scalar m kind).norm v).isNull = false := isNull_norm hv
  rw [encodeAt_scalar hnorm, decodeAt_scalar hd, norm]
  rw [encodeAt_scalar hv] at h
  -- one case for each kind together with the shape of value that it takes
  unfold ScalarKind.encode at h
  split at h
  · cases h
    exact ⟨rfl, rfl⟩
  · obtain ⟨text, htext, rfl⟩ := map_eq_ok.1 h
    obtain ⟨hback, hagain⟩ := decodeNumber_of_encodeNumber htext place
    exact ⟨map_eq_ok.2 ⟨_, hback, rfl⟩, map_eq_ok.2 ⟨_, hagain, rfl⟩⟩
  · cases h
    exact ⟨rfl, rfl⟩
  · -- a date comes back as what its text shows of it, and that has the same text
    obtain ⟨text, htext, rfl⟩ := map_eq_ok.1 h
    obtain ⟨t, ht, rfl⟩ := date?_of_encodeDate htext
    have hyear : 0 ≤ t.year ∧ t.year ≤ 9999 := hyears t (by simp [dates, ht])
    have hback := decodeDate_text hyear place
    rw [if_pos rfl, Value.normDate, ht]
    refine ⟨hback, map_eq_ok.2 ⟨_, rfl, ?_⟩⟩
    rw [Time.Instant.text_shown]
  · cases h
    exact ⟨rfl, rfl⟩
  · cases h

theorem roundTrips_set (m : Modifiers) (kind : SetKind) (v : Value) :
    (set m kind).RoundTrips v := by
  refine roundTrips_of_not_isNull fun hv path d h place => ?_
  have hd : d.isNull = false := isNull_of_encodeAt h hv
  rw [decodeAt_set hd, norm, encodeAt_set hv]
  rw [encodeAt_set hv] at h
  cases v with
  | list items =>
    cases kind with
    | string =>
      obtain ⟨members, hmembers, rfl⟩ := map_eq_ok.1 h
      obtain ⟨hback, hagain⟩ := map_of_encodeItems (f := Value.string)
        (fun path v a ha => by cases v <;> cases ha; exact ⟨rfl, fun _ => rfl⟩) hmembers place 0
      exact ⟨by rw [SetKind.decode, hback], map_eq_ok.2 ⟨_, hagain, rfl⟩⟩
    | number =>
      -- number members are read one by one, so they come back as the items of a list do
      obtain ⟨members, hmembers, rfl⟩ := map_eq_ok.1 h
      have hmember : ∀ w ∈ items, ∀ path text, SetKind.numberMember path w = .ok text →
          ∀ place, (decodeNumber place text).map Value.number = .ok (id w) ∧
            SetKind.numberMember place (id w) = .ok text := by
        intro w _ path text hw place
        cases w with
        | number x =>
          obtain ⟨hback, hagain⟩ := decodeNumber_of_encodeNumber hw place
          exact ⟨map_eq_ok.2 ⟨_, hback, rfl⟩, hagain⟩
        | _ => cases hw
      have hback := decodeItems_of_encodeItems hmember hmembers place 0
      rw [List.map_id] at hback
      exact ⟨map_eq_ok.2 ⟨_, hback.1, rfl⟩, map_eq_ok.2 ⟨_, hback.2, rfl⟩⟩
    | binary =>
      obtain ⟨members, hmembers, rfl⟩ := map_eq_ok.1 h
      obtain ⟨hback, hagain⟩ := map_of_encodeItems (f := Value.binary)
        (fun path v a ha => by cases v <;> cases ha; exact ⟨rfl, fun _ => rfl⟩) hmembers place 0
      exact ⟨by rw [SetKind.decode, hback], map_eq_ok.2 ⟨_, hagain, rfl⟩⟩
  | _ => cases h

/-- A mark of a key is only looked through, by encoding, by decoding and by `norm`. -/
theorem roundTrips_of_mark {s inner : Schema} {v : Value}
    (hencode : ∀ {path v}, v.isNull = false → s.encodeAt path v = inner.encodeAt path v)
    (hdecode : ∀ {path d}, d.isNull = false →
      s.decodeAt .strict path d = inner.decodeAt .strict path d)
    (hnorm : s.norm v = inner.norm v) (h : inner.RoundTrips v) : s.RoundTrips v := by
  refine roundTrips_of_not_isNull fun hv path d hd place => ?_
  have hnull : d.isNull = false := isNull_of_encodeAt hd hv
  rw [hencode hv] at hd
  rw [hdecode hnull, hnorm, hencode (isNull_norm hv)]
  exact h path d hd place

theorem roundTrips_list {m : Modifiers} {element : Schema} {v : Value}
    (h : ∀ items, v = .list items → ∀ w ∈ items, element.RoundTrips w) :
    (list m element).RoundTrips v := by
  refine roundTrips_of_not_isNull fun hv path d hencode place => ?_
  obtain ⟨items, encoded, rfl, hitems, rfl⟩ := (encodeAt_list_eq_ok hv).1 hencode
  obtain ⟨hdecode, hagain⟩ := decodeItems_of_encodeItems (h items rfl) hitems place 0
  rw [decodeAt_list, norm]
  exact ⟨map_eq_ok.2 ⟨_, hdecode, rfl⟩, (encodeAt_list_eq_ok rfl).2 ⟨_, _, rfl, hagain, rfl⟩⟩

/-! ## Maps -/

section Fields

variable {fields : List (String × Schema)} {entries : List (String × Value)}
  (hround : ∀ name field v, (name, field) ∈ fields → get? name entries = some v →
    field.RoundTrips v)
include hround

/-- The fields of a map are decoded to the fields of the normalized map. -/
theorem decodeFields_of_encoded {encoded : List (String × Descriptor)} {path : String}
    (hpresent : ∀ name field v, (name, field) ∈ fields → get? name entries = some v →
      ∃ d, get? name encoded = some d ∧ field.encodeAt (placeOf path name) v = .ok d)
    (habsent : ∀ name, get? name entries = none → get? name encoded = none) (place : String) :
    decodeFields .strict fields place encoded = .ok (normFields fields entries) := by
  -- along the declaration, which both sides follow; what is encoded is only asked by name
  induction fields with
  | nil => rfl
  | cons f fields ih =>
    obtain ⟨name, field⟩ := f
    have hrest := ih (fun n f v hf => hround n f v (List.mem_cons_of_mem _ hf))
      fun n f v hf => hpresent n f v (List.mem_cons_of_mem _ hf)
    rw [decodeFields, normFields]
    cases hv : get? name entries with
    | none =>
      rw [habsent name hv]
      exact hrest
    | some v =>
      obtain ⟨d, hd, hencode⟩ := hpresent name field v List.mem_cons_self hv
      have hfirst := (hround name field v List.mem_cons_self hv _ d hencode
        (placeOf place name)).1
      rw [hd]
      simp only [hfirst, hrest, bind, Except.bind]

/-- The normalized map is encoded as the map is. -/
theorem encodeFields_of_normal {normal : List (String × Value)}
    (hnormal : ∀ name field, (name, field) ∈ fields →
      get? name normal = (get? name entries).map field.norm)
    {path : String} {encoded : List (String × Descriptor)}
    (h : encodeFields fields path entries = .ok encoded) (place : String) :
    encodeFields fields place normal = .ok encoded := by
  -- along the declaration again; the normalized map stays the whole one
  induction fields generalizing encoded with
  | nil => exact h
  | cons f fields ih =>
    obtain ⟨name, field⟩ := f
    have hrest := @ih (fun n f v hf => hround n f v (List.mem_cons_of_mem _ hf))
      fun n f hf => hnormal n f (List.mem_cons_of_mem _ hf)
    have hfield := hnormal name field List.mem_cons_self
    rw [encodeFields_cons_eq_ok, hfield]
    rcases encodeFields_cons_eq_ok.1 h with ⟨v, d, rest, hv, hd, hr, rfl⟩ | ⟨hnone, hoptional, hr⟩
    · have hfirst := (hround name field v List.mem_cons_self hv _ d hd (placeOf place name)).2
      exact .inl ⟨field.norm v, d, rest, by rw [hv, Option.map_some], hfirst, hrest hr, rfl⟩
    · exact .inr ⟨by rw [hnone, Option.map_none], hoptional, hrest hr⟩

end Fields

theorem roundTrips_map {m : Modifiers} {fields : List (String × Schema)} {v : Value}
    (hnodup : (keys fields).Nodup)
    (hround : ∀ entries, v = .map entries → ∀ name field w, (name, field) ∈ fields →
      get? name entries = some w → field.RoundTrips w) :
    (map m fields).RoundTrips v := by
  refine roundTrips_of_not_isNull fun hv path d hencode place => ?_
  obtain ⟨entries, encoded, rfl, hfields, rfl⟩ := (encodeAt_map_eq_ok hv).1 hencode
  have hround := hround entries rfl
  have hdecode := decodeFields_of_encoded hround
    (fun name field w hfield hw => get?_of_encodeFields hnodup hfields hfield hw)
    (fun name hnone => get?_eq_none_of_encodeFields hfields hnone) place
  -- no name is repeated, so each of them belongs to one field
  have hnormal : ∀ name field, (name, field) ∈ fields →
      get? name (normFields fields entries) = (get? name entries).map field.norm := by
    intro name field hfield
    rw [get?_normFields, get?_of_mem hnodup hfield]
    rfl
  have hagain := encodeFields_of_normal hround hnormal hfields place
  have hmap : (map m fields).decodeAt .strict place (.map encoded) =
      .ok (.map (normFields fields entries)) := by
    rw [decodeAt]
    simp only [Descriptor.isNull, Bool.false_eq_true, if_false, hdecode,
      checkNames_of_encodeFields hfields place, bind, Except.bind]
  rw [hmap, norm]
  exact ⟨rfl, (encodeAt_map_eq_ok rfl).2 ⟨_, _, rfl, hagain, rfl⟩⟩

/-! ## The whole schema -/

/-- Every node comes back, by induction on the schema: a node asks of the nodes inside it what
it is asked itself. -/
theorem roundTrips {s : Schema} (hnames : s.repeatedName? = none) {v : Value}
    (hyears : ∀ t ∈ s.dates v, 0 ≤ t.year ∧ t.year ≤ 9999) : s.RoundTrips v := by
  induction s using Schema.induction generalizing v with
  | scalar m kind => exact roundTrips_scalar hyears
  | set m kind => exact roundTrips_set m kind v
  | map m fields ih =>
    obtain ⟨hnodup, -, hinside⟩ := repeatedNameAmong?_eq_none hnames
    refine roundTrips_map hnodup ?_
    rintro entries rfl name field w hfield hw
    refine ih _ hfield (hinside _ hfield) fun t ht => ?_
    exact hyears t (mem_datesOfFields hfield hw ht)
  | list m element ih =>
    refine roundTrips_list ?_
    rintro items rfl w hw
    refine ih hnames fun t ht => ?_
    exact hyears t (List.mem_flatMap.2 ⟨w, hw, ht⟩)
  | partitionKey m inner ih =>
    exact roundTrips_of_mark encodeAt_partitionKey decodeAt_partitionKey (by rw [norm])
      (ih hnames hyears)
  | sortKey m inner ih =>
    exact roundTrips_of_mark encodeAt_sortKey decodeAt_sortKey (by rw [norm])
      (ih hnames hyears)

/-- **Values come back.** What a value of a declared schema is encoded as is decoded to the
value's normal form, and the normal form is encoded as the same. Names must not be repeated, as
`validate` checks, and the dates of the value have to be in years of four digits, since no text
with another year can be read. Numbers need no condition: every finite double has a text that
names it, which is proved and not assumed. -/
theorem decode_encode {s : Schema} (hschema : s.validate = .ok s) {v : Value}
    (hyears : ∀ t ∈ s.dates v, 0 ≤ t.year ∧ t.year ≤ 9999) {d : Descriptor}
    (h : s.encode v = .ok d) :
    s.decode .strict d = .ok (s.norm v) ∧ s.encode (s.norm v) = .ok d := by
  have hnames : s.repeatedName? = none := repeatedName?_eq_none_of_validate hschema
  exact roundTrips hnames hyears "" d h ""

/-- Readings of a gauge, each with its samples. -/
def gauge : Schema :=
  .map .none
    [("gauge", .partitionKey .none (.ofKind .string)), ("at", .sortKey .none (.ofKind .date)),
      ("level", .ofKind .number),
      ("samples", .list .none (.map .none [("level", .ofKind .number)])),
      ("marks", .set { nullable := false, optional := true } .string),
      ("note", .scalar { nullable := true, optional := true } .string)]

/-- A reading during a leap second, with a text for its date and with keys of its own. -/
def leapReading : Value :=
  .map
    [("note", .null), ("draft", .bool true), ("level", .number 0.1), ("gauge", .string "north"),
      ("samples", .list [.map [("level", .number (-2.5e-7)), ("raw", .string "x")]]),
      ("at", .string "2017-01-01T00:59:60.123456+01:00")]

/-- What is stored of the reading. -/
def leapItem : Descriptor :=
  .map
    [("gauge", .string "north"), ("at", .string "2016-12-31T23:59:60.123Z"),
      ("level", .number "0.1"), ("samples", .list [.map [("level", .number "-0.00000025")]]),
      ("note", .null)]

/-- The reading comes back in the order of the declaration, and its date is still in the leap
second. -/
theorem leapReading_decode_encode : ∃ d, gauge.encode leapReading = .ok d ∧
    d.same leapItem = true ∧ gauge.decode .strict d = .ok (gauge.norm leapReading) ∧
    gauge.encode (gauge.norm leapReading) = .ok d ∧
    gauge.norm leapReading = .map
      [("gauge", .string "north"), ("at", .date ⟨1483228799, 1123000000⟩), ("level", .number 0.1),
        ("samples", .list [.map [("level", .number (-2.5e-7))]]), ("note", .null)] := by
  have hrun : ((gauge.encode leapReading).toOption.map fun d => d.same leapItem) = some true := by
    decide +kernel
  have hyears : ((gauge.dates leapReading).all fun t => decide (0 ≤ t.year ∧ t.year ≤ 9999)) =
      true := by
    decide +kernel
  have hdate : Value.date? (.string "2017-01-01T00:59:60.123456+01:00") =
      some ⟨1483228799, 1123456000⟩ := by
    decide +kernel
  obtain ⟨d, hencode, hsame⟩ := exists_ok_of_toOption_map hrun
  obtain ⟨hdecode, hagain⟩ := decode_encode (s := gauge) rfl
    (fun t ht => of_decide_eq_true (List.all_eq_true.1 hyears t ht)) hencode
  refine ⟨d, hencode, hsame, hdecode, hagain, ?_⟩
  simp [gauge, leapReading, norm, normFields, get?, ofKind, Value.normDate, hdate,
    Time.Instant.shown]

end Schema

end ItemStore
