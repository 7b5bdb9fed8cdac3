import ItemStore.Proofs.Schema.Encoding
import ItemStore.Proofs.Time.Instant

/-
What is left of a value that was stored.

A value goes into the store along its schema and comes back along it, and three things do
not survive the way: keys that the schema does not declare, texts in the place of dates, and
what is finer than a millisecond. `norm` drops just these. It is a recursion over the schema,
as encoding and decoding are, so that the three can be compared node by node; a map comes
out in the order of its declaration.
-/
set_option autoImplicit false

namespace ItemStore

open Entries

namespace Value

/-- The date a value is taken for where a date is expected. -/
def date? : Value → Option Time.Instant
  | date t => some t
  | string s => Time.Instant.read? s.toList
  | _ => none

/-- A date, or the text of one, as the date of whole milliseconds that is shown of it. It is what
a reader of the text sees (`Instant.shown`), so a leap second that is shown as the next second
comes out as that second. -/
def normDate (v : Value) : Value :=
  match v.date? with
  | some t => .date t.shown
  | none => v

end Value

namespace Schema

mutual

/-- What comes back of a value. Values that do not fit their schema are left as they are; nothing
is said of them, since they are not encoded. -/
def norm (s : Schema) (v : Value) : Value :=
  match s with
  | .scalar _ kind => if kind = .date then v.normDate else v
  | .set _ _ => v
  | .map _ fields =>
    match v with
    | .map entries => .map (normFields fields entries)
    | v => v
  | .list _ element =>
    match v with
    | .list items => .list (items.map element.norm)
    | v => v
  | .partitionKey _ inner => inner.norm v
  | .sortKey _ inner => inner.norm v

/-- What comes back of what a map has under the names of some fields. -/
def normFields (fields : List (String × Schema)) (entries : List (String × Value)) :
    List (String × Value) :=
  match fields with
  | [] => []
  | (name, field) :: fields =>
    match get? name entries with
    | some v => (name, field.norm v) :: normFields fields entries
    | none => normFields fields entries

end

mutual

/-- The dates that a schema finds in a value. Texts under a date node are among them, as the dates
that they are read as. -/
def dates (s : Schema) (v : Value) : List Time.Instant :=
  match s with
  | .scalar _ kind => if kind = .date then v.date?.toList else []
  | .set _ _ => []
  | .map _ fields =>
    match v with
    | .map entries => datesOfFields fields entries
    | _ => []
  | .list _ element =>
    match v with
    | .list items => items.flatMap element.dates
    | _ => []
  | .partitionKey _ inner => inner.dates v
  | .sortKey _ inner => inner.dates v

/-- The dates that some fields find in a map. -/
def datesOfFields (fields : List (String × Schema)) (entries : List (String × Value)) :
    List Time.Instant :=
  match fields with
  | [] => []
  | (name, field) :: fields =>
    (match get? name entries with
      | some v => field.dates v
      | none => []) ++ datesOfFields fields entries

end

/-! ## Nothing -/

theorem norm_null (s : Schema) : s.norm .null = .null := by
  induction s using Schema.induction with
  | scalar m kind => cases kind <;> rfl
  | partitionKey m inner ih => rw [norm, ih]
  | sortKey m inner ih => rw [norm, ih]
  | _ => rfl

theorem isNull_norm {s : Schema} {v : Value} (hv : v.isNull = false) :
    (s.norm v).isNull = false := by
  induction s using Schema.induction with
  | scalar m kind =>
    rw [norm]
    split
    -- a date stays a date
    · rw [Value.normDate]
      split
      · rfl
      · exact hv
    · exact hv
  | set m kind => exact hv
  | map m fields ih => cases v <;> first | rfl | exact hv
  | list m element ih => cases v <;> first | rfl | exact hv
  | partitionKey m inner ih =>
    rw [norm]
    exact ih
  | sortKey m inner ih =>
    rw [norm]
    exact ih

/-! ## Maps -/

/-- **Normalized maps.** Under a name there is what is left of the value that was there, if the
name is declared, and nothing otherwise. It is all that decoding needs to know of a normalized
map. -/
theorem get?_normFields (name : String) (fields : List (String × Schema))
    (entries : List (String × Value)) :
    get? name (normFields fields entries) =
      (get? name fields).bind fun field => (get? name entries).map field.norm := by
  induction fields with
  | nil => rfl
  | cons f fields ih =>
    obtain ⟨n, field⟩ := f
    rw [normFields]
    -- the first field of the name decides, on both sides
    by_cases hn : n = name
    · subst hn
      cases hv : get? n entries with
      | none =>
        -- what is absent under the first is absent under all others of the name
        simp only [ih, hv]
        simp
      | some v => simp [get?]
    · cases hv : get? n entries with
      | none => simp [get?, hn, ih]
      | some v => simp [get?, hn, ih]

/-- The dates that a field finds are among those of its map. -/
theorem mem_datesOfFields {fields : List (String × Schema)} {entries : List (String × Value)}
    {name : String} {field : Schema} {v : Value} {t : Time.Instant}
    (hfield : (name, field) ∈ fields) (hv : get? name entries = some v) (ht : t ∈ field.dates v) :
    t ∈ datesOfFields fields entries := by
  induction fields with
  | nil => cases hfield
  | cons f fields ih =>
    rw [datesOfFields, List.mem_append]
    rcases List.mem_cons.1 hfield with rfl | hfield
    · left
      simpa only [hv] using ht
    · exact .inr (ih hfield)

end Schema

end ItemStore
