import ItemStore.Proofs.Schema.Descent
import ItemStore.Proofs.Schema.Places
import ItemStore.Proofs.Walk

/-
What is wrong with a value that cannot be encoded.

A value may be wrong in many places, and the error tells of one. Which one it is follows from a walk
over the schema and the value at once (`inspection`): what a node asks for is compared with what the
value has there, and then come the fields that a map declares, the items of a list, or the members
of a set. A field is visited even if the map has nothing under its name, for this may be what is
wrong. The error tells of the first visit on which something is.

The error names the place by a text that was put together on the way. Read back it leads to what was
visited: its segments are followed from the root, in the value and in the schema, where a mark of a
key takes no segment. That needs names without dots, since a dot is where the text is cut, and names
that are not empty, since the empty text is the root; and no name twice in a map, since a segment
leads to the first field of its name.

The walk is that of `encode_value`, whose errors tell the place that `join` and `join_index` have
put together.
-/
set_option autoImplicit false

namespace ItemStore

open Entries

/-! ## What may be wrong -/

/-- What is wrong with a value where it stands. It leaves out the place, which is the same for all
misfits at one node. -/
inductive Misfit where
  /-- There is none. -/
  | missing
  /-- It is null. -/
  | null
  /-- It is something else. -/
  | shape (expected found : String)
  /-- It is a text that is no date. -/
  | date (text : String)
  deriving DecidableEq, Repr

/-- The error that tells of it. -/
def Misfit.error (place : String) : Misfit → Error
  | missing => .valueNotOptional place
  | null => .valueNotNullable place
  | shape expected found => .shapeMismatch place expected found
  | date text => .invalidDate place text

/-- What is wrong with a value as a scalar. -/
def ScalarKind.misfit? (kind : ScalarKind) (v : Value) : Option Misfit :=
  match kind, v with
  | .string, .string _ => none
  | .number, .number x =>
    if x.isFinite then none else some (.shape "finite number" (Decimal.plain x))
  | .boolean, .bool _ => none
  | .date, .date _ => none
  | .date, .string text =>
    if (Time.Instant.read? text.toList).isSome then none else some (.date text)
  | .binary, .binary _ => none
  | kind, v => some (.shape kind.text v.kindName)

/-- What a schema has at a place: a node, or no more than the kind of a set that is there. Members
of a set have no node of their own in a schema, and still they are visited and can be wrong. -/
inductive Demand where
  | node (s : Schema)
  | member (kind : SetKind)

/-- What is wrong with a value itself, whatever is inside it. What is inside a map or a list is
not looked at, which is what makes a fault one of the node itself. -/
def Schema.misfit? (s : Schema) (v : Value) : Option Misfit :=
  if v.isNull then
    if s.isNullable then none else some .null
  else
    match s.unmarked with
    | .scalar _ kind => kind.misfit? v
    | .set _ kind => if v.items?.isSome then none else some (.shape kind.text v.kindName)
    | .map _ _ => if v.entries?.isSome then none else some (.shape "map" v.kindName)
    | .list _ _ => if v.items?.isSome then none else some (.shape "list" v.kindName)
    -- what is left without its marks has none
    | _ => none

/-- What is wrong with what is there, or that there is nothing. -/
def Demand.misfit? (demand : Demand) (value : Option Value) : Option Misfit :=
  match demand, value with
  | node s, some v => s.misfit? v
  | node s, none => if s.isOptional then none else some .missing
  | member kind, some v => kind.member.misfit? v
  | member _, none => none

theorem ScalarKind.misfit?_ne_missing (kind : ScalarKind) (v : Value) :
    kind.misfit? v ≠ some .missing := by
  unfold misfit?
  split
  case h_2 | h_5 => split <;> simp
  all_goals simp

theorem Schema.misfit?_ne_missing (s : Schema) (v : Value) : s.misfit? v ≠ some .missing := by
  unfold misfit?
  split
  · split <;> simp
  · split
    · exact ScalarKind.misfit?_ne_missing _ v
    · split <;> simp
    · split <;> simp
    · split <;> simp
    · simp

/-- What is missing is not there, and nothing else is wrong with what is not there. -/
theorem Demand.missing_iff {demand : Demand} {value : Option Value} {misfit : Misfit}
    (h : demand.misfit? value = some misfit) : misfit = .missing ↔ value = none := by
  constructor
  · rintro rfl
    cases value with
    | none => rfl
    | some v =>
      cases demand with
      | node s => exact absurd h (s.misfit?_ne_missing v)
      | member kind => exact absurd h (kind.member.misfit?_ne_missing v)
  · rintro rfl
    cases demand with
    | node s =>
      rw [misfit?] at h
      split at h
      · cases h
      · exact (Option.some.inj h).symm
    | member kind => cases h

/-- What a schema has one segment further down. -/
def Demand.step? (demand : Demand) (segment : String) : Option Demand :=
  match demand with
  | node s =>
    match s.unmarked with
    | .map _ fields => (get? segment fields).map node
    | .list _ element => some (.node element)
    | .set _ kind => some (.member kind)
    | _ => none
  | member _ => none

/-- What some segments lead to. -/
def Demand.descend? (demand : Demand) (segments : List String) : Option Demand :=
  segments.foldlM step? demand

/-! ## The walk -/

/-- What is looked at: what the schema has at a place, and what the value has there, if it has
anything. The value may be absent, since an absent field is visited too. -/
structure Visit where
  place : String
  demand : Demand
  value : Option Value

/-- The visit of a field, after that of the map. -/
def Visit.field (visit : Visit) (entries : List (String × Value)) (f : String × Schema) : Visit :=
  { place := placeOf visit.place f.1, demand := .node f.2, value := get? f.1 entries }

/-- The visit of an item of a list or a member of a set. -/
def Visit.item (visit : Visit) (demand : Demand) (i : Nat) (v : Value) : Visit :=
  { place := placeAt visit.place i, demand, value := some v }

/-- The visits right after a visit, in order. -/
def Visit.child? (visit : Visit) (i : Nat) : Option Visit :=
  match visit.demand, visit.value with
  | .node s, some v =>
    match s.unmarked, v with
    | .map _ fields, .map entries => fields[i]?.map (visit.field entries)
    | .list _ element, .list items => items[i]?.map (visit.item (.node element) i)
    | .set _ kind, .list items => items[i]?.map (visit.item (.member kind) i)
    | _, _ => none
  | _, _ => none

/-- The walk over a schema and a value. Whatever is true of a walk in general (`Walk.First`) is
true of encoding by this. -/
def inspection : Walk Visit Misfit where
  child? := Visit.child?
  Fault visit misfit := visit.demand.misfit? visit.value = some misfit

/-- What is said of it. -/
def Visit.tell (visit : Visit) (misfit : Misfit) : Error := misfit.error visit.place

/-- The first visit. -/
def Visit.start (s : Schema) (v : Value) : Visit :=
  { place := "", demand := .node s, value := some v }

/-! ## Scalars and members -/

theorem fault?_encodeNumber (place : String) (x : Float) :
    fault? (encodeNumber place x) =
      (ScalarKind.number.misfit? (.number x)).map fun misfit => misfit.error place := by
  rw [encodeNumber, ScalarKind.misfit?]
  split <;> rfl

theorem ScalarKind.fault?_encode (kind : ScalarKind) (place : String) (v : Value) :
    fault? (kind.encode place v) = (kind.misfit? v).map fun misfit => misfit.error place := by
  cases kind with
  | number =>
    cases v with
    | number x =>
      rw [encode, fault?_map, fault?_encodeNumber]
    | _ => rfl
  | date =>
    cases v with
    | string text =>
      rw [encode, fault?_map, encodeDate, misfit?]
      cases Time.Instant.read? text.toList <;> rfl
    | _ => rfl
  | string | boolean | binary => cases v <;> rfl

theorem SetKind.fault?_stringMember (place : String) (v : Value) :
    fault? (stringMember place v) =
      (ScalarKind.string.misfit? v).map fun misfit => misfit.error place := by
  cases v <;> rfl

theorem SetKind.fault?_numberMember (place : String) (v : Value) :
    fault? (numberMember place v) =
      (ScalarKind.number.misfit? v).map fun misfit => misfit.error place := by
  cases v with
  | number x => rw [numberMember, fault?_encodeNumber]
  | _ => rfl

theorem SetKind.fault?_binaryMember (place : String) (v : Value) :
    fault? (binaryMember place v) =
      (ScalarKind.binary.misfit? v).map fun misfit => misfit.error place := by
  cases v <;> rfl

/-! ## Walking on -/

/-- A check of something that is in order itself. -/
theorem Visit.meets_of_inside {visit : Visit} {found : Option Error}
    (hself : visit.demand.misfit? visit.value = none)
    (h : inspection.MeetsFrom tell visit 0 found) : inspection.Meets tell visit found := by
  refine h.meets fun f hf => ?_
  have hsome : visit.demand.misfit? visit.value = some f := hf
  rw [hself] at hsome
  cases hsome

/-- A check of something that has nothing inside. -/
theorem Visit.meets_of_leaf {visit : Visit} {found : Option Error}
    (hleaf : ∀ i, visit.child? i = none)
    (hfound : found = (visit.demand.misfit? visit.value).map visit.tell) :
    inspection.Meets tell visit found := by
  rw [hfound]
  cases hmisfit : visit.demand.misfit? visit.value with
  | none => exact meets_of_inside hmisfit (.none fun i _ => hleaf i)
  | some misfit => exact .of_fault hmisfit

/-- The items of a list or the members of a set, from one of them on. -/
theorem Visit.meetsFrom_encodeItems {α : Type} {encode : String → Value → Except Error α}
    {visit : Visit} {demand : Demand} {items : List Value}
    (hchild : ∀ i, visit.child? i = items[i]?.map (visit.item demand i))
    (hitems : ∀ w ∈ items, ∀ i, inspection.Meets tell (visit.item demand i w)
      (fault? (encode (placeAt visit.place i) w)))
    {done rest : List Value} (he : items = done ++ rest) :
    inspection.MeetsFrom tell visit done.length
      (fault? (encodeItems encode visit.place done.length rest)) := by
  induction rest generalizing done with
  | nil =>
    refine .none fun i hi => ?_
    show visit.child? i = none
    rw [hchild, he, List.append_nil, List.getElem?_eq_none hi, Option.map_none]
  | cons w rest ih =>
    have hfirst : visit.child? done.length = some (visit.item demand done.length w) := by
      rw [hchild, he]
      simp
    have he' : items = (done ++ [w]) ++ rest := by simp [he]
    have hrest := ih he'
    rw [List.length_append, List.length_singleton] at hrest
    rw [encodeItems, fault?_bind]
    exact .or hfirst (hitems w (by simp [he]) _) hrest

/-- The fields of a map, from one of them on. -/
theorem Visit.meetsFrom_encodeFields {visit : Visit} {fields : List (String × Schema)}
    {entries : List (String × Value)}
    (hchild : ∀ i, visit.child? i = fields[i]?.map (visit.field entries))
    (hfields : ∀ f ∈ fields, ∀ place v,
      inspection.Meets tell { place, demand := .node f.2, value := some v }
        (fault? (f.2.encodeAt place v)))
    {done rest : List (String × Schema)} (he : fields = done ++ rest) :
    inspection.MeetsFrom tell visit done.length
      (fault? (Schema.encodeFields rest visit.place entries)) := by
  induction rest generalizing done with
  | nil =>
    rw [Schema.encodeFields]
    refine .none fun i hi => ?_
    show visit.child? i = none
    rw [hchild, he, List.append_nil, List.getElem?_eq_none hi, Option.map_none]
  | cons f rest ih =>
    obtain ⟨name, node⟩ := f
    have hfirst : visit.child? done.length = some (visit.field entries (name, node)) := by
      rw [hchild, he]
      simp
    have he' : fields = (done ++ [(name, node)]) ++ rest := by simp [he]
    have hrest := ih he'
    rw [List.length_append, List.length_singleton] at hrest
    rw [field] at hfirst
    rw [Schema.encodeFields]
    cases hget : get? name entries with
    | some v =>
      rw [hget] at hfirst
      dsimp only
      rw [fault?_bind]
      exact .or hfirst (hfields (name, node) (by simp [he]) _ v) hrest
    | none =>
      rw [hget] at hfirst
      -- nothing is there, and it depends on the node of the field whether something has to be
      have hor := Walk.MeetsFrom.or hfirst (meets_of_leaf (fun _ => rfl) rfl) hrest
      dsimp only [Demand.misfit?] at hor ⊢
      split
      · next hoptional => rwa [if_pos hoptional, Option.map_none, Option.none_or] at hor
      · next hoptional => rwa [if_neg hoptional, Option.map_some, Option.some_or] at hor

/-- The members of a set. -/
theorem Visit.meetsFrom_encodeMembers {visit : Visit} {kind : SetKind} {items : List Value}
    (hchild : ∀ i, visit.child? i = items[i]?.map (visit.item (.member kind) i)) :
    inspection.MeetsFrom tell visit 0 (fault? (kind.encodeMembers visit.place items)) := by
  have hmembers : ∀ {α : Type} {encode : String → Value → Except Error α},
      (∀ place v, fault? (encode place v) =
        (kind.member.misfit? v).map fun misfit => misfit.error place) →
      inspection.MeetsFrom tell visit 0 (fault? (encodeItems encode visit.place 0 items)) := by
    intro α encode hencode
    refine meetsFrom_encodeItems hchild (fun w _ i => ?_) (List.nil_append items).symm
    exact meets_of_leaf (fun _ => rfl) (hencode _ w)
  cases kind with
  | string =>
    rw [SetKind.encodeMembers, fault?_map]
    exact hmembers SetKind.fault?_stringMember
  | number =>
    rw [SetKind.encodeMembers, fault?_map]
    exact hmembers SetKind.fault?_numberMember
  | binary =>
    rw [SetKind.encodeMembers, fault?_map]
    exact hmembers SetKind.fault?_binaryMember

namespace Schema

/-- A property of schemas holds of all of them if a node has it as soon as the nodes inside it have
it, whatever marks there are around either. -/
theorem unmarked_induction {P : Schema → Prop} (node : ∀ s : Schema,
    (∀ m fields, s.unmarked = map m fields → ∀ f ∈ fields, P f.2) →
    (∀ m element, s.unmarked = list m element → P element) → P s) (s : Schema) : P s := by
  have hinside : (∀ m fields, s.unmarked = map m fields → ∀ f ∈ fields, P f.2) ∧
      ∀ m element, s.unmarked = list m element → P element := by
    induction s using Schema.induction with
    | scalar m kind | set m kind =>
      constructor
      · intro m fields h
        cases h
      · intro m element h
        cases h
    | map m fields ih =>
      constructor
      · intro m' fields' h
        cases h
        exact fun f hf => node f.2 (ih f hf).1 (ih f hf).2
      · intro m' element h
        cases h
    | list m element ih =>
      constructor
      · intro m' fields h
        cases h
      · intro m' element' h
        cases h
        exact node element ih.1 ih.2
    | partitionKey m inner ih => exact ih
    | sortKey m inner ih => exact ih
  exact node s hinside.1 hinside.2

section Node

variable {s : Schema} {m : Modifiers} {v : Value} (place : String)

theorem encodeAt_map_of_entries? {fields : List (String × Schema)} (hv : v.isNull = false)
    (h : v.entries? = none) :
    (map m fields).encodeAt place v = .error (.shapeMismatch place "map" v.kindName) := by
  cases v with
  | null => cases hv
  | map entries => cases h
  | _ => simp [encodeAt, Value.isNull]

theorem encodeAt_list_of_items? {element : Schema} (hv : v.isNull = false)
    (h : v.items? = none) :
    (list m element).encodeAt place v = .error (.shapeMismatch place "list" v.kindName) := by
  cases v with
  | null => cases hv
  | list items => cases h
  | _ => simp [encodeAt, Value.isNull]

theorem meets_encodeAt_null : inspection.Meets Visit.tell
    { place, demand := .node s, value := some .null } (fault? (s.encodeAt place .null)) := by
  refine Visit.meets_of_leaf ?_ ?_
  · intro i
    rcases s.unmarked_cases with
      ⟨m, kind, hs⟩ | ⟨m, kind, hs⟩ | ⟨m, fields, hs⟩ | ⟨m, element, hs⟩
    all_goals simp only [Visit.child?, hs]
  · rw [encodeAt_null]
    dsimp only [Demand.misfit?, misfit?]
    cases s.isNullable <;> rfl

theorem meets_encodeAt_scalar {kind : ScalarKind} (hs : s.unmarked = scalar m kind)
    (hv : v.isNull = false) : inspection.Meets Visit.tell
      { place, demand := .node s, value := some v }
      (fault? ((scalar m kind).encodeAt place v)) := by
  rw [encodeAt_scalar hv, ScalarKind.fault?_encode]
  refine Visit.meets_of_leaf ?_ ?_
  · intro i
    simp only [Visit.child?, hs]
  · simp only [Demand.misfit?, misfit?, hv, hs]
    rfl

theorem meets_encodeAt_set {kind : SetKind} (hs : s.unmarked = set m kind)
    (hv : v.isNull = false) : inspection.Meets Visit.tell
      { place, demand := .node s, value := some v } (fault? ((set m kind).encodeAt place v)) := by
  rw [encodeAt_set hv]
  cases v with
  | list items =>
    refine Visit.meets_of_inside ?_ (Visit.meetsFrom_encodeMembers fun i => ?_)
    · simp [Demand.misfit?, misfit?, hv, hs, Value.items?]
    · simp only [Visit.child?, hs]
  | _ =>
    refine Visit.meets_of_leaf ?_ ?_
    · intro i
      simp only [Visit.child?, hs]
    · simp only [Demand.misfit?, misfit?, hv, hs]
      rfl

theorem meets_encodeAt_map {fields : List (String × Schema)} (hs : s.unmarked = map m fields)
    (hv : v.isNull = false)
    (hfields : ∀ f ∈ fields, ∀ place v, inspection.Meets Visit.tell
      { place, demand := .node f.2, value := some v } (fault? (f.2.encodeAt place v))) :
    inspection.Meets Visit.tell { place, demand := .node s, value := some v }
      (fault? ((map m fields).encodeAt place v)) := by
  cases v with
  | map entries =>
    rw [encodeAt_map, fault?_map]
    refine Visit.meets_of_inside ?_
      (Visit.meetsFrom_encodeFields (fun i => ?_) hfields (List.nil_append fields).symm)
    · simp [Demand.misfit?, misfit?, hv, hs, Value.entries?]
    · simp only [Visit.child?, hs]
  | _ =>
    refine Visit.meets_of_leaf ?_ ?_
    · intro i
      simp only [Visit.child?, hs]
    · rw [encodeAt_map_of_entries? place hv rfl]
      simp only [Demand.misfit?, misfit?, hv, hs]
      rfl

theorem meets_encodeAt_list {element : Schema} (hs : s.unmarked = list m element)
    (hv : v.isNull = false)
    (helement : ∀ place v, inspection.Meets Visit.tell
      { place, demand := .node element, value := some v } (fault? (element.encodeAt place v))) :
    inspection.Meets Visit.tell { place, demand := .node s, value := some v }
      (fault? ((list m element).encodeAt place v)) := by
  cases v with
  | list items =>
    rw [encodeAt_list, fault?_map]
    refine Visit.meets_of_inside ?_ (Visit.meetsFrom_encodeItems (fun i => ?_)
      (fun w _ i => helement _ w) (List.nil_append items).symm)
    · simp [Demand.misfit?, misfit?, hv, hs, Value.items?]
    · simp only [Visit.child?, hs]
  | _ =>
    refine Visit.meets_of_leaf ?_ ?_
    · intro i
      simp only [Visit.child?, hs]
    · rw [encodeAt_list_of_items? place hv rfl]
      simp only [Demand.misfit?, misfit?, hv, hs]
      rfl

end Node

/-- **Encoding is a walk.** What it fails by is what is told of the first visit on which something
is wrong. It is the only place where the encoder is taken apart; what follows is about the walk. -/
theorem meets_encodeAt (s : Schema) (place : String) (v : Value) :
    inspection.Meets Visit.tell { place, demand := .node s, value := some v }
      (fault? (s.encodeAt place v)) := by
  induction s using unmarked_induction generalizing place v with
  | node s hmap hlist =>
    cases hv : v.isNull with
    | true =>
      cases v with
      | null => exact meets_encodeAt_null place
      | _ => cases hv
    | false =>
      rw [encodeAt_unmarked hv]
      rcases s.unmarked_cases with
        ⟨m, kind, hs⟩ | ⟨m, kind, hs⟩ | ⟨m, fields, hs⟩ | ⟨m, element, hs⟩
      · rw [hs]
        exact meets_encodeAt_scalar place hs hv
      · rw [hs]
        exact meets_encodeAt_set place hs hv
      · rw [hs]
        exact meets_encodeAt_map place hs hv (hmap m fields hs)
      · rw [hs]
        exact meets_encodeAt_list place hs hv (hlist m element hs)

/-! ## Names -/

mutual

/-- Whether no field has an empty name or one with a dot. A name with a dot would read back as two
segments, and an empty one as none at the root. -/
def plainNames : Schema → Bool
  | scalar _ _ => true
  | set _ _ => true
  | map _ fields => plainNamesAmong fields
  | list _ element => element.plainNames
  | partitionKey _ inner => inner.plainNames
  | sortKey _ inner => inner.plainNames

/-- The same for some fields and what is inside them. -/
def plainNamesAmong : List (String × Schema) → Bool
  | [] => true
  | (name, node) :: fields =>
    name ≠ "" && Path.isTopLevel ⟨name⟩ && node.plainNames && plainNamesAmong fields

end

theorem plainNames_unmarked (s : Schema) : s.unmarked.plainNames = s.plainNames := by
  induction s using Schema.induction with
  | partitionKey m inner ih | sortKey m inner ih => rw [unmarked, ih, plainNames]
  | _ => rfl

theorem repeatedName?_unmarked (s : Schema) : s.unmarked.repeatedName? = s.repeatedName? := by
  induction s using Schema.induction with
  | partitionKey m inner ih | sortKey m inner ih => rw [unmarked, ih, repeatedName?]
  | _ => rfl

theorem plainNames_map {m : Modifiers} {fields : List (String × Schema)} :
    (map m fields).plainNames = true ↔ ∀ f ∈ fields,
      f.1 ≠ "" ∧ Path.isTopLevel ⟨f.1⟩ = true ∧ f.2.plainNames = true := by
  rw [plainNames]
  induction fields with
  | nil => simp [plainNamesAmong]
  | cons f fields ih =>
    rw [plainNamesAmong, Bool.and_eq_true, ih, List.forall_mem_cons]
    simp [and_assoc]

end Schema

/-! ## Reading a place back -/

/-- The segments of the place in an error; the empty text is the root. -/
def placeSegments (place : String) : List String :=
  if place = "" then [] else Path.segments ⟨place⟩

theorem placeSegments_placeOf {name : String} (hne : name ≠ "")
    (htop : Path.isTopLevel ⟨name⟩ = true) (place : String) :
    placeSegments (placeOf place name) = placeSegments place ++ [name] := by
  rw [placeSegments, placeSegments, placeOf]
  by_cases hplace : place = ""
  · rw [if_pos hplace, if_pos hplace, if_neg hne, Path.segments_of_isTopLevel htop, List.nil_append]
  · have hlong : place ++ "." ++ name ≠ "" := by
      intro h
      have hlist := congrArg String.toList h
      simp at hlist
    rw [if_neg hplace, if_neg hplace, if_neg hlong, Path.segments_append,
      Path.segments_of_isTopLevel htop]

theorem placeSegments_placeAt (place : String) (i : Nat) :
    placeSegments (placeAt place i) = placeSegments place ++ [toString i] := by
  have hdigits : (toString i).toList = Decimal.digitsOfNat i := by
    rw [Nat.toString_eq_repr, Nat.toList_repr, Decimal.digitsOfNat]
  have hdot : '.' ∉ (toString i).toList := by
    rw [hdigits]
    exact fun hmem => absurd (Decimal.isDigit_of_mem_digitsOfNat hmem) (by decide)
  exact placeSegments_placeOf Nat.repr_ne_empty (Path.isTopLevel_iff.2 hdot) place

theorem Demand.descend?_concat (demand : Demand) (segments : List String) (segment : String) :
    demand.descend? (segments ++ [segment]) =
      (demand.descend? segments).bind fun below => below.step? segment := by
  simp [descend?, List.foldlM_append]

theorem Value.descend?_concat (v : Value) (segments : List String) (segment : String) :
    v.descend? (segments ++ [segment]) =
      (v.descend? segments).bind fun below => below.step? segment := by
  simp [descend?, List.foldlM_append]

/-- The place of the visit leads to what was visited: in the schema, and in the value, if there is
anything. Otherwise it leads to a map that has nothing under the last segment. Both the schema and
the value are followed, because an error is of use only if it leads to the same place in both. -/
structure Visit.Leads (s : Schema) (v : Value) (visit : Visit) : Prop where
  demand : (Demand.node s).descend? (placeSegments visit.place) = some visit.demand
  value : v.descend? (placeSegments visit.place) = visit.value
  absent : visit.value = none → ∃ front name entries,
    placeSegments visit.place = front ++ [name] ∧ v.descend? front = some (.map entries) ∧
      get? name entries = none

/-- What a place can be read back in. -/
def Demand.Legible : Demand → Prop
  | node s => s.repeatedName? = none ∧ s.plainNames = true
  | member _ => True

/-- What is visited right after a visit. -/
inductive Visit.Inside (visit : Visit) (i : Nat) : Visit → Prop where
  | field {s : Schema} {m : Modifiers} {fields : List (String × Schema)}
      {entries : List (String × Value)} {f : String × Schema} (hdemand : visit.demand = .node s)
      (hvalue : visit.value = some (.map entries)) (hs : s.unmarked = .map m fields)
      (hf : fields[i]? = some f) : Inside visit i (visit.field entries f)
  | item {s : Schema} {m : Modifiers} {element : Schema} {items : List Value} {w : Value}
      (hdemand : visit.demand = .node s) (hvalue : visit.value = some (.list items))
      (hs : s.unmarked = .list m element) (hw : items[i]? = some w) :
      Inside visit i (visit.item (.node element) i w)
  | member {s : Schema} {m : Modifiers} {kind : SetKind} {items : List Value} {w : Value}
      (hdemand : visit.demand = .node s) (hvalue : visit.value = some (.list items))
      (hs : s.unmarked = .set m kind) (hw : items[i]? = some w) :
      Inside visit i (visit.item (.member kind) i w)

theorem Visit.inside_of_child? {visit c : Visit} {i : Nat} (h : visit.child? i = some c) :
    visit.Inside i c := by
  unfold child? at h
  split at h
  · next s v hdemand hvalue =>
    split at h
    · next hs =>
      obtain ⟨f, hf, rfl⟩ := Option.map_eq_some_iff.1 h
      exact .field hdemand hvalue hs hf
    · next hs =>
      obtain ⟨w, hw, rfl⟩ := Option.map_eq_some_iff.1 h
      exact .item hdemand hvalue hs hw
    · next hs =>
      obtain ⟨w, hw, rfl⟩ := Option.map_eq_some_iff.1 h
      exact .member hdemand hvalue hs hw
    · cases h
  · cases h

/-- **One step on.** A place leads one step further with one segment more. The step is all that
has to be checked against the way in which places are written. -/
theorem Visit.Leads.child {s : Schema} {v : Value} {visit c : Visit} {i : Nat}
    (h : visit.Leads s v) (hlegible : visit.demand.Legible) (hc : visit.child? i = some c) :
    c.Leads s v ∧ c.demand.Legible := by
  cases inside_of_child? hc with
  | @field node m fields entries f hdemand hvalue hs hf =>
    rw [hdemand, Demand.Legible, ← Schema.repeatedName?_unmarked, ← Schema.plainNames_unmarked,
      hs] at hlegible
    obtain ⟨hnames, hplain⟩ := hlegible
    rw [Schema.repeatedName?] at hnames
    obtain ⟨hnodup, -, hinside⟩ := Schema.repeatedNameAmong?_eq_none hnames
    have hmem : f ∈ fields := List.mem_of_getElem? hf
    obtain ⟨hne, htop, hbelow⟩ := Schema.plainNames_map.1 hplain f hmem
    have hsegments := placeSegments_placeOf hne htop visit.place
    have hfield : get? f.1 fields = some f.2 := get?_of_mem hnodup hmem
    refine ⟨⟨?_, ?_, ?_⟩, hinside f hmem, hbelow⟩
    · show (Demand.node s).descend? (placeSegments (placeOf visit.place f.1)) = some (.node f.2)
      rw [hsegments, Demand.descend?_concat, h.demand, hdemand, Option.bind_some, Demand.step?, hs]
      dsimp only
      rw [hfield, Option.map_some]
    · show v.descend? (placeSegments (placeOf visit.place f.1)) = get? f.1 entries
      rw [hsegments, Value.descend?_concat, h.value, hvalue, Option.bind_some, Value.step?]
    · intro hnone
      exact ⟨placeSegments visit.place, f.1, entries, hsegments, h.value.trans hvalue, hnone⟩
  | @item node m element items w hdemand hvalue hs hw =>
    rw [hdemand, Demand.Legible, ← Schema.repeatedName?_unmarked, ← Schema.plainNames_unmarked,
      hs, Schema.repeatedName?, Schema.plainNames] at hlegible
    have hsegments := placeSegments_placeAt visit.place i
    refine ⟨⟨?_, ?_, fun hnone => nomatch hnone⟩, hlegible⟩
    · show (Demand.node s).descend? (placeSegments (placeAt visit.place i)) = some (.node element)
      rw [hsegments, Demand.descend?_concat, h.demand, hdemand, Option.bind_some, Demand.step?, hs]
    · show v.descend? (placeSegments (placeAt visit.place i)) = some w
      rw [hsegments, Value.descend?_concat, h.value, hvalue, Option.bind_some, Value.step?,
        (Path.position?_spelled i).1, Option.bind_some, hw]
  | @member node m kind items w hdemand hvalue hs hw =>
    have hsegments := placeSegments_placeAt visit.place i
    refine ⟨⟨?_, ?_, fun hnone => nomatch hnone⟩, trivial⟩
    · show (Demand.node s).descend? (placeSegments (placeAt visit.place i)) = some (.member kind)
      rw [hsegments, Demand.descend?_concat, h.demand, hdemand, Option.bind_some, Demand.step?, hs]
    · show v.descend? (placeSegments (placeAt visit.place i)) = some w
      rw [hsegments, Value.descend?_concat, h.value, hvalue, Option.bind_some, Value.step?,
        (Path.position?_spelled i).1, Option.bind_some, hw]

/-- **The whole way.** The place of whatever is visited leads there. It is the step, taken along a
site. -/
theorem Visit.leads_of_at? {s : Schema} {v : Value} (hlegible : (Demand.node s).Legible)
    {site : Site} {visit : Visit} (h : inspection.at? (start s v) site = some visit) :
    visit.Leads s v ∧ visit.demand.Legible := by
  induction site using List.reverseRecOn generalizing visit with
  | nil =>
    cases h
    exact ⟨⟨rfl, rfl, fun hnone => nomatch hnone⟩, hlegible⟩
  | append_singleton site i ih =>
    rw [Walk.at?_concat] at h
    obtain ⟨before, hbefore, hchild⟩ := Option.bind_eq_some_iff.1 h
    obtain ⟨hleads, hbelow⟩ := ih hbefore
    exact hleads.child hbelow hchild

namespace Schema

/-- **What an error of encoding tells.** A value is encoded exactly where nothing is wrong with it
or with anything inside it. Otherwise the error is told of the first visit, on a walk in the order
of the declaration, on which something is wrong. Its place leads there from the root, segment by
segment, in the schema and in the value; and where something is missing, to a map without it. It
is an equivalence for each error and so says which error comes and that no other does. Schemas are
asked to have passed `build`, and their names to be plain, for the sake of the places alone: which
visit is the first does not depend on it. -/
theorem encode_error_iff {s : Schema} {v : Value} (hschema : s.validate = .ok s)
    (hnames : s.plainNames = true) :
    ((∃ d, s.encode v = .ok d) ↔ inspection.Clean (.start s v)) ∧
    ∀ e, s.encode v = .error e ↔ ∃ site visit misfit,
      inspection.First (.start s v) site visit misfit ∧ visit.Leads s v ∧
        (misfit = .missing ↔ visit.value = none) ∧ e = misfit.error visit.place := by
  have hmeets : inspection.Meets Visit.tell (.start s v) (fault? (s.encode v)) :=
    s.meets_encodeAt "" v
  have hlegible : (Demand.node s).Legible := ⟨repeatedName?_eq_none_of_validate hschema, hnames⟩
  have hunique : ∀ visit misfit misfit', inspection.Fault visit misfit →
      inspection.Fault visit misfit' → misfit = misfit' :=
    fun _ _ _ h h' => Option.some.inj (h.symm.trans h')
  constructor
  · rw [← fault?_eq_none_iff]
    exact hmeets.eq_none_iff
  · intro e
    rw [← fault?_eq_some_iff, hmeets.eq_some_iff hunique]
    constructor
    · rintro ⟨site, visit, misfit, hfirst, he⟩
      have hleads := (Visit.leads_of_at? hlegible hfirst.reached).1
      exact ⟨site, visit, misfit, hfirst, hleads, Demand.missing_iff hfirst.fault, he⟩
    · rintro ⟨site, visit, misfit, hfirst, -, -, he⟩
      exact ⟨site, visit, misfit, hfirst, he⟩

/-- A journal with a marked name and entries that have a date and some labels. -/
def journal : Schema :=
  .map .none [("name", .partitionKey .none (.ofKind .string)),
    ("entries", .list .none (.map .none [("at", .ofKind .date), ("labels", .set .none .string)])),
    ("owner", .ofKind .string)]

/-- A journal that is wrong in four places. The second entry has a date that is none and a label
that is null, the third one is no map, and nobody owns the journal. -/
def carelessJournal : Value :=
  .map [("entries", .list
      [.map [("labels", .list []), ("at", .string "2024-02-29T00:00:00Z")],
        .map [("labels", .list [.string "new", .null]), ("at", .string "today")],
        .bool true]),
    ("name", .string "log")]

/-- The date is declared before the labels, and so it is what is told of. -/
theorem carelessJournal_encode_error : journal.validate = .ok journal ∧
    journal.plainNames = true ∧
    journal.encode carelessJournal = .error (.invalidDate "entries.1.at" "today") ∧
    ∃ site visit misfit, inspection.First (.start journal carelessJournal) site visit misfit ∧
      visit.Leads journal carelessJournal ∧ (misfit = .missing ↔ visit.value = none) ∧
      Error.invalidDate "entries.1.at" "today" = misfit.error visit.place := by
  have hplain : journal.plainNames = true := by decide +kernel
  have herror : journal.encode carelessJournal = .error (.invalidDate "entries.1.at" "today") := rfl
  exact ⟨rfl, hplain, herror, ((encode_error_iff rfl hplain).2 _).1 herror⟩

end Schema

end ItemStore
