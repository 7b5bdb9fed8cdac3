import ItemStore.Proofs.Schema.Places

/-
What is not declared is not sent.

An application may keep more in its values than a schema knows of. `declared` drops from a value
what the schema does not declare, at every depth: in a map the other keys, and where the schema has
no map all keys. Two values that come to the same by this, the order of keys aside, are encoded to
the same descriptor. They also fail alike. Which fault is found is decided by the order in which
the fields are declared, and what is said of it, its place and the kind of thing that was found
there, is something that the two values have in common.

So nothing can be learned of the rest of a value by looking at what is sent, and nothing of the
order in which the application happened to fill its maps: those that are sent are in the order of
the declaration.
-/
set_option autoImplicit false

namespace ItemStore

open Entries

namespace Value

/-! ## Looking at a value from outside -/

/-- Values that are the same unless they are opened: equal ones, any two lists, any two maps. The
encoder says of a value that does not fit only what it looks like, so values that look alike fail
alike. -/
inductive LooksLike : Value → Value → Prop where
  | refl (v : Value) : LooksLike v v
  | list (as bs : List Value) : LooksLike (.list as) (.list bs)
  | map (as bs : List (String × Value)) : LooksLike (.map as) (.map bs)

theorem LooksLike.isNull_eq {v w : Value} (h : v.LooksLike w) : v.isNull = w.isNull := by
  cases h <;> rfl

/-- A scalar is encoded unopened. -/
theorem LooksLike.encode_scalar {v w : Value} (h : v.LooksLike w) (kind : ScalarKind)
    (path : String) : kind.encode path v = kind.encode path w := by
  cases h with
  | refl v => rfl
  | list as bs => cases kind <;> rfl
  | map as bs => cases kind <;> rfl

/-- A list is opened to be encoded as a set, but its items are not. -/
theorem encodeMembers_congr {as bs : List Value} (h : List.Forall₂ LooksLike as bs)
    (kind : SetKind) (path : String) : kind.encodeMembers path as = kind.encodeMembers path bs := by
  cases kind with
  | string =>
    have hmembers := h.imp fun a b hab (place : String) =>
      show SetKind.stringMember place a = SetKind.stringMember place b by cases hab <;> rfl
    exact congrArg (Except.map Descriptor.stringSet) (encodeItems_congr hmembers path 0)
  | number =>
    have hmembers := h.imp fun a b hab (place : String) =>
      show SetKind.numberMember place a = SetKind.numberMember place b by cases hab <;> rfl
    exact congrArg (Except.map Descriptor.numberSet) (encodeItems_congr hmembers path 0)
  | binary =>
    have hmembers := h.imp fun a b hab (place : String) =>
      show SetKind.binaryMember place a = SetKind.binaryMember place b by cases hab <;> rfl
    exact congrArg (Except.map Descriptor.binarySet) (encodeItems_congr hmembers path 0)

/-- Alike values differ in what is inside of them only. -/
theorem Alike.looksLike {v w : Value} (h : v.Alike w) : v.LooksLike w := by
  cases h with
  | refl v => exact .refl v
  | list items => exact .list _ _
  | map names targets => exact .map _ _

/-! ## Values without their keys -/

mutual

/-- The value with all its maps emptied. -/
def bare : Value → Value
  | .list items => .list (bareItems items)
  | .map _ => .map []
  | v => v

/-- The items of a list, each with all its maps emptied. -/
def bareItems : List Value → List Value
  | [] => []
  | v :: items => v.bare :: bareItems items

end

theorem bare_looksLike (v : Value) : v.bare.LooksLike v := by
  cases v with
  | list items => exact .list _ _
  | map entries => exact .map _ _
  | _ => exact .refl _

theorem bareItems_looksLike (items : List Value) :
    List.Forall₂ LooksLike (bareItems items) items := by
  induction items with
  | nil => exact .nil
  | cons v items ih => exact .cons (bare_looksLike v) ih

end Value

theorem SetKind.encode_bare (kind : SetKind) (path : String) (v : Value) :
    kind.encode path v.bare = kind.encode path v := by
  cases v with
  | list items => exact Value.encodeMembers_congr (Value.bareItems_looksLike items) kind path
  | _ => rfl

namespace Schema

/-! ## What a schema declares of a value -/

mutual

/-- The value without the keys that the schema does not declare. Where the schema has no map, it
declares none of the keys inside. It is stated without the encoder, as a recursion over the schema
that drops keys and changes nothing else. -/
def declared (s : Schema) (v : Value) : Value :=
  match s with
  | .scalar _ _ => v.bare
  | .set _ _ => v.bare
  | .map _ fields =>
    match v with
    | .map entries => .map (pick (declaredUnder fields) entries)
    | v => v.bare
  | .list _ element =>
    match v with
    | .list items => .list (items.map element.declared)
    | v => v.bare
  | .partitionKey _ inner => inner.declared v
  | .sortKey _ inner => inner.declared v

/-- What becomes of an entry with the given key. -/
def declaredUnder (fields : List (String × Schema)) (name : String) : Option (Value → Value) :=
  match fields with
  | [] => none
  | (n, field) :: fields => if n = name then some field.declared else declaredUnder fields name

end

theorem declaredUnder_eq (fields : List (String × Schema)) (name : String) :
    declaredUnder fields name = (get? name fields).map declared := by
  induction fields with
  | nil => rfl
  | cons f fields ih =>
    obtain ⟨n, field⟩ := f
    rw [declaredUnder, get?]
    by_cases hn : n = name
    · rw [if_pos hn, if_pos hn, Option.map_some]
    · rw [if_neg hn, if_neg hn, ih]

theorem declared_looksLike (s : Schema) (v : Value) : (s.declared v).LooksLike v := by
  induction s using Schema.induction with
  | scalar m kind =>
    rw [declared]
    exact v.bare_looksLike
  | set m kind =>
    rw [declared]
    exact v.bare_looksLike
  | map m fields ih =>
    cases v with
    | map entries => exact .map _ _
    | list items => exact .list _ _
    | _ => exact .refl _
  | list m element ih =>
    cases v with
    | map entries => exact .map _ _
    | list items => exact .list _ _
    | _ => exact .refl _
  | partitionKey m inner ih =>
    rw [declared]
    exact ih
  | sortKey m inner ih =>
    rw [declared]
    exact ih

/-- Encoding looks at what is declared only. -/
theorem encodeAt_declared {s : Schema} (hnames : s.repeatedName? = none) (path : String)
    (v : Value) : s.encodeAt path (s.declared v) = s.encodeAt path v := by
  induction s using Schema.induction generalizing path v with
  | scalar m kind =>
    rw [declared, encodeAt, encodeAt, v.bare_looksLike.isNull_eq,
      v.bare_looksLike.encode_scalar kind path]
  | set m kind =>
    rw [declared, encodeAt, encodeAt, v.bare_looksLike.isNull_eq, kind.encode_bare path v]
  | map m fields ih =>
    obtain ⟨hnodup, -, hinside⟩ := repeatedNameAmong?_eq_none hnames
    cases v with
    | map entries =>
      have hdeclared : (map m fields).declared (.map entries) =
          .map (pick (declaredUnder fields) entries) := by
        rw [declared]
      rw [hdeclared, encodeAt_map, encodeAt_map]
      refine congrArg (Except.map Descriptor.map) (encodeFields_congr fun f hf => ?_)
      rw [get?_pick, declaredUnder_eq, get?_of_mem hnodup hf, Option.map_some, Option.bind_some,
        Option.map_map]
      exact congrArg (fun encode => (get? f.1 entries).map encode)
        (funext (ih f hf (hinside f hf) _))
    | _ => rfl
  | list m element ih =>
    cases v with
    | list items =>
      have hdeclared : (list m element).declared (.list items) =
          .list (items.map element.declared) := by
        rw [declared]
      have hitems : List.Forall₂ (fun v w => ∀ place,
          element.encodeAt place v = element.encodeAt place w)
          (items.map element.declared) items := by
        rw [List.forall₂_map_left_iff, List.forall₂_same]
        exact fun v _ place => ih hnames place v
      rw [hdeclared, encodeAt_list, encodeAt_list, encodeItems_congr hitems]
    | _ => rfl
  | partitionKey m inner ih =>
    rw [declared, encodeAt, encodeAt, (inner.declared_looksLike v).isNull_eq, ih hnames]
  | sortKey m inner ih =>
    rw [declared, encodeAt, encodeAt, (inner.declared_looksLike v).isNull_eq, ih hnames]

/-! ## The order of keys -/

/-- The same key is present in alike maps, with alike values. -/
theorem get?_cases_of_alike {as bs : List (String × Value)} (names : (keys as).Perm (keys bs))
    (targets : ∀ name a b, get? name as = some a → get? name bs = some b → Value.Alike a b)
    (name : String) : (get? name as = none ∧ get? name bs = none) ∨
      ∃ a b, get? name as = some a ∧ get? name bs = some b ∧ Value.Alike a b := by
  by_cases hname : name ∈ keys as
  · obtain ⟨a, ha⟩ := mem_keys_iff.1 hname
    obtain ⟨b, hb⟩ := mem_keys_iff.1 (names.mem_iff.1 hname)
    exact .inr ⟨a, b, ha, hb, targets name a b ha hb⟩
  · exact .inl ⟨get?_eq_none_iff.2 hname, get?_eq_none_iff.2 fun h => hname (names.mem_iff.2 h)⟩

/-- A map is encoded field by field, so the order of its keys does not matter, also to errors. -/
theorem encodeAt_map_of_alike {m : Modifiers} {fields : List (String × Schema)}
    (hfields : ∀ f ∈ fields, ∀ path v w, v.Alike w → f.2.encodeAt path v = f.2.encodeAt path w)
    (path : String) {v w : Value} (h : v.Alike w) :
    (map m fields).encodeAt path v = (map m fields).encodeAt path w := by
  cases h with
  | refl v => rfl
  | list items => rfl
  | map names targets =>
    rw [encodeAt_map, encodeAt_map]
    refine congrArg (Except.map Descriptor.map) (encodeFields_congr fun f hf => ?_)
    rcases get?_cases_of_alike names targets f.1 with ⟨ha, hb⟩ | ⟨a, b, ha, hb, halike⟩
    · rw [ha, hb]
    · rw [ha, hb, Option.map_some, Option.map_some, hfields f hf _ a b halike]

/-- Alike values are encoded to the same, or they fail with the same error. -/
theorem encodeAt_of_alike (s : Schema) (path : String) {v w : Value} (h : v.Alike w) :
    s.encodeAt path v = s.encodeAt path w := by
  induction s using Schema.induction generalizing path v w with
  | scalar m kind =>
    rw [encodeAt, encodeAt, h.looksLike.isNull_eq, h.looksLike.encode_scalar kind path]
  | set m kind =>
    have hencode : kind.encode path v = kind.encode path w := by
      cases h with
      | refl v => rfl
      | list items =>
        exact Value.encodeMembers_congr (items.imp fun a b hab => hab.looksLike) kind path
      | map names targets => rfl
    rw [encodeAt, encodeAt, h.looksLike.isNull_eq, hencode]
  | map m fields ih => exact encodeAt_map_of_alike (fun f hf path v w h => ih f hf path h) path h
  | list m element ih =>
    cases h with
    | refl v => rfl
    | list items =>
      have hitems := items.imp fun a b hab (place : String) => ih place hab
      rw [encodeAt_list, encodeAt_list, encodeItems_congr hitems]
    | map names targets => rfl
  | partitionKey m inner ih => rw [encodeAt, encodeAt, h.looksLike.isNull_eq, ih path h]
  | sortKey m inner ih => rw [encodeAt, encodeAt, h.looksLike.isNull_eq, ih path h]

/-- The maps of the descriptor have their keys in the order in which they are declared. It is said
of the descriptor as a whole, so it does not mention the value that was encoded. -/
def Ordered (s : Schema) (d : Descriptor) : Prop :=
  ∀ place entries, d.inside? place = some (.map entries) →
    ∃ node m fields, s.inside? place = some node ∧ node.unmarked = .map m fields ∧
      (keys entries).Sublist (keys fields)

theorem ordered_of_encode {s : Schema} {v : Value} {d : Descriptor} (h : s.encode v = .ok d) :
    s.Ordered d := by
  intro place entries he
  obtain ⟨node, w, path, hnode, -, hencode⟩ := exists_inside?_of_encodeAt h he
  cases encodes_of_encodeAt hencode with
  | plain hd => cases hd
  | map hunmarked hfields =>
    refine ⟨node, _, _, hnode, hunmarked, ?_⟩
    rw [keys_of_encodeFields hfields]
    exact List.filter_sublist

/-- **Only what is declared is sent.** Where two values have the same declared entries, in
whatever order, encoding does the same with both: it comes to one descriptor, the maps of which
are in declared order, or to one error. The results are equal and not only the same up to order,
and errors are equal with their places and texts. Nothing is asked of the two values, which may
also have keys that the other one lacks. -/
theorem encode_eq_of_declared {s : Schema} (hschema : s.validate = .ok s) {v w : Value}
    (h : (s.declared v).Alike (s.declared w)) :
    s.encode v = s.encode w ∧ ∀ d, s.encode v = .ok d → s.Ordered d := by
  have hnames : s.repeatedName? = none := repeatedName?_eq_none_of_validate hschema
  refine ⟨?_, fun d hd => ordered_of_encode hd⟩
  calc s.encode v = s.encode (s.declared v) := (encodeAt_declared hnames "" v).symm
    _ = s.encode (s.declared w) := encodeAt_of_alike s "" h
    _ = s.encode w := encodeAt_declared hnames "" w

/-- Of two faults the one is found that comes first in the declaration, wherever the value has
it. -/
example : gauge.encode (.map [("note", .bool true), ("at", .string "soon"),
    ("gauge", .string "north")]) = .error (.invalidDate "at" "soon") := rfl

/-- Entries in another order make an alike map. -/
theorem alike_of_perm {as bs : List (String × Value)} (hnodup : (keys as).Nodup)
    (h : as.Perm bs) : (Value.map as).Alike (.map bs) := by
  refine .map (h.map Prod.fst) ?_
  intro name a b ha hb
  have hfound : get? name as = some b := get?_of_mem hnodup (h.mem_iff.2 (mem_of_get? hb))
  rw [ha] at hfound
  cases hfound
  exact .refl a

/-- A reading with a draft mark, and with more in its sample than is declared. -/
def annotatedReading : Value :=
  .map
    [("note", .string "ice"), ("draft", .bool true), ("gauge", .string "north"),
      ("level", .number 0.5), ("at", .string "2017-01-01T00:00:00Z"),
      ("samples", .list [.map [("raw", .map [("level", .null)]), ("level", .number 0.25)]])]

/-- What is declared of the reading, in another order. -/
def plainReading : Value :=
  .map
    [("gauge", .string "north"), ("note", .string "ice"), ("level", .number 0.5),
      ("at", .string "2017-01-01T00:00:00Z"), ("samples", .list [.map [("level", .number 0.25)]])]

/-- The descriptor shows neither the draft mark nor in which order the reading was filled. -/
theorem annotatedReading_encode_eq :
    (gauge.declared annotatedReading).Alike (gauge.declared plainReading) ∧
    ∃ d, gauge.encode annotatedReading = .ok d ∧ gauge.encode plainReading = .ok d ∧
      gauge.Ordered d ∧ d.entries?.map keys = some ["gauge", "at", "level", "samples", "note"] := by
  have halike : (gauge.declared annotatedReading).Alike (gauge.declared plainReading) :=
    alike_of_perm (by decide) (.swap _ _ _)
  have hrun : ((gauge.encode plainReading).toOption.map fun d => d.entries?.map keys) =
      some (some ["gauge", "at", "level", "samples", "note"]) := by
    decide +kernel
  obtain ⟨hsame, hordered⟩ := encode_eq_of_declared (s := gauge) rfl halike
  obtain ⟨d, hd, hkeys⟩ := exists_ok_of_toOption_map hrun
  exact ⟨halike, d, hsame.trans hd, hd, hordered d (hsame.trans hd), hkeys⟩

end Schema

end ItemStore
