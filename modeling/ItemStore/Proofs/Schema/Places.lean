import ItemStore.Proofs.Schema.Congruence

/-
Where something stands inside a value.

A place is a row of branches, from the outside in: keys of maps and positions in lists. Unlike a
path it is no text, so a key with a dot in it is one branch, and a position is spelled in one way
only. A place can be followed in a value, in a descriptor and in a schema. In a schema the marks
of keys take no branch, as they add nothing to a value, so what is said of places is said of all
nodes, the marked ones included.

Encoding and decoding go along a schema without changing where anything stands: what is found at
a place of the result comes from what is found at that place before, by the node that is found
there. In the strict mode decoding passes over nothing, so there this holds in both directions.
-/
set_option autoImplicit false

namespace ItemStore

open Entries

/-- A branch of a nested value: what stands under a key of a map, or at a position of a list. -/
inductive Branch where
  | entry (key : String)
  | item (index : Nat)
  deriving DecidableEq, Repr

/-- Where something stands inside a value: the branches that lead there. It can be taken into a
value, a descriptor or a schema, so the three can be compared at one place. -/
abbrev Place := List Branch

/-! ## Following places -/

/-- What is one branch below a value. -/
def Value.branch? (v : Value) (b : Branch) : Option Value :=
  match v, b with
  | .map entries, .entry key => Entries.get? key entries
  | .list items, .item index => items[index]?
  | _, _ => none

/-- What stands at a place of a value. -/
def Value.inside? (v : Value) (place : Place) : Option Value := place.foldlM branch? v

/-- What is one branch below a descriptor. -/
def Descriptor.branch? (d : Descriptor) (b : Branch) : Option Descriptor :=
  match d, b with
  | .map entries, .entry key => Entries.get? key entries
  | .list items, .item index => items[index]?
  | _, _ => none

/-- What stands at a place of a descriptor. -/
def Descriptor.inside? (d : Descriptor) (place : Place) : Option Descriptor :=
  place.foldlM branch? d

/-- The node inside all key marks. All marks are taken off, where `unwrapKey` takes off one. -/
def Schema.unmarked : Schema → Schema
  | partitionKey _ inner => inner.unmarked
  | sortKey _ inner => inner.unmarked
  | s => s

/-- The node one branch below. -/
def Schema.branch? (s : Schema) (b : Branch) : Option Schema :=
  match s.unmarked, b with
  | .map _ fields, .entry key => Entries.get? key fields
  | .list _ element, .item _ => some element
  | _, _ => none

/-- The node at a place. -/
def Schema.inside? (s : Schema) (place : Place) : Option Schema := place.foldlM branch? s

/-! ## What holds others -/

/-- Whether the value holds other values. -/
def Value.isContainer : Value → Bool
  | .list _ => true
  | .map _ => true
  | _ => false

/-- Whether the value holds nothing that holds others: it is a list of plain values at most. -/
def Value.isFlat : Value → Bool
  | .list items => items.all fun v => !v.isContainer
  | .map _ => false
  | _ => true

/-- Only what holds others has branches. -/
theorem Descriptor.isContainer_of_branch? {d e : Descriptor} {b : Branch}
    (h : d.branch? b = some e) : d.isContainer = true := by
  cases d with
  | list items => rfl
  | map entries => rfl
  | _ => cases h

theorem Value.isContainer_of_branch? {v w : Value} {b : Branch} (h : v.branch? b = some w) :
    v.isContainer = true := by
  cases v with
  | list items => rfl
  | map entries => rfl
  | _ => cases h

/-- What stands one branch below stands at the rest of the place. -/
theorem foldlM_cons_eq_some {α : Type} {branch? : α → Branch → Option α} {b : Branch}
    {place : Place} {a c : α} : (b :: place).foldlM branch? a = some c ↔
      ∃ below, branch? a b = some below ∧ place.foldlM branch? below = some c := by
  rw [List.foldlM_cons]
  exact Option.bind_eq_some_iff

/-- What is below a flat value holds nothing. -/
theorem Value.isContainer_of_isFlat {v w : Value} {b : Branch} (hv : v.isFlat = true)
    (h : v.branch? b = some w) : w.isContainer = false := by
  cases v with
  | list items =>
    cases b with
    | entry key => cases h
    | item index =>
      have hplain := List.all_eq_true.1 hv w (List.mem_of_getElem? h)
      rwa [Bool.not_eq_true'] at hplain
  | map entries => cases hv
  | _ => cases h

/-- What has something that holds others somewhere inside holds others itself. -/
theorem Value.isContainer_of_inside? {v w : Value} {place : Place} (h : v.inside? place = some w)
    (hw : w.isContainer = true) : v.isContainer = true := by
  cases place with
  | nil =>
    cases h
    exact hw
  | cons b place =>
    obtain ⟨below, hbelow, -⟩ := foldlM_cons_eq_some.1 h
    exact isContainer_of_branch? hbelow

namespace Schema

/-! ## Marks -/

theorem encodeAt_unmarked {s : Schema} {path : String} {v : Value} (hv : v.isNull = false) :
    s.encodeAt path v = s.unmarked.encodeAt path v := by
  induction s using Schema.induction with
  | partitionKey m inner ih => rw [encodeAt_partitionKey hv, ih, unmarked]
  | sortKey m inner ih => rw [encodeAt_sortKey hv, ih, unmarked]
  | _ => rfl

theorem decodeAt_unmarked {s : Schema} {mode : DecodeMode} {path : String} {d : Descriptor}
    (hd : d.isNull = false) : s.decodeAt mode path d = s.unmarked.decodeAt mode path d := by
  induction s using Schema.induction with
  | partitionKey m inner ih => rw [decodeAt_partitionKey hd, ih, unmarked]
  | sortKey m inner ih => rw [decodeAt_sortKey hd, ih, unmarked]
  | _ => rfl

/-- What is left without its marks has none. -/
theorem unmarked_cases (s : Schema) : (∃ m kind, s.unmarked = scalar m kind) ∨
    (∃ m kind, s.unmarked = set m kind) ∨ (∃ m fields, s.unmarked = map m fields) ∨
    ∃ m element, s.unmarked = list m element := by
  induction s using Schema.induction with
  | scalar m kind => exact .inl ⟨m, kind, rfl⟩
  | set m kind => exact .inr (.inl ⟨m, kind, rfl⟩)
  | map m fields ih => exact .inr (.inr (.inl ⟨m, fields, rfl⟩))
  | list m element ih => exact .inr (.inr (.inr ⟨m, element, rfl⟩))
  | partitionKey m inner ih => exact ih
  | sortKey m inner ih => exact ih

/-! ## What a success was -/

/-- A scalar is decoded from nothing that holds others, and to nothing that does. -/
theorem plain_of_decode_scalar {kind : ScalarKind} {path : String} {d : Descriptor} {v : Value}
    (h : kind.decode path d = .ok v) : d.isContainer = false ∧ v.isFlat = true := by
  unfold ScalarKind.decode at h
  split at h
  case h_2 =>
    obtain ⟨x, -, rfl⟩ := map_eq_ok.1 h
    exact ⟨rfl, rfl⟩
  case h_4 =>
    unfold decodeDate at h
    split at h
    · cases h
      exact ⟨rfl, rfl⟩
    · cases h
  all_goals
    cases h
    try exact ⟨rfl, rfl⟩

/-- A set is decoded as the list of its members, and these hold nothing else. -/
theorem plain_of_decode_set {kind : SetKind} {path : String} {d : Descriptor} {v : Value}
    (h : kind.decode path d = .ok v) : d.isContainer = false ∧ v.isFlat = true := by
  unfold SetKind.decode at h
  split at h
  case h_2 texts =>
    obtain ⟨members, hmembers, rfl⟩ := map_eq_ok.1 h
    refine ⟨rfl, List.all_eq_true.2 fun w hw => ?_⟩
    obtain ⟨i, hi⟩ := List.mem_iff_getElem?.1 hw
    obtain ⟨text, -, place, hdecode⟩ :=
      exists_getElem?_of_forall₂ (forall₂_of_decodeItems hmembers).flip hi
    obtain ⟨x, -, rfl⟩ := map_eq_ok.1 hdecode
    rfl
  case h_4 => cases h
  all_goals
    cases h
    refine ⟨rfl, List.all_eq_true.2 fun w hw => ?_⟩
    obtain ⟨member, -, rfl⟩ := List.mem_map.1 hw
    rfl

/-- What a value was encoded to: something that holds nothing, or a map or a list of what was
encoded inside. There is a case for each way of going down and one for what has nothing inside, so
proofs about places need no other knowledge of the encoder. -/
inductive Encodes (s : Schema) (path : String) : Value → Descriptor → Prop where
  | plain {v : Value} {d : Descriptor} (hd : d.isContainer = false) : Encodes s path v d
  | map {m : Modifiers} {fields : List (String × Schema)} {entries : List (String × Value)}
      {encoded : List (String × Descriptor)} (hnode : s.unmarked = .map m fields)
      (hfields : encodeFields fields path entries = .ok encoded) :
      Encodes s path (.map entries) (.map encoded)
  | list {m : Modifiers} {element : Schema} {items : List Value} {encoded : List Descriptor}
      (hnode : s.unmarked = .list m element)
      (hitems : encodeItems element.encodeAt path 0 items = .ok encoded) :
      Encodes s path (.list items) (.list encoded)

theorem encodes_of_encodeAt {s : Schema} {path : String} {v : Value} {d : Descriptor}
    (h : s.encodeAt path v = .ok d) : s.Encodes path v d := by
  cases hv : v.isNull with
  | true =>
    cases v with
    | null =>
      rw [encodeAt_null] at h
      split at h
      · cases h
        exact .plain rfl
      · cases h
    | _ => cases hv
  | false =>
    rw [encodeAt_unmarked hv] at h
    rcases s.unmarked_cases with ⟨m, kind, hs⟩ | ⟨m, kind, hs⟩ | ⟨m, fields, hs⟩ | ⟨m, element, hs⟩
    · rw [hs, encodeAt_scalar hv] at h
      exact .plain (plain_of_encode_scalar h).2
    · rw [hs, encodeAt_set hv] at h
      exact .plain (plain_of_encode_set h).2
    · rw [hs] at h
      obtain ⟨entries, encoded, rfl, hfields, rfl⟩ := (encodeAt_map_eq_ok hv).1 h
      exact .map hs hfields
    · rw [hs] at h
      obtain ⟨items, encoded, rfl, hitems, rfl⟩ := (encodeAt_list_eq_ok hv).1 h
      exact .list hs hitems

/-- What a descriptor was decoded to. One that holds nothing can still be a set, and then the value
is a list; its members hold nothing. -/
inductive Decodes (mode : DecodeMode) (s : Schema) (path : String) :
    Descriptor → Value → Prop where
  | plain {d : Descriptor} {v : Value} (hd : d.isContainer = false) (hv : v.isFlat = true) :
      Decodes mode s path d v
  | map {m : Modifiers} {fields : List (String × Schema)} {entries : List (String × Descriptor)}
      {decoded : List (String × Value)} (hnode : s.unmarked = .map m fields)
      (hnames : mode.checkNames fields path entries = .ok ())
      (hfields : decodeFields mode fields path entries = .ok decoded) :
      Decodes mode s path (.map entries) (.map decoded)
  | list {m : Modifiers} {element : Schema} {items : List Descriptor} {decoded : List Value}
      (hnode : s.unmarked = .list m element)
      (hitems : decodeItems (element.decodeAt mode) path 0 items = .ok decoded) :
      Decodes mode s path (.list items) (.list decoded)

theorem decodes_of_decodeAt {s : Schema} {mode : DecodeMode} {path : String} {d : Descriptor}
    {v : Value} (h : s.decodeAt mode path d = .ok v) : s.Decodes mode path d v := by
  cases hd : d.isNull with
  | true =>
    cases d with
    | null =>
      rw [decodeAt_null] at h
      cases h
      exact .plain rfl rfl
    | _ => cases hd
  | false =>
    rw [decodeAt_unmarked hd] at h
    rcases s.unmarked_cases with ⟨m, kind, hs⟩ | ⟨m, kind, hs⟩ | ⟨m, fields, hs⟩ | ⟨m, element, hs⟩
    · rw [hs, decodeAt_scalar hd] at h
      exact .plain (plain_of_decode_scalar h).1 (plain_of_decode_scalar h).2
    · rw [hs, decodeAt_set hd] at h
      exact .plain (plain_of_decode_set h).1 (plain_of_decode_set h).2
    · rw [hs] at h
      obtain ⟨entries, decoded, rfl, hnames, hfields, rfl⟩ := (decodeAt_map_eq_ok hd).1 h
      exact .map hs hnames hfields
    · rw [hs] at h
      obtain ⟨items, decoded, rfl, hitems, rfl⟩ := (decodeAt_list_eq_ok hd).1 h
      exact .list hs hitems

/-! ## One branch -/

theorem branch?_of_unmarked_map {s : Schema} {m : Modifiers} {fields : List (String × Schema)}
    (h : s.unmarked = map m fields) (key : String) :
    s.branch? (.entry key) = Entries.get? key fields := by
  unfold branch?
  rw [h]

theorem branch?_of_unmarked_list {s element : Schema} {m : Modifiers}
    (h : s.unmarked = list m element) (index : Nat) :
    s.branch? (.item index) = some element := by
  unfold branch?
  rw [h]

/-- A branch of what is encoded comes from the same branch of the value. -/
theorem exists_branch?_of_encodeAt {s : Schema} {path : String} {v : Value} {d e : Descriptor}
    {b : Branch} (h : s.encodeAt path v = .ok d) (he : d.branch? b = some e) :
    ∃ node w path', s.branch? b = some node ∧ v.branch? b = some w ∧
      node.encodeAt path' w = .ok e := by
  cases encodes_of_encodeAt h with
  | plain hd =>
    rw [Descriptor.isContainer_of_branch? he] at hd
    cases hd
  | map hnode hfields =>
    cases b with
    | entry key =>
      obtain ⟨field, w, hfield, hw, hencode⟩ := (get?_encodeFields_eq_some hfields).1 he
      exact ⟨field, w, _, (branch?_of_unmarked_map hnode key).trans hfield, hw, hencode⟩
    | item index => cases he
  | list hnode hitems =>
    cases b with
    | entry key => cases he
    | item index =>
      obtain ⟨w, hw, path', hencode⟩ :=
        exists_getElem?_of_forall₂ (forall₂_of_encodeItems hitems).flip he
      exact ⟨_, w, path', branch?_of_unmarked_list hnode index, hw, hencode⟩

/-- A branch of what is decoded leads to the same branch of the value. -/
theorem exists_branch?_of_decodeAt {s : Schema} {path : String} {d e : Descriptor} {v : Value}
    {b : Branch} (h : s.decodeAt .strict path d = .ok v) (he : d.branch? b = some e) :
    ∃ node w path', s.branch? b = some node ∧ v.branch? b = some w ∧
      node.decodeAt .strict path' e = .ok w := by
  cases decodes_of_decodeAt h with
  | plain hd hv =>
    rw [Descriptor.isContainer_of_branch? he] at hd
    cases hd
  | map hnode hnames hfields =>
    cases b with
    | entry key =>
      -- the strict mode passes over no key
      have hdeclared := checkNames_strict_eq_ok.1 hnames key (mem_keys_iff.2 ⟨e, he⟩)
      have hkey := keys_of_decodeFields hfields ▸
        List.mem_filter.2 ⟨hdeclared, Option.isSome_of_eq_some he⟩
      obtain ⟨w, hw⟩ := mem_keys_iff.1 hkey
      obtain ⟨field, e', hfield, he', hdecode⟩ := exists_decodeAt_of_get? hfields hw
      have hsame : e' = e := Option.some.inj (he'.symm.trans he)
      exact ⟨field, w, _, (branch?_of_unmarked_map hnode key).trans hfield, hw, hsame ▸ hdecode⟩
    | item index => cases he
  | list hnode hitems =>
    cases b with
    | entry key => cases he
    | item index =>
      obtain ⟨w, hw, path', hdecode⟩ :=
        exists_getElem?_of_forall₂ (forall₂_of_decodeItems hitems) he
      exact ⟨_, w, path', branch?_of_unmarked_list hnode index, hw, hdecode⟩

/-- What holds others below a decoded value is decoded from the same branch of the descriptor. The
members of a set are the only things below a decoded value that are not. -/
theorem exists_branch?_of_decodeAt_of_isContainer {s : Schema} {mode : DecodeMode} {path : String}
    {d : Descriptor} {v w : Value} {b : Branch} (h : s.decodeAt mode path d = .ok v)
    (hw : v.branch? b = some w) (hcontainer : w.isContainer = true) :
    ∃ node e path', s.branch? b = some node ∧ d.branch? b = some e ∧
      node.decodeAt mode path' e = .ok w := by
  cases decodes_of_decodeAt h with
  | plain hd hv =>
    rw [Value.isContainer_of_isFlat hv hw] at hcontainer
    cases hcontainer
  | map hnode hnames hfields =>
    cases b with
    | entry key =>
      obtain ⟨field, e, hfield, he, hdecode⟩ := exists_decodeAt_of_get? hfields hw
      exact ⟨field, e, _, (branch?_of_unmarked_map hnode key).trans hfield, he, hdecode⟩
    | item index => cases hw
  | list hnode hitems =>
    cases b with
    | entry key => cases hw
    | item index =>
      obtain ⟨e, he, path', hdecode⟩ :=
        exists_getElem?_of_forall₂ (forall₂_of_decodeItems hitems).flip hw
      exact ⟨_, e, path', branch?_of_unmarked_list hnode index, he, hdecode⟩

/-! ## The whole way -/

/-- **Places of encoded values.** What stands at a place of the descriptor is encoded from what
stands there in the value. The place inside the value is not the text in an error, which is why
another text appears for the encoder. -/
theorem exists_inside?_of_encodeAt {s : Schema} {path : String} {v : Value} {d e : Descriptor}
    {place : Place} (h : s.encodeAt path v = .ok d) (he : d.inside? place = some e) :
    ∃ node w path', s.inside? place = some node ∧ v.inside? place = some w ∧
      node.encodeAt path' w = .ok e := by
  induction place generalizing s path v d with
  | nil =>
    cases he
    exact ⟨s, v, path, rfl, rfl, h⟩
  | cons b place ih =>
    obtain ⟨below, hbelow, he⟩ := foldlM_cons_eq_some.1 he
    obtain ⟨node, w, path', hnode, hw, hencode⟩ := exists_branch?_of_encodeAt h hbelow
    obtain ⟨node', w', path'', hnode', hw', hencode'⟩ := ih hencode he
    exact ⟨node', w', path'', foldlM_cons_eq_some.2 ⟨node, hnode, hnode'⟩,
      foldlM_cons_eq_some.2 ⟨w, hw, hw'⟩, hencode'⟩

/-- **Places of decoded descriptors.** What stands at a place of the descriptor is decoded to what
stands there in the value. It needs the strict mode: the lenient one may have passed over what
stands there. -/
theorem exists_inside?_of_decodeAt {s : Schema} {path : String} {d e : Descriptor} {v : Value}
    {place : Place} (h : s.decodeAt .strict path d = .ok v) (he : d.inside? place = some e) :
    ∃ node w path', s.inside? place = some node ∧ v.inside? place = some w ∧
      node.decodeAt .strict path' e = .ok w := by
  induction place generalizing s path v d with
  | nil =>
    cases he
    exact ⟨s, v, path, rfl, rfl, h⟩
  | cons b place ih =>
    obtain ⟨below, hbelow, he⟩ := foldlM_cons_eq_some.1 he
    obtain ⟨node, w, path', hnode, hw, hdecode⟩ := exists_branch?_of_decodeAt h hbelow
    obtain ⟨node', w', path'', hnode', hw', hdecode'⟩ := ih hdecode he
    exact ⟨node', w', path'', foldlM_cons_eq_some.2 ⟨node, hnode, hnode'⟩,
      foldlM_cons_eq_some.2 ⟨w, hw, hw'⟩, hdecode'⟩

/-- **Places of decoded values.** What holds others at a place of the value is decoded from what
stands there in the descriptor. Both modes are covered, because what stands in the value was
decoded and not passed over. A plain value may be the member of a set, which is at no place of the
descriptor. -/
theorem exists_inside?_of_decodeAt_of_isContainer {s : Schema} {mode : DecodeMode} {path : String}
    {d : Descriptor} {v w : Value} {place : Place} (h : s.decodeAt mode path d = .ok v)
    (hw : v.inside? place = some w) (hcontainer : w.isContainer = true) :
    ∃ node e path', s.inside? place = some node ∧ d.inside? place = some e ∧
      node.decodeAt mode path' e = .ok w := by
  induction place generalizing s path v d with
  | nil =>
    cases hw
    exact ⟨s, d, path, rfl, rfl, h⟩
  | cons b place ih =>
    obtain ⟨below, hbelow, hw⟩ := foldlM_cons_eq_some.1 hw
    have hbranch : below.isContainer = true := Value.isContainer_of_inside? hw hcontainer
    obtain ⟨node, e, path', hnode, he, hdecode⟩ :=
      exists_branch?_of_decodeAt_of_isContainer h hbelow hbranch
    obtain ⟨node', e', path'', hnode', he', hdecode'⟩ := ih hdecode hw
    exact ⟨node', e', path'', foldlM_cons_eq_some.2 ⟨node, hnode, hnode'⟩,
      foldlM_cons_eq_some.2 ⟨e, he, he'⟩, hdecode'⟩

end Schema

end ItemStore
