import ItemStore.Proofs.Schema.Alike
import ItemStore.Proofs.Schema.Decoding

/-
Encoding and decoding along schemas that are declared alike.

The order in which a map declares its fields is the order in which they are encoded and decoded,
and nothing else depends on it. So along alike schemas the same values are encoded, to descriptors
that are the same; and the same descriptors are decoded, to values that are alike. What is at issue
in each case are the fields of one map, and they are settled by look-ups: whether a map can be
encoded depends on what each field finds under its name, and so does what stands in the result.

For decoding this is said of fields that match on the names that a descriptor has, and not on all
names. A map may then have fields besides, as the map has that is combined of several entities.
-/
set_option autoImplicit false

namespace ItemStore

open Entries

/-- Values that are equal, the order of the entries of maps aside. It is equality for everything
that an application can ask of a value by name. -/
inductive Value.Alike : Value → Value → Prop where
  | refl (v : Value) : Alike v v
  | list {as bs : List Value} (items : List.Forall₂ Alike as bs) : Alike (.list as) (.list bs)
  | map {as bs : List (String × Value)} (names : (keys as).Perm (keys bs))
      (targets : ∀ name a b, Entries.get? name as = some a → Entries.get? name bs = some b →
        Alike a b) :
      Alike (.map as) (.map bs)

/-! ## Items -/

theorem encodeItems_follows {α β : Type} {R : α → β → Prop}
    {encode : String → Value → Except Error α} {encode' : String → Value → Except Error β}
    {items : List Value} (h : ∀ v ∈ items, ∀ path, Follows R (encode path v) (encode' path v))
    (path : String) (index : Nat) :
    Follows (List.Forall₂ R) (encodeItems encode path index items)
      (encodeItems encode' path index items) := by
  induction items generalizing index with
  | nil => exact .ok .nil
  | cons v items ih =>
    refine (h v List.mem_cons_self _).bind fun a b hab => ?_
    refine (ih (fun w hw => h w (List.mem_cons_of_mem v hw)) (index + 1)).bind fun as bs hrest => ?_
    exact .ok (.cons hab hrest)

theorem decodeItems_follows {α : Type} {R : Value → Value → Prop}
    {decode decode' : String → α → Except Error Value} {items : List α}
    (h : ∀ a ∈ items, ∀ path, Follows R (decode path a) (decode' path a))
    (path : String) (index : Nat) :
    Follows (List.Forall₂ R) (decodeItems decode path index items)
      (decodeItems decode' path index items) := by
  induction items generalizing index with
  | nil => exact .ok .nil
  | cons a items ih =>
    refine (h a List.mem_cons_self _).bind fun v w hvw => ?_
    refine (ih (fun b hb => h b (List.mem_cons_of_mem a hb)) (index + 1)).bind fun vs ws hrest => ?_
    exact .ok (.cons hvw hrest)

namespace Schema

/-! ## What the fields of a map come to -/

section Encoding

variable {fields : List (String × Schema)} {path : String} {entries : List (String × Value)}
  {encoded : List (String × Descriptor)}

/-- Every field has to find something that it can encode, or it has to be optional. -/
theorem exists_encodeFields_iff : (∃ encoded, encodeFields fields path entries = .ok encoded) ↔
    ∀ f ∈ fields, (∃ v d, get? f.1 entries = some v ∧ f.2.encodeAt (placeOf path f.1) v = .ok d) ∨
      get? f.1 entries = none ∧ f.2.isOptional = true := by
  induction fields with
  | nil => exact ⟨fun _ f hf => absurd hf List.not_mem_nil, fun _ => ⟨[], rfl⟩⟩
  | cons f fields ih =>
    obtain ⟨name, field⟩ := f
    rw [List.forall_mem_cons, ← ih]
    constructor
    · rintro ⟨encoded, h⟩
      rcases encodeFields_cons_eq_ok.1 h with
        ⟨v, d, rest, hv, hd, hrest, -⟩ | ⟨hv, hoptional, hrest⟩
      · exact ⟨.inl ⟨v, d, hv, hd⟩, rest, hrest⟩
      · exact ⟨.inr ⟨hv, hoptional⟩, encoded, hrest⟩
    · rintro ⟨⟨v, d, hv, hd⟩ | ⟨hv, hoptional⟩, rest, hrest⟩
      · exact ⟨_, encodeFields_cons_eq_ok.2 (.inl ⟨v, d, rest, hv, hd, hrest, rfl⟩)⟩
      · exact ⟨rest, encodeFields_cons_eq_ok.2 (.inr ⟨hv, hoptional, hrest⟩)⟩

/-- The names are those of the fields, as far as they are present. -/
theorem keys_of_encodeFields (h : encodeFields fields path entries = .ok encoded) :
    keys encoded = (keys fields).filter fun name => has name entries := by
  induction fields generalizing encoded with
  | nil =>
    cases h
    rfl
  | cons f fields ih =>
    obtain ⟨name, field⟩ := f
    have hkeys : keys ((name, field) :: fields) = name :: keys fields := rfl
    rcases encodeFields_cons_eq_ok.1 h with ⟨v, d, rest, hv, -, hrest, rfl⟩ | ⟨hv, -, hrest⟩
    · have hhas : has name entries = true := by rw [has, hv]; rfl
      rw [hkeys, List.filter_cons, if_pos hhas, ← ih hrest]
      rfl
    · have hhas : ¬ has name entries = true := by rw [has, hv]; decide
      rw [hkeys, List.filter_cons, if_neg hhas, ih hrest]

/-- Under a name stands what the field of the name makes of what the map has under it. -/
theorem get?_encodeFields_eq_some (h : encodeFields fields path entries = .ok encoded)
    {name : String} {d : Descriptor} :
    get? name encoded = some d ↔ ∃ field v, get? name fields = some field ∧
      get? name entries = some v ∧ field.encodeAt (placeOf path name) v = .ok d := by
  constructor
  · intro hd
    obtain ⟨hdeclared, v, hv⟩ := mem_keys_of_encodeFields h (mem_keys_iff.2 ⟨d, hd⟩)
    obtain ⟨field, hfield⟩ := mem_keys_iff.1 hdeclared
    obtain ⟨d', hd', hencode⟩ := get?_of_encodeFields_of_get? h hfield hv
    rw [hd] at hd'
    cases hd'
    exact ⟨field, v, hfield, hv, hencode⟩
  · rintro ⟨field, v, hfield, hv, hencode⟩
    obtain ⟨d', hd', hencode'⟩ := get?_of_encodeFields_of_get? h hfield hv
    rw [hencode] at hencode'
    cases hencode'
    exact hd'

end Encoding

section Decoding

variable {mode : DecodeMode} {fields : List (String × Schema)} {path : String}
  {entries : List (String × Descriptor)} {decoded : List (String × Value)}

/-- Every field that finds something has to be able to decode it. -/
theorem exists_decodeFields_iff :
    (∃ decoded, decodeFields mode fields path entries = .ok decoded) ↔
      ∀ f ∈ fields, ∀ d, get? f.1 entries = some d →
        ∃ v, f.2.decodeAt mode (placeOf path f.1) d = .ok v := by
  induction fields with
  | nil => exact ⟨fun _ f hf => absurd hf List.not_mem_nil, fun _ => ⟨[], rfl⟩⟩
  | cons f fields ih =>
    obtain ⟨name, field⟩ := f
    rw [List.forall_mem_cons, ← ih]
    constructor
    · rintro ⟨decoded, h⟩
      rcases decodeFields_cons_eq_ok.1 h with ⟨d, v, rest, hd, hv, hrest, -⟩ | ⟨hd, hrest⟩
      · refine ⟨?_, rest, hrest⟩
        intro d' hd'
        rw [hd] at hd'
        cases hd'
        exact ⟨v, hv⟩
      · refine ⟨?_, decoded, hrest⟩
        intro d' hd'
        rw [hd] at hd'
        cases hd'
    · rintro ⟨hfield, rest, hrest⟩
      cases hd : get? name entries with
      | some d =>
        obtain ⟨v, hv⟩ := hfield d hd
        exact ⟨_, decodeFields_cons_eq_ok.2 (.inl ⟨d, v, rest, hd, hv, hrest, rfl⟩)⟩
      | none => exact ⟨rest, decodeFields_cons_eq_ok.2 (.inr ⟨hd, hrest⟩)⟩

theorem keys_of_decodeFields (h : decodeFields mode fields path entries = .ok decoded) :
    keys decoded = (keys fields).filter fun name => has name entries := by
  induction fields generalizing decoded with
  | nil =>
    cases h
    rfl
  | cons f fields ih =>
    obtain ⟨name, field⟩ := f
    have hkeys : keys ((name, field) :: fields) = name :: keys fields := rfl
    rcases decodeFields_cons_eq_ok.1 h with ⟨d, v, rest, hd, -, hrest, rfl⟩ | ⟨hd, hrest⟩
    · have hhas : has name entries = true := by rw [has, hd]; rfl
      rw [hkeys, List.filter_cons, if_pos hhas, ← ih hrest]
      rfl
    · have hhas : ¬ has name entries = true := by rw [has, hd]; decide
      rw [hkeys, List.filter_cons, if_neg hhas, ih hrest]

theorem exists_decodeAt_of_get? (h : decodeFields mode fields path entries = .ok decoded)
    {name : String} {v : Value} (hv : get? name decoded = some v) : ∃ field d,
    get? name fields = some field ∧ get? name entries = some d ∧
      field.decodeAt mode (placeOf path name) d = .ok v := by
  induction fields generalizing decoded with
  | nil =>
    cases h
    cases hv
  | cons f fields ih =>
    obtain ⟨n, field⟩ := f
    rcases decodeFields_cons_eq_ok.1 h with ⟨d, w, rest, hd, hw, hrest, rfl⟩ | ⟨hd, hrest⟩
    · rw [get?] at hv
      by_cases hn : n = name
      · subst hn
        rw [if_pos rfl] at hv
        cases hv
        exact ⟨field, d, by rw [get?, if_pos rfl], hd, hw⟩
      · rw [if_neg hn] at hv
        obtain ⟨field', d', hfield', hd', hdecode⟩ := ih hrest hv
        exact ⟨field', d', by rw [get?, if_neg hn, hfield'], hd', hdecode⟩
    · obtain ⟨field', d', hfield', hd', hdecode⟩ := ih hrest hv
      -- the first field found nothing, so it has another name
      have hn : n ≠ name := by
        rintro rfl
        rw [hd] at hd'
        cases hd'
      exact ⟨field', d', by rw [get?, if_neg hn, hfield'], hd', hdecode⟩

end Decoding

/-! ## Encoding along alike schemas -/

/-- The descriptors that both sides come to are the same. Both sides have to succeed together; the
errors need not be equal, since fields come in another order. -/
def EncodesAlike (s s' : Schema) : Prop :=
  ∀ path v, Follows (fun d d' => d.same d' = true) (s.encodeAt path v) (s'.encodeAt path v)

/-- Only what holds others can be different from itself. -/
theorem same_self_of_isContainer {d : Descriptor} (h : d.isContainer = false) :
    d.same d = true := by
  apply Descriptor.same_refl
  cases d with
  | list items => cases h
  | map entries => cases h
  | _ => rfl

/-- Null is treated as the modifiers say, and they are those of the other side. -/
theorem encodesAlike_of_not_isNull {s s' : Schema} (hnullable : s.isNullable = s'.isNullable)
    (h : ∀ path v, v.isNull = false →
      Follows (fun d d' => d.same d' = true) (s.encodeAt path v) (s'.encodeAt path v)) :
    EncodesAlike s s' := by
  intro path v
  cases v with
  | null =>
    rw [encodeAt_null, encodeAt_null, hnullable]
    split
    · exact .ok (by rw [Descriptor.same])
    · exact .error _ _
  | _ => exact h path _ rfl

section MatchingFields

variable {fields fields' : List (String × Schema)} (hnodup : (keys fields).Nodup)
  (hnames : (keys fields).Perm (keys fields'))
  (hnodes : ∀ name s s', get? name fields = some s → get? name fields' = some s' →
    s.isOptional = s'.isOptional ∧ EncodesAlike s s')
  {path : String} {entries : List (String × Value)}
include hnodup hnames hnodes

/-- What is encoded by fields is encoded by fields that match them. -/
theorem exists_encodeFields_of_match {encoded : List (String × Descriptor)}
    (h : encodeFields fields path entries = .ok encoded) :
    ∃ encoded', encodeFields fields' path entries = .ok encoded' := by
  have hfields := exists_encodeFields_iff.1 ⟨encoded, h⟩
  apply exists_encodeFields_iff.2
  intro f' hf'
  -- every field of the other side has its counterpart here
  have hs' : get? f'.1 fields' = some f'.2 := get?_of_mem (hnames.nodup_iff.1 hnodup) hf'
  obtain ⟨s, hs⟩ := mem_keys_iff.1 (hnames.mem_iff.2 (mem_keys_iff.2 ⟨f'.2, hs'⟩))
  obtain ⟨hoptional, halike⟩ := hnodes f'.1 s f'.2 hs hs'
  rcases hfields (f'.1, s) (mem_of_get? hs) with ⟨v, d, hv, hd⟩ | ⟨hv, hs⟩
  · obtain ⟨d', hd', -⟩ := halike _ v d hd
    exact .inl ⟨v, d', hv, hd'⟩
  · exact .inr ⟨hv, hoptional ▸ hs⟩

/-- The fields of two maps that match are encoded to the same entries. -/
theorem encodeFields_follows : Follows (fun as bs => (Descriptor.map as).same (.map bs) = true)
    (encodeFields fields path entries) (encodeFields fields' path entries) := by
  intro encoded h
  obtain ⟨encoded', h'⟩ := exists_encodeFields_of_match hnodup hnames hnodes h
  refine ⟨encoded', h', Descriptor.same_map.2 ⟨?_, ?_⟩⟩
  · have hperm : (keys encoded).Perm (keys encoded') := by
      rw [keys_of_encodeFields h, keys_of_encodeFields h']
      exact hnames.filter _
    simpa [keys] using hperm.length_eq
  · intro e he
    have hnodupEncoded : (keys encoded).Nodup := by
      rw [keys_of_encodeFields h]
      exact hnodup.filter _
    obtain ⟨s, v, hs, hv, hd⟩ := (get?_encodeFields_eq_some h).1 (get?_of_mem hnodupEncoded he)
    obtain ⟨s', hs'⟩ := mem_keys_iff.1 (hnames.mem_iff.1 (mem_keys_iff.2 ⟨s, hs⟩))
    obtain ⟨d', hd', hsame⟩ := (hnodes e.1 s s' hs hs').2 _ v e.2 hd
    exact ⟨d', (get?_encodeFields_eq_some h').2 ⟨s', v, hs', hv, hd'⟩, hsame⟩

end MatchingFields

/-- **Encoding along alike schemas.** The induction is on the relation, so each kind of node is
one case. -/
theorem Alike.encodesAlike {s s' : Schema} (h : Alike s s') : EncodesAlike s s' := by
  induction h with
  | scalar m kind =>
    refine encodesAlike_of_not_isNull rfl fun path v hv d hd => ?_
    refine ⟨d, hd, ?_⟩
    rw [encodeAt_scalar hv] at hd
    exact same_self_of_isContainer (plain_of_encode_scalar hd).2
  | set m kind =>
    refine encodesAlike_of_not_isNull rfl fun path v hv d hd => ?_
    refine ⟨d, hd, ?_⟩
    rw [encodeAt_set hv] at hd
    exact same_self_of_isContainer (plain_of_encode_set hd).2
  | @map m fields fields' nodup names nodes ih =>
    refine encodesAlike_of_not_isNull rfl fun path v hv d hd => ?_
    obtain ⟨entries, encoded, rfl, hencode, rfl⟩ := (encodeAt_map_eq_ok hv).1 hd
    have hnodes : ∀ name s s', get? name fields = some s → get? name fields' = some s' →
        s.isOptional = s'.isOptional ∧ EncodesAlike s s' := by
      intro name s s' hs hs'
      exact ⟨(nodes name s s' hs hs').isOptional_eq, ih name s s' hs hs'⟩
    obtain ⟨encoded', hencode', hsame⟩ :=
      encodeFields_follows nodup names hnodes encoded hencode
    exact ⟨_, (encodeAt_map_eq_ok hv).2 ⟨entries, encoded', rfl, hencode', rfl⟩, hsame⟩
  | list element ih =>
    refine encodesAlike_of_not_isNull rfl fun path v hv d hd => ?_
    obtain ⟨items, encoded, rfl, hencode, rfl⟩ := (encodeAt_list_eq_ok hv).1 hd
    obtain ⟨encoded', hencode', hsame⟩ :=
      encodeItems_follows (fun w _ path => ih path w) path 0 encoded hencode
    exact ⟨_, (encodeAt_list_eq_ok hv).2 ⟨items, encoded', rfl, hencode', rfl⟩,
      Descriptor.same_list.2 hsame⟩
  | partitionKey inner ih =>
    refine encodesAlike_of_not_isNull rfl fun path v hv => ?_
    rw [encodeAt_partitionKey hv, encodeAt_partitionKey hv]
    exact ih path v
  | sortKey inner ih =>
    refine encodesAlike_of_not_isNull rfl fun path v hv => ?_
    rw [encodeAt_sortKey hv, encodeAt_sortKey hv]
    exact ih path v

/-! ## Decoding along alike schemas -/

/-- The values that both sides come to are alike. -/
def DecodesAlike (mode : DecodeMode) (s s' : Schema) : Prop :=
  ∀ path d, Follows Value.Alike (s.decodeAt mode path d) (s'.decodeAt mode path d)

theorem decodesAlike_of_not_isNull {mode : DecodeMode} {s s' : Schema}
    (h : ∀ path d, d.isNull = false →
      Follows Value.Alike (s.decodeAt mode path d) (s'.decodeAt mode path d)) :
    DecodesAlike mode s s' := by
  intro path d
  cases d with
  | null =>
    rw [decodeAt_null, decodeAt_null]
    exact .ok (.refl .null)
  | _ => exact h path _ rfl

/-- Of the declared names it only matters which of those of the descriptor they are. -/
theorem checkNames_congr {mode : DecodeMode} {fields fields' : List (String × Schema)}
    {path : String} {entries : List (String × Descriptor)}
    (h : ∀ name ∈ keys entries, name ∈ keys fields ↔ name ∈ keys fields') :
    mode.checkNames fields path entries = mode.checkNames fields' path entries := by
  cases mode with
  | lenient => rfl
  | strict =>
    have hhas : ∀ name ∈ keys entries, (!has name fields) = !has name fields' := by
      intro name hname
      have hiff : has name fields = true ↔ has name fields' = true := by
        rw [has, has, Option.isSome_iff_exists, Option.isSome_iff_exists, ← mem_keys_iff,
          ← mem_keys_iff]
        exact h name hname
      rw [Bool.eq_iff_iff.2 hiff]
    rw [DecodeMode.checkNames, DecodeMode.checkNames, ← List.head?_filter, ← List.head?_filter,
      List.filter_congr hhas]

section MatchingNames

variable {mode : DecodeMode} {fields fields' : List (String × Schema)}
  (hnodup : (keys fields).Nodup) (hnodup' : (keys fields').Nodup)
  {entries : List (String × Descriptor)}
  (hnames : ∀ name ∈ keys entries, name ∈ keys fields ↔ name ∈ keys fields')
  (hnodes : ∀ name s s', name ∈ keys entries → get? name fields = some s →
    get? name fields' = some s' → DecodesAlike mode s s')
include hnodup' hnames hnodes

/-- What is decoded by fields is decoded by fields that match them on the names there are. -/
theorem exists_decodeFields_of_match {path : String} {decoded : List (String × Value)}
    (h : decodeFields mode fields path entries = .ok decoded) :
    ∃ decoded', decodeFields mode fields' path entries = .ok decoded' := by
  have hfields := exists_decodeFields_iff.1 ⟨decoded, h⟩
  apply exists_decodeFields_iff.2
  intro f' hf' d hd
  have hmem : f'.1 ∈ keys entries := mem_keys_iff.2 ⟨d, hd⟩
  have hs' : get? f'.1 fields' = some f'.2 := get?_of_mem hnodup' hf'
  obtain ⟨s, hs⟩ := mem_keys_iff.1 ((hnames _ hmem).2 (mem_keys_iff.2 ⟨f'.2, hs'⟩))
  obtain ⟨v, hv⟩ := hfields (f'.1, s) (mem_of_get? hs) d hd
  obtain ⟨v', hv', -⟩ := hnodes f'.1 s f'.2 hmem hs hs' _ d v hv
  exact ⟨v', hv'⟩

include hnodup

/-- Fields that match on the names of a descriptor are decoded to alike entries. -/
theorem decodeFields_follows (path : String) :
    Follows (fun as bs => Value.Alike (.map as) (.map bs))
      (decodeFields mode fields path entries) (decodeFields mode fields' path entries) := by
  intro decoded h
  obtain ⟨decoded', h'⟩ := exists_decodeFields_of_match hnodup' hnames hnodes h
  refine ⟨decoded', h', .map ?_ ?_⟩
  · have hperm : ((keys fields).filter fun name => has name entries).Perm
        ((keys fields').filter fun name => has name entries) := by
      apply (List.perm_ext_iff_of_nodup (hnodup.filter _) (hnodup'.filter _)).2
      intro name
      rw [List.mem_filter, List.mem_filter]
      refine and_congr_left fun hhas => ?_
      obtain ⟨d, hd⟩ := Option.isSome_iff_exists.1 hhas
      exact hnames name (mem_keys_iff.2 ⟨d, hd⟩)
    rw [keys_of_decodeFields h, keys_of_decodeFields h']
    exact hperm
  · intro name v v' hv hv'
    obtain ⟨s, d, hs, hd, hdecode⟩ := exists_decodeAt_of_get? h hv
    obtain ⟨s', d', hs', hd', hdecode'⟩ := exists_decodeAt_of_get? h' hv'
    rw [hd] at hd'
    cases hd'
    have hmem : name ∈ keys entries := mem_keys_iff.2 ⟨d, hd⟩
    obtain ⟨w, hw, halike⟩ := hnodes name s s' hmem hs hs' _ d v hdecode
    rw [hdecode'] at hw
    cases hw
    exact halike

end MatchingNames

/-- **Decoding along alike schemas.** Both modes are covered, as names are declared alike too. -/
theorem Alike.decodesAlike {s s' : Schema} (h : Alike s s') (mode : DecodeMode) :
    DecodesAlike mode s s' := by
  induction h with
  | scalar m kind => exact fun path d => .refl .refl _
  | set m kind => exact fun path d => .refl .refl _
  | @map m fields fields' nodup names nodes ih =>
    refine decodesAlike_of_not_isNull fun path d hd v hv => ?_
    obtain ⟨entries, decoded, rfl, hcheck, hdecode, rfl⟩ := (decodeAt_map_eq_ok hd).1 hv
    have hmem : ∀ name ∈ keys entries, name ∈ keys fields ↔ name ∈ keys fields' :=
      fun name _ => names.mem_iff
    have hnodes : ∀ name s s', name ∈ keys entries → get? name fields = some s →
        get? name fields' = some s' → DecodesAlike mode s s' := fun name s s' _ => ih name s s'
    obtain ⟨decoded', hdecode', halike⟩ :=
      decodeFields_follows nodup (names.nodup_iff.1 nodup) hmem hnodes path decoded hdecode
    rw [checkNames_congr hmem] at hcheck
    exact ⟨_, (decodeAt_map_eq_ok hd).2 ⟨entries, decoded', rfl, hcheck, hdecode', rfl⟩, halike⟩
  | list element ih =>
    refine decodesAlike_of_not_isNull fun path d hd v hv => ?_
    obtain ⟨items, decoded, rfl, hdecode, rfl⟩ := (decodeAt_list_eq_ok hd).1 hv
    obtain ⟨decoded', hdecode', halike⟩ :=
      decodeItems_follows (fun e _ path => ih path e) path 0 decoded hdecode
    exact ⟨_, (decodeAt_list_eq_ok hd).2 ⟨items, decoded', rfl, hdecode', rfl⟩, .list halike⟩
  | partitionKey inner ih =>
    refine decodesAlike_of_not_isNull fun path d hd => ?_
    rw [decodeAt_partitionKey hd, decodeAt_partitionKey hd]
    exact ih path d
  | sortKey inner ih =>
    refine decodesAlike_of_not_isNull fun path d hd => ?_
    rw [decodeAt_sortKey hd, decodeAt_sortKey hd]
    exact ih path d

/-- Items are decoded like maps, by their fields. -/
theorem decodeItem_follows {mode : DecodeMode} {m m' : Modifiers}
    {fields fields' : List (String × Schema)} (hnodup : (keys fields).Nodup)
    (hnodup' : (keys fields').Nodup) {item : Item}
    (hnames : ∀ name ∈ keys item, name ∈ keys fields ↔ name ∈ keys fields')
    (hnodes : ∀ name s s', name ∈ keys item → get? name fields = some s →
      get? name fields' = some s' → DecodesAlike mode s s') :
    Follows Value.Alike ((map m fields).decodeItem mode item)
      ((map m' fields').decodeItem mode item) := by
  rw [decodeItem, decodeItem]
  dsimp only [fields?]
  rw [checkNames_congr hnames]
  refine (Follows.refl (fun _ => rfl : ∀ u, u = u) _).bind fun _ _ _ => ?_
  exact (decodeFields_follows hnodup hnodup' hnames hnodes "").bind fun as bs halike => .ok halike

end Schema

end ItemStore
