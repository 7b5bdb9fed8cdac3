import ItemStore.Proofs.Decimal.Digits
import ItemStore.Proofs.Schema.Encoding
import ItemStore.Proofs.Text.Cut
import ItemStore.Schema.Path

/-
Going down a value and going down what it is encoded as.

A path leads into a schema, into a value and into a descriptor, and the three descents are
written apart: encoding follows the tree of the schema and passes through key marks, whereas
a path is cut at its dots first and followed one segment after the other. They meet in one
step. Where a segment leads into the schema and into the value, it leads into the encoded
value as well, to the encoding of what it leads to in the value. A whole path is such steps
in a row.

The encoding that a step ends at was made at a place inside the value. Places are only ever
used for messages, so it is the encoding of the part for itself (`encode_of_encodeAt`).

The descents are those of `resolve` in a schema, of an application in its value and of a store in
what it holds.
-/
set_option autoImplicit false

namespace ItemStore

open Entries

/-! ## Paths of one segment -/

theorem Path.isTopLevel_iff {p : Path} : p.isTopLevel = true ↔ '.' ∉ p.text.toList := by
  rw [isTopLevel, Bool.not_eq_true', ← Bool.not_eq_true, List.contains_iff_mem]

theorem Path.segments_of_isTopLevel {p : Path} (h : p.isTopLevel = true) :
    p.segments = [p.text] := by
  rw [segments, Text.splitOn_of_notMem (isTopLevel_iff.1 h), List.map_singleton,
    String.ofList_toList]

theorem Path.root_of_isTopLevel {p : Path} (h : p.isTopLevel = true) : p.root = p.text := by
  rw [root, segments_of_isTopLevel h]
  rfl

/-- A path is nothing but its text. -/
theorem Path.text_injective : Function.Injective Path.text := by
  rintro ⟨p⟩ ⟨q⟩ rfl
  rfl

theorem Path.segments_ne_nil (p : Path) : p.segments ≠ [] :=
  List.map_eq_nil_iff.not.2 (Text.splitOn_ne_nil '.' p.text.toList)

theorem Path.dot_notMem_of_mem_segments {p : Path} {segment : String} (h : segment ∈ p.segments) :
    '.' ∉ segment.toList := by
  obtain ⟨piece, hpiece, rfl⟩ := List.mem_map.1 h
  rw [String.toList_ofList]
  exact Text.notMem_of_mem_splitOn hpiece

theorem Path.dot_notMem_root (p : Path) : '.' ∉ p.root.toList := by
  obtain ⟨first, rest, hsegments⟩ := List.exists_cons_of_ne_nil p.segments_ne_nil
  apply dot_notMem_of_mem_segments (p := p)
  rw [root, hsegments]
  exact List.mem_cons_self

/-- A path that is put together from two has the segments of both. -/
theorem Path.segments_append (first rest : String) :
    segments ⟨first ++ "." ++ rest⟩ = segments ⟨first⟩ ++ segments ⟨rest⟩ := by
  have hlist : (first ++ "." ++ rest).toList = first.toList ++ '.' :: rest.toList := by simp
  rw [segments, hlist, Text.splitOn_append_cons, List.map_append]
  rfl

/-- Segments that are joined by dots are the segments of that path. -/
theorem Path.segments_intercalate {segments : List String} (hne : segments ≠ [])
    (h : ∀ segment ∈ segments, '.' ∉ segment.toList) :
    Path.segments ⟨".".intercalate segments⟩ = segments := by
  have hpieces : ∀ piece ∈ segments.map String.toList, '.' ∉ piece := by
    intro piece hpiece
    obtain ⟨segment, hsegment, rfl⟩ := List.mem_map.1 hpiece
    exact h segment hsegment
  have hcut : Text.splitOn '.' (Text.joinWith ['.'] (segments.map String.toList)) =
      segments.map String.toList :=
    Text.splitOn_joinWith (List.map_eq_nil_iff.not.2 hne) hpieces
  rw [Path.segments, Text.toList_intercalate]
  show (Text.splitOn '.' (Text.joinWith ['.'] (segments.map String.toList))).map String.ofList = _
  rw [hcut, List.map_map]
  simp [Function.comp_def]

/-! ## Paths in a schema -/

namespace Schema

theorem resolve_eq_ok {s node : Schema} {p : Path} :
    s.resolve p = .ok node ↔ s.resolve? p = some node := by
  rw [resolve]
  cases hnode : s.resolve? p with
  | none => simp
  | some found => simp

/-- A path has at least one segment, so it begins with a step. -/
theorem resolve?_eq (s : Schema) (p : Path) :
    s.resolve? p = (s.step? p.root).bind fun child => child.descend? p.segments.tail := by
  rw [resolve?, descend?, Path.root]
  cases hsegments : p.segments with
  | nil => exact absurd hsegments p.segments_ne_nil
  | cons segment segments => rfl

/-- The name of a field leads to the field, unless it is taken for a longer path. -/
theorem resolve_of_field? {s node : Schema} {name : String} (h : s.field? name = some node)
    (hdot : '.' ∉ name.toList) : s.resolve ⟨name⟩ = .ok node := by
  have htop : Path.isTopLevel ⟨name⟩ = true := Path.isTopLevel_iff.2 hdot
  cases s with
  | map m fields =>
    have hstep : (map m fields).step? name = some node := h
    rw [resolve_eq_ok, resolve?_eq, Path.root_of_isTopLevel htop, hstep,
      Path.segments_of_isTopLevel htop]
    rfl
  | _ => cases h

end Schema

/-! ## Segments of a list -/

/-- A text without the brackets around it. -/
def unbracket : List Char → List Char
  | '[' :: cs => if cs.getLast? = some ']' then cs.dropLast else '[' :: cs
  | cs => cs

/-- The position that a segment spells: `2` or `[2]`. Any other text is no position, so it leads
nowhere in a value, although it leads on in a schema. -/
def Path.position? (segment : String) : Option Nat :=
  let digits := unbracket segment.toList
  if digits ≠ [] ∧ digits.all Decimal.isDigit then some (Decimal.natOfDigits digits) else none

theorem unbracket_bracketed (cs : List Char) : unbracket ('[' :: cs ++ [']']) = cs := by
  rw [List.cons_append, unbracket, List.getLast?_concat, if_pos rfl, List.dropLast_concat]

theorem unbracket_of_head_ne {c : Char} (hc : c ≠ '[') (cs : List Char) :
    unbracket (c :: cs) = c :: cs := by
  rw [unbracket]
  intro cs' he
  exact hc (List.cons.inj he).1

/-- **Both spellings.** A position is spelled by its digits, with and without brackets. -/
theorem Path.position?_spelled (i : Nat) :
    position? (toString i) = some i ∧ position? ("[" ++ toString i ++ "]") = some i := by
  have hdigits : ∀ c ∈ Decimal.digitsOfNat i, Decimal.isDigit c = true :=
    fun c hc => Decimal.isDigit_of_mem_digitsOfNat hc
  have hne : Decimal.digitsOfNat i ≠ [] := Nat.toDigits_ne_nil
  have hlist : (toString i).toList = Decimal.digitsOfNat i := by
    rw [Nat.toString_eq_repr, Nat.toList_repr, Decimal.digitsOfNat]
  have hbare : unbracket (Decimal.digitsOfNat i) = Decimal.digitsOfNat i := by
    obtain ⟨c, cs, hcs⟩ := List.exists_cons_of_ne_nil hne
    rw [hcs]
    refine unbracket_of_head_ne ?_ cs
    -- a digit is no bracket
    rintro rfl
    have hdigit := hdigits '[' (by rw [hcs]; exact List.mem_cons_self)
    exact absurd hdigit (by decide)
  have hvalue : (if Decimal.digitsOfNat i ≠ [] ∧ (Decimal.digitsOfNat i).all Decimal.isDigit
      then some (Decimal.natOfDigits (Decimal.digitsOfNat i)) else none) = some i := by
    rw [if_pos ⟨hne, List.all_eq_true.2 hdigits⟩, Decimal.natOfDigits_digitsOfNat]
  constructor
  · rw [position?, hlist, hbare]
    exact hvalue
  · have hbracketed : ("[" ++ toString i ++ "]").toList =
        '[' :: Decimal.digitsOfNat i ++ [']'] := by
      rw [String.toList_append, String.toList_append, hlist]
      rfl
    rw [position?, hbracketed, unbracket_bracketed]
    exact hvalue

/-! ## Descents -/

/-- What is one segment below a value: an entry of a map, an item of a list. -/
def Value.step? (v : Value) (segment : String) : Option Value :=
  match v with
  | .map entries => Entries.get? segment entries
  | .list items => (Path.position? segment).bind fun i => items[i]?
  | _ => none

/-- What some segments lead to in a value. -/
def Value.descend? (v : Value) (segments : List String) : Option Value :=
  segments.foldlM step? v

/-- What a path leads to in a value. A path that leads into a schema may still lead to nothing
here. -/
def Value.at? (v : Value) (p : Path) : Option Value := v.descend? p.segments

/-- What is one segment below a descriptor. -/
def Descriptor.step? (d : Descriptor) (segment : String) : Option Descriptor :=
  match d with
  | .map entries => Entries.get? segment entries
  | .list items => (Path.position? segment).bind fun i => items[i]?
  | _ => none

/-- What some segments lead to in a descriptor. -/
def Descriptor.descend? (d : Descriptor) (segments : List String) : Option Descriptor :=
  segments.foldlM step? d

/-- What a path leads to in a descriptor. -/
def Descriptor.at? (d : Descriptor) (p : Path) : Option Descriptor := d.descend? p.segments

/-- Nothing is below null. -/
theorem Value.isNull_of_step? {v w : Value} {segment : String} (h : v.step? segment = some w) :
    v.isNull = false := by
  cases v with
  | null => cases h
  | _ => rfl

theorem Value.isNull_of_at? {v w : Value} {p : Path} (h : v.at? p = some w) :
    v.isNull = false := by
  rw [at?, descend?] at h
  -- a path has at least one segment
  cases hsegments : p.segments with
  | nil => exact absurd hsegments p.segments_ne_nil
  | cons segment segments =>
    rw [hsegments, List.foldlM_cons] at h
    obtain ⟨v', hv', -⟩ := Option.bind_eq_some_iff.1 h
    exact isNull_of_step? hv'

/-! ## Places do not matter -/

section Places

variable {α : Type} {encode : String → Value → Except Error α}

/-- Items that are encoded the same everywhere are so as a list. -/
theorem encodeItems_anywhere {items : List Value}
    (hitems : ∀ v ∈ items, ∀ path place a, encode path v = .ok a → encode place v = .ok a)
    {path : String} {index : Nat} {encoded : List α}
    (h : encodeItems encode path index items = .ok encoded) (place : String) (start : Nat) :
    encodeItems encode place start items = .ok encoded := by
  induction items generalizing index encoded start with
  | nil => exact h
  | cons v items ih =>
    obtain ⟨first, hfirst, h⟩ := bind_eq_ok.1 h
    obtain ⟨rest, hrest, he⟩ := bind_eq_ok.1 h
    cases he
    have hfirst' := hitems v List.mem_cons_self _ (placeAt place start) first hfirst
    have hrest' := ih (fun w hw => hitems w (List.mem_cons_of_mem _ hw)) hrest (start + 1)
    exact bind_eq_ok.2 ⟨first, hfirst', bind_eq_ok.2 ⟨rest, hrest', rfl⟩⟩

/-- The item at a position is encoded at that position. -/
theorem getElem?_of_encodeItems {path : String} {index : Nat} {items : List Value}
    {encoded : List α} (h : encodeItems encode path index items = .ok encoded) {i : Nat}
    {v : Value} (hv : items[i]? = some v) :
    ∃ a, encoded[i]? = some a ∧ encode (placeAt path (index + i)) v = .ok a := by
  induction items generalizing index encoded i with
  | nil => cases hv
  | cons w items ih =>
    obtain ⟨first, hfirst, h⟩ := bind_eq_ok.1 h
    obtain ⟨rest, hrest, he⟩ := bind_eq_ok.1 h
    cases he
    cases i with
    | zero =>
      cases hv
      exact ⟨first, rfl, hfirst⟩
    | succ i =>
      obtain ⟨a, ha, hencode⟩ := ih hrest hv
      rw [Nat.add_assoc, Nat.add_comm 1 i] at hencode
      exact ⟨a, ha, hencode⟩

end Places

theorem encodeNumber_anywhere {path text : String} {x : Float}
    (h : encodeNumber path x = .ok text) (place : String) : encodeNumber place x = .ok text :=
  encodeNumber_eq_ok.2 (encodeNumber_eq_ok.1 h)

theorem encodeDate_anywhere {path text : String} {v : Value} (h : encodeDate path v = .ok text)
    (place : String) : encodeDate place v = .ok text := by
  unfold encodeDate at h ⊢
  split at h
  · exact h
  · split at h
    · exact h
    · cases h
  · cases h

theorem ScalarKind.encode_anywhere {kind : ScalarKind} {path : String} {v : Value}
    {d : Descriptor} (h : kind.encode path v = .ok d) (place : String) :
    kind.encode place v = .ok d := by
  unfold ScalarKind.encode at h ⊢
  split at h
  · exact h
  · obtain ⟨text, htext, rfl⟩ := map_eq_ok.1 h
    exact map_eq_ok.2 ⟨text, encodeNumber_anywhere htext place, rfl⟩
  · exact h
  · obtain ⟨text, htext, rfl⟩ := map_eq_ok.1 h
    exact map_eq_ok.2 ⟨text, encodeDate_anywhere htext place, rfl⟩
  · exact h
  · cases h

theorem SetKind.encode_anywhere {kind : SetKind} {path : String} {v : Value} {d : Descriptor}
    (h : kind.encode path v = .ok d) (place : String) : kind.encode place v = .ok d := by
  cases v with
  | list items =>
    -- a member of any kind that has the right shape does not look at its place
    cases kind with
    | string =>
      obtain ⟨members, hmembers, rfl⟩ := map_eq_ok.1 h
      refine map_eq_ok.2 ⟨members, encodeItems_anywhere ?_ hmembers place 0, rfl⟩
      intro v _ path place a ha
      cases v with
      | string s => exact ha
      | _ => cases ha
    | number =>
      obtain ⟨members, hmembers, rfl⟩ := map_eq_ok.1 h
      refine map_eq_ok.2 ⟨members, encodeItems_anywhere ?_ hmembers place 0, rfl⟩
      intro v _ path place a ha
      cases v with
      | number x => exact encodeNumber_anywhere ha place
      | _ => cases ha
    | binary =>
      obtain ⟨members, hmembers, rfl⟩ := map_eq_ok.1 h
      refine map_eq_ok.2 ⟨members, encodeItems_anywhere ?_ hmembers place 0, rfl⟩
      intro v _ path place a ha
      cases v with
      | binary bytes => exact ha
      | _ => cases ha
  | _ => cases h

namespace Schema

/-- Fields that are encoded the same everywhere are so as a map. -/
theorem encodeFields_anywhere {fields : List (String × Schema)}
    (hfields : ∀ f ∈ fields, ∀ path place v d, f.2.encodeAt path v = .ok d →
      f.2.encodeAt place v = .ok d)
    {path : String} {entries : List (String × Value)} {encoded : List (String × Descriptor)}
    (h : encodeFields fields path entries = .ok encoded) (place : String) :
    encodeFields fields place entries = .ok encoded := by
  induction fields generalizing encoded with
  | nil => exact h
  | cons f fields ih =>
    obtain ⟨name, field⟩ := f
    have hrest := @ih fun f hf => hfields f (List.mem_cons_of_mem _ hf)
    rw [encodeFields_cons_eq_ok]
    rcases encodeFields_cons_eq_ok.1 h with ⟨v, d, rest, hv, hd, hr, rfl⟩ | ⟨hnone, hoptional, hr⟩
    · have hfirst := hfields (name, field) List.mem_cons_self _ (placeOf place name) v d hd
      exact .inl ⟨v, d, rest, hv, hfirst, hrest hr, rfl⟩
    · exact .inr ⟨hnone, hoptional, hrest hr⟩

/-- Null is encoded the same everywhere, so only other values have to be looked at. -/
theorem encodeAt_anywhere_of_not_isNull {s : Schema} {path place : String} {v : Value}
    {d : Descriptor} (h : s.encodeAt path v = .ok d)
    (hother : v.isNull = false → s.encodeAt place v = .ok d) : s.encodeAt place v = .ok d := by
  cases v with
  | null =>
    rw [encodeAt_null] at h ⊢
    split at h
    · next hnullable =>
      rw [if_pos hnullable]
      exact h
    · cases h
  | _ => exact hother rfl

/-- **Places do not matter.** A value that is encoded at one place is encoded as the same at any
other. Only successes are spoken of; an error tells its place, and so depends on it. -/
theorem encodeAt_anywhere {s : Schema} {path place : String} {v : Value} {d : Descriptor}
    (h : s.encodeAt path v = .ok d) : s.encodeAt place v = .ok d := by
  induction s using Schema.induction generalizing path place v d with
  | scalar m kind =>
    refine encodeAt_anywhere_of_not_isNull h fun hv => ?_
    rw [encodeAt_scalar hv] at h ⊢
    exact kind.encode_anywhere h place
  | set m kind =>
    refine encodeAt_anywhere_of_not_isNull h fun hv => ?_
    rw [encodeAt_set hv] at h ⊢
    exact kind.encode_anywhere h place
  | map m fields ih =>
    refine encodeAt_anywhere_of_not_isNull h fun hv => ?_
    obtain ⟨entries, encoded, rfl, hfields, rfl⟩ := (encodeAt_map_eq_ok hv).1 h
    have hagain := encodeFields_anywhere (fun f hf _ _ _ _ hd => ih f hf hd) hfields place
    exact (encodeAt_map_eq_ok hv).2 ⟨entries, encoded, rfl, hagain, rfl⟩
  | list m element ih =>
    refine encodeAt_anywhere_of_not_isNull h fun hv => ?_
    obtain ⟨items, encoded, rfl, hitems, rfl⟩ := (encodeAt_list_eq_ok hv).1 h
    have hall : ∀ w ∈ items, ∀ path place d, element.encodeAt path w = .ok d →
        element.encodeAt place w = .ok d := fun _ _ _ _ _ hd => ih hd
    have hagain := encodeItems_anywhere hall hitems place 0
    exact (encodeAt_list_eq_ok hv).2 ⟨items, encoded, rfl, hagain, rfl⟩
  | partitionKey m inner ih =>
    refine encodeAt_anywhere_of_not_isNull h fun hv => ?_
    rw [encodeAt_partitionKey hv] at h ⊢
    exact ih h
  | sortKey m inner ih =>
    refine encodeAt_anywhere_of_not_isNull h fun hv => ?_
    rw [encodeAt_sortKey hv] at h ⊢
    exact ih h

/-- A part that was encoded inside a value is encoded as the same for itself. -/
theorem encode_of_encodeAt {s : Schema} {path : String} {v : Value} {d : Descriptor}
    (h : s.encodeAt path v = .ok d) : s.encode v = .ok d := encodeAt_anywhere h

/-! ## One segment and many -/

/-- **One step.** Where a segment leads into the schema and into the value, it leads into the
encoded value as well, and there to the encoding of what it leads to in the value. The place of
the encoding inside is left open, because it is different from that of a value encoded by itself. -/
theorem exists_step?_of_encodeAt {s node : Schema} {place segment : String} {v w : Value}
    {d : Descriptor} (h : s.encodeAt place v = .ok d) (hnode : s.step? segment = some node)
    (hw : v.step? segment = some w) :
    ∃ d' place', d.step? segment = some d' ∧ node.encodeAt place' w = .ok d' := by
  have hv : v.isNull = false := Value.isNull_of_step? hw
  cases s with
  | map m fields =>
    obtain ⟨entries, encoded, rfl, hfields, rfl⟩ := (encodeAt_map_eq_ok hv).1 h
    obtain ⟨d', hd', hencode⟩ := get?_of_encodeFields_of_get? hfields hnode hw
    exact ⟨d', _, hd', hencode⟩
  | list m element =>
    obtain ⟨items, encoded, rfl, hitems, rfl⟩ := (encodeAt_list_eq_ok hv).1 h
    cases hnode
    -- any segment leads into the schema, but into the items only one that is a position
    obtain ⟨i, hi, hw⟩ := Option.bind_eq_some_iff.1 hw
    obtain ⟨d', hd', hencode⟩ := getElem?_of_encodeItems hitems hw
    refine ⟨d', _, ?_, hencode⟩
    rw [Descriptor.step?, hi, Option.bind_some]
    exact hd'
  | _ => cases hnode

/-- **The whole way down.** Following segments and encoding can be exchanged. The induction is on
the segments with the node and the value left general, and the step is the lemma before it. -/
theorem exists_descend?_of_encodeAt {segments : List String} {s node : Schema} {place : String}
    {v w : Value} {d : Descriptor} (h : s.encodeAt place v = .ok d)
    (hnode : s.descend? segments = some node) (hw : v.descend? segments = some w) :
    ∃ stored, d.descend? segments = some stored ∧ node.encode w = .ok stored := by
  induction segments generalizing s place v d with
  | nil =>
    cases hnode
    cases hw
    exact ⟨d, rfl, encode_of_encodeAt h⟩
  | cons segment segments ih =>
    rw [descend?, List.foldlM_cons] at hnode
    rw [Value.descend?, List.foldlM_cons] at hw
    obtain ⟨s', hs', hnode⟩ := Option.bind_eq_some_iff.1 hnode
    obtain ⟨v', hv', hw⟩ := Option.bind_eq_some_iff.1 hw
    obtain ⟨d', place', hd', hencode⟩ := exists_step?_of_encodeAt h hs' hv'
    obtain ⟨stored, hstored, hw⟩ := ih hencode hnode hw
    refine ⟨stored, ?_, hw⟩
    rw [Descriptor.descend?, List.foldlM_cons]
    exact Option.bind_eq_some_iff.2 ⟨d', hd', hstored⟩

/-- Following a path and encoding can be exchanged. -/
theorem exists_at?_of_encode {s node : Schema} {v w : Value} {d : Descriptor} {p : Path}
    (h : s.encode v = .ok d) (hnode : s.resolve p = .ok node) (hw : v.at? p = some w) :
    ∃ stored, d.at? p = some stored ∧ node.encode w = .ok stored := by
  exact exists_descend?_of_encodeAt h (resolve_eq_ok.1 hnode) hw

end Schema

end ItemStore
