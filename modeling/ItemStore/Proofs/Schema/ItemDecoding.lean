import ItemStore.Proofs.Schema.Decoding
import ItemStore.Proofs.Schema.Places

/-
Two ways to decode an item.

An item is what a map has in it. It can be decoded with the map around it, as any other descriptor
is, and then key marks are looked through on the way down. Or it can be decoded as it is, and then
the node is asked for its fields at once, and a marked node has none to show. The first way is the
second one with all marks taken off (`decode_map_eq_ok_iff`), so the two part where the marks are
around a map, and nowhere else. There an item can still be encoded, but it is decoded only in the
first way.

The two ways are `decode_with_mode` on a map and `decode_item`.
-/
set_option autoImplicit false

namespace ItemStore.Schema

open Entries

/-- Whether the node is a map inside key marks. Marks around anything else make no difference,
since an item is never decoded by such a node. -/
def isMarkedMap (s : Schema) : Bool := s.isKey && s.unmarked.fields?.isSome

section Marks

variable {s : Schema}

theorem unmarked_of_not_isKey (h : s.isKey = false) : s.unmarked = s := by
  cases s with
  | partitionKey m inner | sortKey m inner => cases h
  | _ => rfl

/-- A marked node has no fields of its own. -/
theorem fields?_of_isKey (h : s.isKey = true) : s.fields? = none := by
  cases s with
  | partitionKey m inner | sortKey m inner => rfl
  | _ => cases h

/-- Nothing is decoded as an item by a node without fields. -/
theorem decodeItem_of_fields?_eq_none (h : s.fields? = none) (mode : DecodeMode) (item : Item) :
    s.decodeItem mode item = .error (.shapeMismatch "" s.text Tag.map.text) := by
  rw [decodeItem, h]

end Marks

/-- **With the map around it.** An item is decoded in this way as it is decoded by itself by the
node inside all marks. It holds for every node: where there is no map inside, neither side decodes
anything. -/
theorem decode_map_eq_ok_iff {s : Schema} {mode : DecodeMode} {item : Item} {v : Value} :
    s.decode mode (.map item) = .ok v ↔ s.unmarked.decodeItem mode item = .ok v := by
  have hmarks : s.decode mode (.map item) = s.unmarked.decode mode (.map item) :=
    decodeAt_unmarked rfl
  rw [hmarks]
  rcases s.unmarked_cases with
    ⟨m, kind, hs⟩ | ⟨m, kind, hs⟩ | ⟨m, fields, hs⟩ | ⟨m, element, hs⟩
  · -- no scalar, set or list is stored as a map
    rw [hs, decodeItem_of_fields?_eq_none rfl, decode, decodeAt_scalar rfl]
    cases kind <;> simp [ScalarKind.decode]
  · rw [hs, decodeItem_of_fields?_eq_none rfl, decode, decodeAt_set rfl]
    cases kind <;> simp [SetKind.decode]
  · rw [hs, decodeItem_map]
  · rw [hs, decodeItem_of_fields?_eq_none rfl, decode, decodeAt_list_eq_ok rfl]
    simp

/-! ## Where the two ways part -/

theorem decodeFields_nil (mode : DecodeMode) (fields : List (String × Schema)) (path : String) :
    decodeFields mode fields path [] = .ok [] := by
  induction fields with
  | nil => rfl
  | cons f fields ih =>
    obtain ⟨name, field⟩ := f
    rw [decodeFields]
    exact ih

/-- The empty item is one of every map. -/
theorem decodeItem_nil {s : Schema} (h : s.fields?.isSome = true) (mode : DecodeMode) :
    s.decodeItem mode [] = .ok (.map []) := by
  obtain ⟨fields, hfields⟩ := Option.isSome_iff_exists.1 h
  have hnames : mode.checkNames fields "" [] = .ok () := by
    cases mode <;> rfl
  rw [decodeItem, hfields]
  dsimp only
  rw [hnames, decodeFields_nil]
  rfl

/-- By a map inside marks no item is decoded as it is. -/
theorem decodeItem_of_isMarkedMap {s : Schema} (h : s.isMarkedMap = true) (mode : DecodeMode)
    (item : Item) : s.decodeItem mode item = .error (.shapeMismatch "" s.text Tag.map.text) := by
  rw [isMarkedMap, Bool.and_eq_true] at h
  exact decodeItem_of_fields?_eq_none (fields?_of_isKey h.1) mode item

/-- By every other node items are decoded alike in the two ways. -/
theorem decodeItem_eq_ok_iff_of_not_isMarkedMap {s : Schema} (h : s.isMarkedMap = false)
    {mode : DecodeMode} {item : Item} {v : Value} :
    s.decodeItem mode item = .ok v ↔ s.decode mode (.map item) = .ok v := by
  rw [decode_map_eq_ok_iff]
  cases hkey : s.isKey with
  | false => rw [unmarked_of_not_isKey hkey]
  | true =>
    -- what is inside the marks is no map, so nothing is decoded in either way
    have hnone : s.unmarked.fields? = none := by
      rwa [isMarkedMap, hkey, Bool.true_and, Option.isSome_eq_false_iff,
        Option.isNone_iff_eq_none] at h
    rw [decodeItem_of_fields?_eq_none (fields?_of_isKey hkey),
      decodeItem_of_fields?_eq_none hnone]
    simp

/-- **The two ways agree except on marked maps.** A node decodes all items alike in the two ways,
in both modes, exactly if it is no map inside key marks; such a map decodes no item as it is. So
an item that was encoded from a value with legible dates, by any node, always comes back with its
map around it, and it comes back as it is exactly if the node is no map inside key marks. The
first part is an equivalence, so it names all nodes on which the two differ; the second part says
what happens at these. The third one is about items that were encoded, and only there are legible
dates asked for, because no other item would come back in either way. -/
theorem decodeItem_agrees_iff (s : Schema) :
    ((∀ mode item v, s.decodeItem mode item = .ok v ↔ s.decode mode (.map item) = .ok v) ↔
      s.isMarkedMap = false) ∧
    (s.isMarkedMap = true → ∀ mode item,
      s.decodeItem mode item = .error (.shapeMismatch "" s.text Tag.map.text)) ∧
    ∀ v item, s.validate = .ok s → (∀ t ∈ s.dates v, 0 ≤ t.year ∧ t.year ≤ 9999) →
      s.encodeItem v = .ok item → ∀ mode,
        s.decode mode (.map item) = .ok (s.norm v) ∧
          ∀ w, s.decodeItem mode item = .ok w ↔ s.isMarkedMap = false ∧ w = s.norm v := by
  refine ⟨⟨?_, ?_⟩, decodeItem_of_isMarkedMap, ?_⟩
  · intro halike
    rw [Bool.eq_false_iff]
    intro hmarked
    -- the empty item is decoded in one way only
    obtain ⟨-, hmap⟩ := Bool.and_eq_true_iff.1 hmarked
    have hempty := (halike .strict [] (.map [])).2
      (decode_map_eq_ok_iff.2 (decodeItem_nil hmap .strict))
    rw [decodeItem_of_isMarkedMap hmarked] at hempty
    cases hempty
  · intro hmarked mode item v
    exact decodeItem_eq_ok_iff_of_not_isMarkedMap hmarked
  · intro v item hschema hyears hencode mode
    have hnames := repeatedName?_eq_none_of_validate hschema
    have hback := decode_map_of_encodeItem hnames hyears hencode mode
    refine ⟨hback, fun w => ⟨?_, ?_⟩⟩
    · intro hw
      cases hmarked : s.isMarkedMap with
      | true =>
        rw [decodeItem_of_isMarkedMap hmarked] at hw
        cases hw
      | false =>
        rw [decodeItem_eq_ok_iff_of_not_isMarkedMap hmarked, hback] at hw
        exact ⟨rfl, (Except.ok.inj hw).symm⟩
    · rintro ⟨hmarked, rfl⟩
      exact (decodeItem_eq_ok_iff_of_not_isMarkedMap hmarked).2 hback

/-- The readings of a gauge, marked as a key twice over. -/
def markedGauge : Schema := .partitionKey .none (.sortKey .none gauge)

/-- The marks do not keep a reading from being encoded, but without the map around it it comes back
only where they are not there. -/
theorem leapReading_in_two_ways : ∃ item, gauge.encodeItem leapReading = .ok item ∧
    markedGauge.encodeItem leapReading = .ok item ∧
    gauge.decodeItem .strict item = .ok (gauge.norm leapReading) ∧
    markedGauge.decode .strict (.map item) = .ok (markedGauge.norm leapReading) ∧
    ∀ w, markedGauge.decodeItem .strict item ≠ .ok w := by
  have hrun : ((gauge.encodeItem leapReading).toOption.map fun _ => ()) = some () := by
    decide +kernel
  have hyears : ((gauge.dates leapReading).all fun t => decide (0 ≤ t.year ∧ t.year ≤ 9999)) =
      true := by
    decide +kernel
  have hyears' : ∀ t ∈ gauge.dates leapReading, 0 ≤ t.year ∧ t.year ≤ 9999 :=
    fun t ht => of_decide_eq_true (List.all_eq_true.1 hyears t ht)
  obtain ⟨item, hitem, -⟩ := exists_ok_of_toOption_map hrun
  have hmarked : markedGauge.encodeItem leapReading = .ok item := by
    rw [encodeItem_eq_ok_iff] at hitem ⊢
    exact hitem
  have hplain := ((decodeItem_agrees_iff gauge).2.2 leapReading item rfl hyears' hitem
    .strict).2
  obtain ⟨hback, hitself⟩ :=
    (decodeItem_agrees_iff markedGauge).2.2 leapReading item rfl hyears' hmarked .strict
  refine ⟨item, hitem, hmarked, (hplain _).2 ⟨rfl, rfl⟩, hback, ?_⟩
  intro w hw
  exact absurd ((hitself w).1 hw).1 (by decide)

/-- A map with a name, marked as a partition key. It encodes an item and decodes it with the map
around it, but not as it is. -/
theorem markedName_decodes_in_one_way :
    let s : Schema := .partitionKey .none (.map .none [("name", .ofKind .string)])
    s.encodeItem (.map [("name", .string "Ada")]) = .ok [("name", .string "Ada")] ∧
      s.decode .strict (.map [("name", .string "Ada")]) = .ok (.map [("name", .string "Ada")]) ∧
      ∀ v, s.decodeItem .strict [("name", .string "Ada")] ≠ .ok v := by
  refine ⟨rfl, rfl, ?_⟩
  intro v hv
  cases hv

end ItemStore.Schema
