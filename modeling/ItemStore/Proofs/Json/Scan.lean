import ItemStore.Json.Text
import ItemStore.Proofs.Json.Nesting

/-
Documents that were written are scanned.

What is written is one of the texts of the document, with no blanks in it and with as few escapes
as there can be. So the scanner finds the document in it, provided that the numbers read back from
their texts: a double need not.

That makes every fact about reading texts of the grammar a fact about what `serialize` writes.
-/
set_option autoImplicit false

namespace ItemStore.Json

/-! ## Strings -/

/-- The digits of a control are hexadecimal digits worth the control. -/
theorem spellsUnit_hex4 {n : Nat} (h : n < 0x10000) : SpellsUnit ('\\' :: 'u' :: hex4 n) n := by
  have hhex : ∀ k, IsHex (k % 16).digitChar (k % 16) :=
    fun k => ⟨Nat.mod_lt k (by decide), .inl rfl⟩
  have hunit := SpellsUnit.mk (hhex (n / 4096)) (hhex (n / 256)) (hhex (n / 16)) (hhex n)
  have hvalue : ((n / 4096 % 16 * 16 + n / 256 % 16) * 16 + n / 16 % 16) * 16 + n % 16 = n := by
    omega
  rw [hvalue] at hunit
  exact hunit

/-- **One character.** However a character is written, the text spells it. The character is
written as itself, by a short escape or by four digits, and each of these is a case of the
grammar. -/
theorem spellsChars_escapeChar (c : Char) {cs text : List Char} (h : SpellsChars cs text) :
    SpellsChars (c :: cs) (escapeChar c ++ text) := by
  unfold escapeChar
  split_ifs with hquote hslash hback htab hline hfeed hreturn hcontrol
  · exact .short (by rw [hquote]; decide) h
  · exact .short (by rw [hslash]; decide) h
  · exact .short (by rw [hback]; decide) h
  · exact .short (by rw [htab]; decide) h
  · exact .short (by rw [hline]; decide) h
  · exact .short (by rw [hfeed]; decide) h
  · exact .short (by rw [hreturn]; decide) h
  · exact .unit (spellsUnit_hex4 (Nat.lt_trans hcontrol (by decide))) h
  · exact .plain (Nat.not_lt.1 hcontrol) hquote hslash h

/-- **Strings.** What is written for a string spells it. Nothing is asked of the string. -/
theorem spellsString_stringText (s : String) : SpellsString s (stringText s) := by
  refine ⟨s.toList.flatMap escapeChar, ?_, rfl⟩
  induction s.toList with
  | nil => exact .nil
  | cons c cs ih =>
    rw [List.flatMap_cons]
    exact spellsChars_escapeChar c ih

/-! ## Documents that can be written -/

namespace Document

/-- Nothing of the document is cut off, and all its numbers read back. A document that is cut off
has no text of its own, and a double that is not read back has the text of another number. -/
inductive WellWritten : Document → Prop
  | null : WellWritten .null
  | bool (b : Bool) : WellWritten (.bool b)
  | number {n : Number} (h : n.ReadsBack) : WellWritten (.number n)
  | string (s : String) : WellWritten (.string s)
  | list {items : List Document} (h : ∀ d ∈ items, WellWritten d) : WellWritten (.list items)
  | record {members : List (String × Document)} (h : ∀ m ∈ members, WellWritten m.2) :
    WellWritten (.record members)

/-- An array of documents that can be written. -/
theorem WellWritten.list_map {α : Type} {write : α → Document} {members : List α}
    (h : ∀ a ∈ members, (write a).WellWritten) : WellWritten (.list (members.map write)) := by
  refine .list fun d hd => ?_
  obtain ⟨a, ha, rfl⟩ := List.mem_map.1 hd
  exact h a ha

/-- An object with a single member that can be written. -/
theorem WellWritten.single {payload : Document} (h : payload.WellWritten) (key : String) :
    WellWritten (.record [(key, payload)]) := by
  refine .record fun m hm => ?_
  rw [List.mem_singleton.1 hm]
  exact h

end Document

open Document

/-! ## What is written -/

/-- Something that stands in a text without blanks around it. Nothing is written with blanks. -/
def Padded.bare (text : List Char) : Padded where
  before := []
  text := text
  after := []
  blank_before := areBlank_nil
  blank_after := areBlank_nil

theorem Padded.chars_bare (text : List Char) : (bare text).chars = text := by
  rw [chars, bare, List.nil_append, List.append_nil]

theorem itemsText_eq (items : List Document) :
    itemsText items = [','].intercalate (items.map text) := by
  induction items with
  | nil => rfl
  | cons d items ih =>
    cases items with
    | nil => rw [itemsText, List.map_singleton, List.intercalate_singleton]
    | cons d' items =>
      have hcons : itemsText (d :: d' :: items) = d.text ++ ',' :: itemsText (d' :: items) := by
        rw [itemsText.eq_def]
      rw [hcons, ih]
      simp [List.intercalate_cons_cons]

/-- A member as it is written. Key and value have their usual texts. -/
def Member.written (m : String × Document) : Member :=
  ⟨m.1, .bare (stringText m.1), m.2, .bare m.2.text⟩

theorem membersText_eq (members : List (String × Document)) :
    membersText members = [','].intercalate ((members.map Member.written).map Member.chars) := by
  have hchars : ∀ m, (Member.written m).chars = stringText m.1 ++ ':' :: m.2.text := by
    intro m
    rw [Member.chars, Member.written, Padded.chars_bare, Padded.chars_bare]
  induction members with
  | nil => rfl
  | cons m members ih =>
    obtain ⟨key, d⟩ := m
    cases members with
    | nil =>
      rw [membersText, List.map_singleton, List.map_singleton, List.intercalate_singleton, hchars]
    | cons m' members =>
      have hcons : membersText ((key, d) :: m' :: members) =
          stringText key ++ ':' :: d.text ++ ',' :: membersText (m' :: members) := by
        rw [membersText.eq_def]
      rw [hcons, ih]
      simp [List.intercalate_cons_cons, hchars]

/-- **What is written for a document spells it.** The induction is on the document, and every case
is one rule of the grammar. -/
theorem Document.WellWritten.spells {d : Document} (h : d.WellWritten) : Spells d d.text := by
  induction h with
  | null => exact .null
  | bool b =>
    cases b with
    | false => exact .no
    | true => exact .yes
  | number hn => exact .number (Number.ofText?_eq_some_iff_spells.1 hn)
  | string s => exact .string (spellsString_stringText s)
  | @list items _ ih =>
    rw [text, itemsText_eq, List.cons_append]
    cases items with
    | nil => exact .emptyList areBlank_nil
    | cons d items =>
      have hspells := @Spells.list ((d :: items).map fun d => (d, Padded.bare d.text))
        (by simp) (List.forall_mem_map.2 ih)
      rw [List.map_map, List.map_map] at hspells
      simpa [Function.comp_def, Padded.chars_bare] using hspells
  | @record members _ ih =>
    rw [text, membersText_eq, List.cons_append]
    cases members with
    | nil => exact .emptyRecord areBlank_nil
    | cons m members =>
      have hspells := @Spells.record ((m :: members).map Member.written) (by simp)
        (List.forall_mem_map.2 fun m _ => spellsString_stringText m.1) (List.forall_mem_map.2 ih)
      rw [List.map_map] at hspells
      simpa [Function.comp_def, Member.written] using hspells

/-- **Values.** A document that can be written is scanned where its text begins, and the scanner
stops where it ends. It is the general fact about texts of the grammar, used for one of them. -/
theorem scan_text {d : Document} (h : d.WellWritten) {levels : Nat} (hdepth : d.depth ≤ levels)
    {rest : List Char} (hrest : Number.EndsNumber rest) :
    scan levels (d.text ++ rest) = (d, rest) := scan_spelled h.spells hdepth hrest

/-- The same for an object, whatever scans what is under its keys. -/
theorem scanObject_text {scan : String → List Char → Document × List Char}
    {members : List (String × Document)}
    (hscan : ∀ m ∈ members, ∀ rest, Number.EndsNumber rest →
      scan m.1 (m.2.text ++ rest) = (m.2, rest)) (rest : List Char) :
    scanObject scan (membersText members ++ '\x7d' :: rest) = (.record members, rest) := by
  rw [membersText_eq]
  cases members with
  | nil => rfl
  | cons m members =>
    have hfinds : ∀ m' ∈ (m :: members).map Member.written,
        Finds (scan m'.key) m'.value m'.valueText := by
      refine List.forall_mem_map.2 fun m' hm' rest hrest => ?_
      rw [Member.written, Padded.chars_bare]
      exact hscan m' hm' rest hrest
    have hkeys : ∀ m' ∈ (m :: members).map Member.written,
        SpellsString m'.key m'.keyText.text :=
      List.forall_mem_map.2 fun m' _ => spellsString_stringText m'.1
    refine (scanObject_spelled (by simp) hkeys hfinds rest).trans ?_
    rw [List.map_map]
    simp [Function.comp_def, Member.written]

/-- What is written is a text of the document. -/
theorem Document.WellWritten.isTextOf {d : Document} (h : d.WellWritten) :
    IsTextOf d d.render :=
  ⟨.bare d.text, by rw [render, String.toList_ofList, Padded.chars_bare], h.spells⟩

/-- The text of a document that is not nested too deeply is scanned to its end. -/
theorem scanText_render {d : Document} (h : d.WellWritten) (hdepth : d.depth ≤ maxLevels) :
    scanText d.render = (d, true) := scanText_of_isTextOf h.isTextOf hdepth

/-- A well-formed text is scanned to its end, and nothing is cut off. -/
theorem scanText_of_parse? {s : String} {d : Document} (h : parse? s = some d) :
    scanText s = (d, true) ∧ d.isWhole = true := by
  rw [parse?] at h
  cases hscan : scanText s with
  | mk d' ended =>
    rw [hscan] at h
    dsimp only at h
    by_cases hboth : (d'.isWhole && ended) = true
    · rw [if_pos hboth] at h
      cases h
      rw [Bool.and_eq_true] at hboth
      rw [hboth.2]
      exact ⟨rfl, hboth.1⟩
    · rw [if_neg hboth] at h
      cases h

/-- What is written is well-formed. -/
theorem parse?_render {d : Document} (h : d.WellWritten) (hdepth : d.depth ≤ maxLevels) :
    parse? d.render = some d := by
  rw [parse?_eq h.isTextOf, if_pos hdepth]

end ItemStore.Json
