import ItemStore.Descriptor.Wire
import Mathlib.Data.String.Basic

/-
The order of the wire texts of strings.

What is kept in the order of wire texts is not in the order of the strings these were made of. A
quote follows the string in its wire text, so a string that goes on with a blank comes before the
one that ends there; and what is escaped begins with a backslash, wherever it belongs. Both have to
do with characters up to the quote alone. Without them every character is written as itself or as a
text that begins with it, and the orders agree.

This matters because `MemoryRunner` keeps its items under the texts that `storage_key` makes.
-/
set_option autoImplicit false

namespace ItemStore

namespace Json

/-- A character behind the quote is written as a text that begins with it. -/
theorem exists_escapeChar_eq_cons {c : Char} (h : '"' < c) : ∃ tail, escapeChar c = c :: tail := by
  have hcode : 0x22 < c.toNat := h
  have hother : ∀ d : Char, d.toNat ≤ 0x22 → c ≠ d := by
    rintro d hd rfl
    omega
  by_cases hslash : c = '\\'
  · exact ⟨['\\'], by rw [hslash, escapeChar, if_neg (by decide), if_pos rfl]⟩
  · refine ⟨[], ?_⟩
    rw [escapeChar, if_neg (hother _ (by decide)), if_neg hslash, if_neg (hother _ (by decide)),
      if_neg (hother _ (by decide)), if_neg (hother _ (by decide)), if_neg (hother _ (by decide)),
      if_neg (hother _ (by decide)), if_neg (by omega)]

/-- Where all characters are behind the quote, what is written is in the order of what it is
written for. -/
theorem escaped_lt_escaped {cs ds : List Char} (hcs : ∀ c ∈ cs, '"' < c) (hds : ∀ c ∈ ds, '"' < c)
    (h : cs < ds) (rest : List Char) :
    cs.flatMap escapeChar ++ '"' :: rest < ds.flatMap escapeChar ++ '"' :: rest := by
  induction cs generalizing ds with
  | nil =>
    cases ds with
    | nil => exact absurd h (List.lt_irrefl _)
    | cons d ds =>
      -- the quote ends the shorter one
      obtain ⟨tail, htail⟩ := exists_escapeChar_eq_cons (hds d List.mem_cons_self)
      rw [List.flatMap_cons, htail]
      exact List.cons_lt_cons_iff.2 (.inl (hds d List.mem_cons_self))
  | cons c cs ih =>
    cases ds with
    | nil => exact absurd h (List.not_lt_nil _)
    | cons d ds =>
      rcases List.cons_lt_cons_iff.1 h with hlt | ⟨rfl, hlt⟩
      · obtain ⟨tail, htail⟩ := exists_escapeChar_eq_cons (hcs c List.mem_cons_self)
        obtain ⟨tail', htail'⟩ := exists_escapeChar_eq_cons (hds d List.mem_cons_self)
        rw [List.flatMap_cons, List.flatMap_cons, htail, htail']
        exact List.cons_lt_cons_iff.2 (.inl hlt)
      · rw [List.flatMap_cons, List.flatMap_cons, List.append_assoc, List.append_assoc]
        exact List.append_left_lt (ih (fun x hx => hcs x (List.mem_cons_of_mem c hx))
          (fun x hx => hds x (List.mem_cons_of_mem c hx)) hlt)

end Json

namespace Descriptor

theorem toList_wire_string (s : String) :
    (string s).wire.toList = "\x7b\"S\":\"".toList ++
      (s.toList.flatMap Json.escapeChar ++ '"' :: ['\x7d']) := by
  simp [wire, toDocument, Json.Document.render, Json.Document.text, Json.Document.membersText,
    Json.Document.record, Json.stringText, Json.escapeChar]

/-- **Strings whose characters are all behind the quote** have wire texts in the order of the
strings. The characters up to the quote are the blank, the exclamation mark, the quote itself and
the control characters; each of them can turn an order round. -/
theorem wire_lt_wire {s s' : String} (hs : ∀ c ∈ s.toList, '"' < c)
    (hs' : ∀ c ∈ s'.toList, '"' < c) (h : s < s') : (string s).wire < (string s').wire := by
  rw [String.lt_iff_toList_lt] at h ⊢
  rw [toList_wire_string, toList_wire_string]
  exact List.append_left_lt (Json.escaped_lt_escaped hs hs' h _)

end Descriptor

end ItemStore
