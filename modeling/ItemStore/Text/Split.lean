/-
Cutting texts at separators.

Paths are cut at dots, projection lists and removal lists at a comma and a
blank, and update clauses at short marks such as ` = `. Every cut is a
recursion on the characters, so nothing about a text needs more than induction
on a list, and the pieces put together again with their separators are the text.
-/
set_option autoImplicit false

namespace ItemStore.Text

/-- Puts a character in front of the first piece. -/
def consPiece (c : Char) : List (List Char) → List (List Char)
  | [] => [[c]]
  | piece :: pieces => (c :: piece) :: pieces

/-- The pieces between the occurrences of `sep`; a text without `sep` is its own single
piece, so there is always at least one. A path is cut at its dots this way (`segments`),
so two dots in a row have an empty segment between them. -/
def splitOn (sep : Char) : List Char → List (List Char)
  | [] => [[]]
  | c :: cs => if c = sep then [] :: splitOn sep cs else consPiece c (splitOn sep cs)

/-- The pieces between the occurrences of a comma followed by a blank. The store cuts
the names of a removal this way. -/
def splitList : List Char → List (List Char)
  | [] => [[]]
  | ',' :: ' ' :: cs => [] :: splitList cs
  | c :: cs => consPiece c (splitList cs)

/-- What follows `lead` in a text that starts with it. The lead has to match from the
first character on; blanks are not passed over. -/
def after? : (lead : List Char) → List Char → Option (List Char)
  | [], cs => some cs
  | _ :: _, [] => none
  | l :: lead, c :: cs => if l = c then after? lead cs else none

/-- The texts before and after the first occurrence of `mark`. Occurrences further on
are left in the second text, which is why a mark that is part of a token can cut too
early. -/
def cut? (mark : List Char) : List Char → Option (List Char × List Char)
  | [] => (after? mark []).map fun rest => ([], rest)
  | c :: cs =>
    match after? mark (c :: cs) with
    | some rest => some ([], rest)
    | none => (cut? mark cs).map fun (before, rest) => (c :: before, rest)

/-- The pieces with `sep` between them. -/
def joinWith (sep : List Char) : List (List Char) → List Char
  | [] => []
  | [piece] => piece
  | piece :: pieces => piece ++ sep ++ joinWith sep pieces

/-- What follows a lead is exactly what has to be put behind it to get the text. -/
theorem after?_eq_some_iff {lead cs rest : List Char} :
    after? lead cs = some rest ↔ cs = lead ++ rest := by
  induction lead generalizing cs with
  | nil => simp [after?]
  | cons l lead ih =>
    cases cs with
    | nil => simp [after?]
    | cons c cs =>
      simp only [after?]
      by_cases h : l = c
      · simp [h, ih]
      · simp [h, Ne.symm h]

theorem splitOn_ne_nil (sep : Char) (cs : List Char) : splitOn sep cs ≠ [] := by
  cases cs with
  | nil => simp [splitOn]
  | cons c cs =>
    simp only [splitOn]
    split
    · simp
    · cases splitOn sep cs <;> simp [consPiece]

/-- **Nothing is lost by a cut.** The pieces joined by the separator are the
text that was cut. -/
theorem joinWith_splitOn (sep : Char) (cs : List Char) :
    joinWith [sep] (splitOn sep cs) = cs := by
  induction cs with
  | nil => rfl
  | cons c cs ih =>
    obtain ⟨piece, pieces, h⟩ := List.exists_cons_of_ne_nil (splitOn_ne_nil sep cs)
    simp only [splitOn]
    split
    · next hc =>
      rw [h] at ih ⊢
      simp [joinWith, ih, hc]
    · rw [h] at ih ⊢
      rw [← ih]
      cases pieces <;> simp [consPiece, joinWith]

end ItemStore.Text
