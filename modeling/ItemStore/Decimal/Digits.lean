/-
Runs of decimal digits.

Numbers enter and leave as text in several notations, and all of them are made
of runs of digits. A run is the longest front of a text that consists of the
digits `0` to `9`; its value is read with the most significant digit first.
-/
set_option autoImplicit false

namespace ItemStore.Decimal

/-- One of the ten ASCII digits. -/
def isDigit (c : Char) : Bool := '0' ≤ c && c ≤ '9'

/-- The value of an ASCII digit. -/
def digitValue (c : Char) : Nat := c.toNat - 48

/-- The digits a text starts with, and the rest of it. -/
def spanDigits : List Char → List Char × List Char
  | [] => ([], [])
  | c :: cs =>
    if isDigit c then
      let (digits, rest) := spanDigits cs
      (c :: digits, rest)
    else ([], c :: cs)

/-- The number a run of digits stands for. Leading zeros are allowed here; where they
are not, the reader has refused them before. -/
def natOfDigits (digits : List Char) : Nat :=
  digits.foldl (fun n c => 10 * n + digitValue c) 0

/-- The digits of a number, without leading zeros. -/
def digitsOfNat (n : Nat) : List Char := Nat.toDigits 10 n

/-- Digits and rest together are the text. -/
theorem spanDigits_append (cs : List Char) : (spanDigits cs).1 ++ (spanDigits cs).2 = cs := by
  induction cs with
  | nil => rfl
  | cons c cs ih =>
    simp only [spanDigits]
    split
    · simp [ih]
    · rfl

/-- The first part holds digits only. -/
theorem isDigit_of_mem_spanDigits {c : Char} {cs : List Char} (h : c ∈ (spanDigits cs).1) :
    isDigit c := by
  induction cs with
  | nil => simp [spanDigits] at h
  | cons d cs ih =>
    simp only [spanDigits] at h
    split at h
    · next hd =>
      rcases List.mem_cons.1 h with rfl | h
      · exact hd
      · exact ih h
    · simp at h

end ItemStore.Decimal
