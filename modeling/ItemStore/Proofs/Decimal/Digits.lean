import ItemStore.Decimal.Digits
import Mathlib.Algebra.Group.Nat.Defs
import Mathlib.Data.List.Induction

/-
Digits that were written are read.

A number is written by core's `Nat.toDigits` and read by a fold, which is core's
`Nat.ofDigitChars`, so the value is settled there. What is left are zeros: they may be put
in front of a number freely, and behind it each of them multiplies by ten. A run of digits
is read to its end as long as what follows is not a digit.
-/
set_option autoImplicit false

namespace ItemStore.Decimal

/-! ## Which characters are written -/

theorem isDigit_eq (c : Char) : isDigit c = c.isDigit := by
  simp only [isDigit, Char.isDigit, Char.le_def, ge_iff_le]

theorem toNat_of_isDigit {c : Char} (h : isDigit c = true) : 48 ≤ c.toNat ∧ c.toNat ≤ 57 := by
  simp only [isDigit, Bool.and_eq_true, decide_eq_true_eq, Char.le_def,
    UInt32.le_iff_toNat_le] at h
  exact h

/-- What holds of the ten digits holds of every digit. -/
theorem forall_isDigit {P : Char → Prop} (h : ∀ k < 10, P (Char.ofNat (48 + k))) {c : Char}
    (hc : isDigit c = true) : P c := by
  obtain ⟨hlow, hhigh⟩ := toNat_of_isDigit hc
  have hp := h (c.toNat - 48) (by omega)
  rwa [Nat.add_sub_cancel' hlow, Char.ofNat_toNat] at hp

theorem isDigit_of_mem_digitsOfNat {c : Char} {n : Nat} (h : c ∈ digitsOfNat n) :
    isDigit c = true := by
  rw [isDigit_eq]
  exact Nat.isDigit_of_mem_toDigits (by omega) (by omega) h

theorem isDigit_of_mem_replicate {c : Char} {n : Nat} (h : c ∈ List.replicate n '0') :
    isDigit c = true := by
  rw [List.eq_of_mem_replicate h]
  rfl

/-- A number is written with at least one digit. -/
theorem exists_cons_digitsOfNat (n : Nat) :
    ∃ c cs, digitsOfNat n = c :: cs ∧ isDigit c = true := by
  obtain ⟨c, cs, hcs⟩ : ∃ c cs, digitsOfNat n = c :: cs :=
    List.exists_cons_of_ne_nil Nat.toDigits_ne_nil
  exact ⟨c, cs, hcs, isDigit_of_mem_digitsOfNat (hcs ▸ List.mem_cons_self)⟩

/-- Zeros behind a number are digits as well. -/
theorem isDigit_of_mem_append_replicate {c : Char} {n k : Nat}
    (h : c ∈ digitsOfNat n ++ List.replicate k '0') : isDigit c = true := by
  rcases List.mem_append.1 h with h | h
  · exact isDigit_of_mem_digitsOfNat h
  · exact isDigit_of_mem_replicate h

/-! ## What they are worth -/

theorem natOfDigits_eq (digits : List Char) : natOfDigits digits = Nat.ofDigitChars 10 digits 0 :=
  rfl

/-- **The digits of a number are worth the number.** The other direction needs that there is no
zero in front. -/
theorem natOfDigits_digitsOfNat (n : Nat) : natOfDigits (digitsOfNat n) = n :=
  Nat.ofDigitChars_ten_toDigits

/-- Zeros in front are worth nothing. -/
theorem natOfDigits_replicate_append (n : Nat) (digits : List Char) :
    natOfDigits (List.replicate n '0' ++ digits) = natOfDigits digits := by
  rw [natOfDigits_eq, Nat.ofDigitChars_append, Nat.ofDigitChars_replicate_zero, Nat.mul_zero]
  rfl

/-- Zeros behind are worth a power of ten. -/
theorem natOfDigits_append_replicate (digits : List Char) (n : Nat) :
    natOfDigits (digits ++ List.replicate n '0') = natOfDigits digits * 10 ^ n := by
  rw [natOfDigits_eq, Nat.ofDigitChars_append, Nat.ofDigitChars_replicate_zero, Nat.mul_comm]
  rfl

/-- The last digit is the one that is added last. -/
theorem natOfDigits_concat (digits : List Char) (c : Char) :
    natOfDigits (digits ++ [c]) = 10 * natOfDigits digits + digitValue c := by
  rw [natOfDigits, List.foldl_append]
  rfl

/-- A digit behind a number that is not zero is its last digit. -/
theorem digitsOfNat_mul_ten_add {n : Nat} (hn : n ≠ 0) {c : Char} (hc : isDigit c = true) :
    digitsOfNat (10 * n + digitValue c) = digitsOfNat n ++ [c] := by
  have hvalue : digitValue c < 10 ∧ (digitValue c).digitChar = c := by
    refine forall_isDigit (P := fun c => digitValue c < 10 ∧ (digitValue c).digitChar = c) ?_ hc
    decide
  rw [digitsOfNat, digitsOfNat,
    ← Nat.toDigits_append_toDigits (by omega) (Nat.pos_of_ne_zero hn) hvalue.1,
    Nat.toDigits_of_lt_base hvalue.1, hvalue.2]

/-! ## Where a run ends -/

/-- What does not begin with a digit adds nothing to a run. -/
theorem spanDigits_append_rest {rest : List Char} (hrest : ∀ c ∈ rest.head?, isDigit c = false)
    (cs : List Char) :
    spanDigits (cs ++ rest) = ((spanDigits cs).1, (spanDigits cs).2 ++ rest) := by
  induction cs with
  | nil =>
    cases rest with
    | nil => rfl
    | cons c rest =>
      have hspan : spanDigits (c :: rest) = ([], c :: rest) := by
        rw [spanDigits, if_neg (Bool.eq_false_iff.1 (hrest c rfl))]
      exact hspan
  | cons c cs ih =>
    rw [List.cons_append, spanDigits, spanDigits, ih]
    by_cases hc : isDigit c = true
    · rw [if_pos hc, if_pos hc]
    · rw [if_neg hc, if_neg hc]
      rfl

/-- A text of digits only is one run. -/
theorem spanDigits_eq_self {digits : List Char} (hdigits : ∀ c ∈ digits, isDigit c = true) :
    spanDigits digits = (digits, []) := by
  induction digits with
  | nil => rfl
  | cons d digits ih =>
    have hd : isDigit d = true := hdigits d (by simp)
    have htail := ih fun c hc => hdigits c (by simp [hc])
    rw [spanDigits, if_pos hd, htail]

/-- A run of digits ends where the digits do. -/
theorem spanDigits_append_eq {digits rest : List Char} (hdigits : ∀ c ∈ digits, isDigit c = true)
    (hrest : ∀ c ∈ rest.head?, isDigit c = false) :
    spanDigits (digits ++ rest) = (digits, rest) := by
  rw [spanDigits_append_rest hrest, spanDigits_eq_self hdigits, List.nil_append]

end ItemStore.Decimal
