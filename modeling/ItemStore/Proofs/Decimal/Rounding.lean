import Mathlib

/-
Rounding does not lose what a double can hold.

Core computes with doubles as a mantissa times a power of two: it takes the exact result of
a multiplication or a division and rounds it to 53 bits. Rounding never looks at more than
the value of the exact result, provided that it is written finely enough; how it is written
does not matter. So an operation whose exact result is a double has that double for its
result, however the operands are written. These facts are all that reading a decimal needs,
and they hold of zeros of the subnormal numbers as of the others.
-/
set_option autoImplicit false

namespace ItemStore.Decimal

open Float.Model (Format totalExponent UnpackedFloat)
open Float.Model.UnpackedFloat

/-! ## The value of a mantissa and an exponent -/

/-- The number that is written as a mantissa and an exponent of two. Rational numbers have all of
them, so values can be compared without a common exponent. -/
def binaryValue (m : Nat) (e : Int) : ℚ := m * 2 ^ e

/-- The exponent a double has whose first digit stands where that of `m * 2 ^ e` does. Anything
that is written with an exponent up to it loses no digit that counts. -/
def target (m : Nat) (e : Int) : Int := Format.binary64.targetExponent (totalExponent m e)

theorem target_eq (m : Nat) (e : Int) : target m e = max (totalExponent m e - 53) (-1074) := rfl

theorem le_binaryValue {m : Nat} (hm : 0 < m) (e : Int) :
    (2 : ℚ) ^ (totalExponent m e - 1) ≤ binaryValue m e := by
  have hlog : (2 : ℚ) ^ m.log2 ≤ m := by exact_mod_cast Nat.log2_self_le (by omega)
  have hexponent : totalExponent m e - 1 = (m.log2 : Int) + e := by
    simp only [totalExponent]
    omega
  rw [hexponent, zpow_add₀ (by norm_num), zpow_natCast, binaryValue]
  exact mul_le_mul_of_nonneg_right hlog (by positivity)

theorem binaryValue_lt (m : Nat) (e : Int) : binaryValue m e < 2 ^ totalExponent m e := by
  have hlog : (m : ℚ) < 2 ^ (m.log2 + 1) := by exact_mod_cast Nat.lt_log2_self
  have hexponent : totalExponent m e = ((m.log2 + 1 : Nat) : Int) + e := by
    simp only [totalExponent]
    omega
  rw [hexponent, zpow_add₀ (by norm_num), zpow_natCast, binaryValue]
  exact mul_lt_mul_of_pos_right hlog (by positivity)

/-- The first digit stands where the value says. -/
theorem totalExponent_le_of_lt {m : Nat} (hm : 0 < m) {e n : Int}
    (h : binaryValue m e < 2 ^ n) : totalExponent m e ≤ n := by
  -- the value is at least the power below it, and powers compare as their exponents
  have hpow : (2 : ℚ) ^ (totalExponent m e - 1) < 2 ^ n := (le_binaryValue hm e).trans_lt h
  have hlt := (zpow_lt_zpow_iff_right₀ (by norm_num : (1 : ℚ) < 2)).1 hpow
  omega

theorem totalExponent_congr {m m' : Nat} (hm : 0 < m) (hm' : 0 < m') {e e' : Int}
    (h : binaryValue m e = binaryValue m' e') : totalExponent m e = totalExponent m' e' := by
  have hle := totalExponent_le_of_lt hm (h ▸ binaryValue_lt m' e')
  have hge := totalExponent_le_of_lt hm' (h ▸ binaryValue_lt m e)
  omega

theorem target_congr {m m' : Nat} (hm : 0 < m) (hm' : 0 < m') {e e' : Int}
    (h : binaryValue m e = binaryValue m' e') : target m e = target m' e' := by
  rw [target, target, totalExponent_congr hm hm' h]

theorem binaryValue_zero (n : Nat) : binaryValue n 0 = n := by
  rw [binaryValue, zpow_zero, mul_one]

theorem binaryValue_mul_two_pow (m j : Nat) (e : Int) :
    binaryValue (m * 2 ^ j) (e - j) = binaryValue m e := by
  rw [binaryValue, binaryValue, zpow_sub₀ (by norm_num), zpow_natCast]
  push_cast
  field_simp

/-- Of two ways to write a value, the one with the smaller exponent has the other's mantissa
with zeros behind it. -/
theorem mantissa_eq_of_value_eq {m m' : Nat} {e e' : Int} (he : e ≤ e')
    (h : binaryValue m e = binaryValue m' e') : m = m' * 2 ^ (e' - e).toNat := by
  -- write both with the smaller exponent and cancel the power
  have hj : e' - ((e' - e).toNat : Int) = e := by omega
  rw [← binaryValue_mul_two_pow m' (e' - e).toNat, hj, binaryValue, binaryValue] at h
  have hpow : (2 : ℚ) ^ e ≠ 0 := by positivity
  exact_mod_cast mul_right_cancel₀ hpow h

/-! ## Dropping zeros -/

/-- A mantissa that nothing was cut off from. Rounding begins with it. -/
def unrounded (m : Nat) : ExtendedMantissa := .ofMantissaAndAccuracy m .exact

theorem shiftRight_succ (em : ExtendedMantissa) (n : Nat) :
    em >>> (n + 1) = (em >>> n).shiftRightOne := rfl

theorem shiftRight_add (em : ExtendedMantissa) (j n : Nat) :
    em >>> (j + n) = (em >>> j) >>> n := by
  induction n with
  | zero => rfl
  | succ n ih => rw [← Nat.add_assoc, shiftRight_succ, ih, shiftRight_succ]

/-- Zeros can be shifted out. -/
theorem unrounded_shiftRight (m j : Nat) : unrounded (m * 2 ^ j) >>> j = unrounded m := by
  induction j generalizing m with
  | zero =>
    rw [Nat.pow_zero, Nat.mul_one]
    rfl
  | succ j ih =>
    have hpow : m * 2 ^ (j + 1) = (m * 2) * 2 ^ j := by ring
    -- the zeros before the last one are gone, and the last one leaves nothing behind
    rw [shiftRight_succ, hpow, ih]
    simp [unrounded, ExtendedMantissa.ofMantissaAndAccuracy, ExtendedMantissa.shiftRightOne]

theorem shiftToTargetExponent_mul_two_pow {m : Nat} (hm : 0 < m) {e : Int}
    (he : e ≤ target m e) (j : Nat) :
    shiftToTargetExponent .binary64 (m * 2 ^ j) (e - j) .exact =
      shiftToTargetExponent .binary64 m e .exact := by
  have hpos : 0 < m * 2 ^ j := by positivity
  have htarget : target (m * 2 ^ j) (e - j) = target m e :=
    target_congr hpos hm (binaryValue_mul_two_pow m j e)
  obtain ⟨n, hn⟩ : ∃ n : Nat, target m e = e + n := ⟨(target m e - e).toNat, by omega⟩
  have hfine : (e + n - (e - j)).toNat = j + n := by omega
  have hcoarse : (e + n - e).toNat = n := by omega
  simp only [shiftToTargetExponent, shiftToExponent]
  change (unrounded (m * 2 ^ j) >>> (target (m * 2 ^ j) (e - j) - (e - j)).toNat,
      e - j + (target (m * 2 ^ j) (e - j) - (e - j)).toNat) =
    (unrounded m >>> (target m e - e).toNat, e + (target m e - e).toNat)
  -- both stop at the same exponent; the finer one drops its `j` zeros on the way
  rw [htarget, hn, hfine, hcoarse, shiftRight_add, unrounded_shiftRight]
  congr 1
  push_cast
  omega

/-! ## Rounding -/

/-- **Only the value is rounded.** Two ways to write a value, both at least as fine as the double
that it is rounded to, are rounded to the same. The mantissas are related by a power of two, and
rounding shifts it away. -/
theorem roundWithAccuracy_congr (sign : Sign) {m m' : Nat} (hm : 0 < m) (hm' : 0 < m')
    {e e' : Int} (h : binaryValue m e = binaryValue m' e') (he : e ≤ target m e)
    (he' : e' ≤ target m' e') :
    roundWithAccuracy .binary64 sign m e .exact =
      roundWithAccuracy .binary64 sign m' e' .exact := by
  -- one of the two is the finer one
  wlog hle : e ≤ e' generalizing m m' e e'
  · exact (this hm' hm h.symm he' he (by omega)).symm
  have hj : e = e' - ((e' - e).toNat : Int) := by omega
  have hshift := shiftToTargetExponent_mul_two_pow hm' he' (e' - e).toNat
  rw [← mantissa_eq_of_value_eq hle h, ← hj] at hshift
  simp only [roundWithAccuracy, hshift]

/-- A double is rounded to itself. -/
theorem roundWithAccuracy_of_target (sign : Sign) {m : Nat} (hm : 0 < m) {e : Int}
    (he : target m e = e) :
    roundWithAccuracy .binary64 sign m e .exact = .finite sign m e hm := by
  -- nothing is shifted out, so there is nothing to round
  have hshift : shiftToTargetExponent .binary64 m e .exact = (unrounded m, e) := by
    have hzero : (target m e - e).toNat = 0 := by omega
    simp only [shiftToTargetExponent, shiftToExponent]
    change (unrounded m >>> (target m e - e).toNat, e + (target m e - e).toNat) = _
    rw [hzero, Int.ofNat_zero, Int.add_zero]
    rfl
  have hrounded : (unrounded m).roundedMantissa = m := rfl
  have hmantissa : (unrounded m).mantissa = m := rfl
  simp only [roundWithAccuracy, hshift, hrounded, hmantissa, dif_neg (Nat.ne_of_gt hm)]

/-- **Exact results are kept.** Whatever has the value of a double is rounded to it. A double is
one whose exponent is its own target, and this is how the hypothesis says so. -/
theorem roundWithAccuracy_eq (sign : Sign) {m m' : Nat} (hm : 0 < m) (hm' : 0 < m')
    {e e' : Int} (h : binaryValue m' e' = binaryValue m e) (he : target m e = e)
    (he' : e' ≤ e) :
    roundWithAccuracy .binary64 sign m' e' .exact = .finite sign m e hm := by
  have htarget : target m' e' = e := by rw [target_congr hm' hm h, he]
  rw [roundWithAccuracy_congr sign hm' hm h (by omega) (by omega),
    roundWithAccuracy_of_target sign hm he]

/-! ## Operations with an exact result -/

theorem binaryValue_mul (m m' : Nat) (e e' : Int) :
    binaryValue (m * m') (e + e') = binaryValue m e * binaryValue m' e' := by
  rw [binaryValue, binaryValue, binaryValue, zpow_add₀ (by norm_num)]
  push_cast
  ring

/-- **Exact quotients.** Division starts from a dividend that is so fine that the quotient has 53
digits. So if the quotient can be written with an exponent that is not below those of the
operands, or with 53 digits, the division comes out even, and what is rounded is the quotient. The
quotient is then rounded like any other value, by the two facts above. -/
theorem div_eq_round (sign sign' : Sign) {m₁ m₂ m : Nat} (hm₁ : 0 < m₁) (hm₂ : 0 < m₂)
    {e₁ e₂ e : Int} (h : binaryValue m₁ e₁ = binaryValue m e * binaryValue m₂ e₂)
    (he : min (e₁ - e₂) (target m e) ≤ e) :
    ∃ j : Nat, e - j ≤ target m e ∧
      UnpackedFloat.div .binary64 (.finite sign m₁ e₁ hm₁) (.finite sign' m₂ e₂ hm₂) =
        roundWithAccuracy .binary64 (sign / sign') (m * 2 ^ j) (e - j) .exact := by
  obtain ⟨fine, hfine⟩ : ∃ fine, fine = min (e₁ - e₂)
      (Format.binary64.targetExponent (totalExponent m₁ e₁ - totalExponent m₂ e₂)) := ⟨_, rfl⟩
  -- the first digit of the quotient stands no lower than those of the operands say
  have htarget : Format.binary64.targetExponent (totalExponent m₁ e₁ - totalExponent m₂ e₂) ≤
      target m e := by
    have hlt : binaryValue m₁ e₁ < 2 ^ (totalExponent m e + totalExponent m₂ e₂) := by
      rw [h, zpow_add₀ (by norm_num)]
      have hnonneg : 0 ≤ binaryValue m₂ e₂ := by
        rw [binaryValue]
        positivity
      exact mul_lt_mul'' (binaryValue_lt m e) (binaryValue_lt m₂ e₂)
        (by rw [binaryValue]; positivity) hnonneg
    have htotal := totalExponent_le_of_lt hm₁ hlt
    have hmax : Format.binary64.targetExponent (totalExponent m₁ e₁ - totalExponent m₂ e₂) =
        max (totalExponent m₁ e₁ - totalExponent m₂ e₂ - 53) (-1074) := rfl
    rw [target_eq]
    omega
  -- so division goes down at least as far as the exponent of the quotient
  have hle : fine ≤ e := by omega
  obtain ⟨s, hs⟩ : ∃ s : Nat, s = (e₁ - e₂ - fine).toNat := ⟨_, rfl⟩
  obtain ⟨j, hj⟩ : ∃ j : Nat, j = (e - fine).toNat := ⟨_, rfl⟩
  -- the dividend, shifted, is the divisor times the mantissa with zeros behind it
  have hdividend : m₁ * 2 ^ s = m * m₂ * 2 ^ j := by
    have hvalue : binaryValue (m₁ * 2 ^ s) (e₁ - s) = binaryValue (m * m₂) (e + e₂) := by
      rw [binaryValue_mul_two_pow, h, binaryValue_mul]
    have hexponents : (e + e₂ - (e₁ - s)).toNat = j := by omega
    rw [mantissa_eq_of_value_eq (by omega) hvalue, hexponents]
  have hproduct : m₁ <<< s = m * 2 ^ j * m₂ := by
    rw [Nat.shiftLeft_eq, hdividend]
    ring
  -- the division comes out even
  have hquotient : m₁ <<< s / m₂ = m * 2 ^ j := by
    rw [hproduct, Nat.mul_div_cancel _ hm₂]
  have hremainder : m₁ <<< s % m₂ = 0 := by
    rw [hproduct, Nat.mul_mod_left]
  have hcore : divCore .binary64 m₁ e₁ m₂ e₂ = (m * 2 ^ j, fine, .exact) := by
    simp only [divCore, ← hfine, ← hs, hquotient, hremainder, accuracyOfFraction, if_true]
  have hexponent : e - (j : Int) = fine := by omega
  refine ⟨j, by omega, ?_⟩
  rw [hexponent]
  simp only [UnpackedFloat.div, hcore]

/-- A quotient that is a double is found. -/
theorem div_eq (sign sign' : Sign) {m₁ m₂ m : Nat} (hm₁ : 0 < m₁) (hm₂ : 0 < m₂) (hm : 0 < m)
    {e₁ e₂ e : Int} (h : binaryValue m₁ e₁ = binaryValue m e * binaryValue m₂ e₂)
    (he : target m e = e) :
    UnpackedFloat.div .binary64 (.finite sign m₁ e₁ hm₁) (.finite sign' m₂ e₂ hm₂) =
      .finite (sign / sign') m e hm := by
  obtain ⟨j, -, hdiv⟩ := div_eq_round sign sign' hm₁ hm₂ h (by omega)
  rw [hdiv]
  exact roundWithAccuracy_eq _ hm (by positivity) (binaryValue_mul_two_pow m j e) he (by omega)

/-- A whole number of at most 53 bits is a double, and one with all its digits. -/
theorem ofNat_eq {n : Nat} (hn : 0 < n) (hlt : n < 2 ^ 53) :
    ∃ m e hm, UnpackedFloat.ofNat .binary64 n = .finite .positive m e hm ∧ target m e = e ∧
      e ≤ 0 ∧ m.log2 = 52 ∧ binaryValue m e = n := by
  have hlog : n.log2 < 53 := (Nat.log2_lt (by omega)).2 hlt
  have htarget : target n 0 = (n.log2 : Int) - 52 := by
    rw [target_eq, totalExponent]
    omega
  obtain ⟨s, hs⟩ : ∃ s : Nat, s = (0 - target n 0).toNat := ⟨_, rfl⟩
  have hpos : 0 < n * 2 ^ s := by positivity
  have hvalue : binaryValue (n * 2 ^ s) (0 - s) = binaryValue n 0 :=
    binaryValue_mul_two_pow n s 0
  have hsame : target (n * 2 ^ s) (0 - s) = 0 - s := by
    rw [target_congr hpos hn hvalue]
    omega
  -- as many zeros are put behind the number as are missing from 53 digits
  refine ⟨n * 2 ^ s, 0 - s, hpos, ?_, hsame, by omega, ?_, ?_⟩
  · have hgt : compare (n : Int) 0 = .gt := Int.compare_eq_gt.2 (by omega)
    have hdecrease : decreaseExponent n 0 (target n 0) = (n * 2 ^ s, 0 - (s : Int)) := by
      rw [decreaseExponent, ← hs, Nat.shiftLeft_eq]
    have hround : UnpackedFloat.round .binary64 .positive n 0 =
        .finite .positive (n * 2 ^ s) (0 - s) hpos := by
      rw [target] at hdecrease
      simp only [UnpackedFloat.round, hdecrease]
      exact roundWithAccuracy_of_target .positive hpos hsame
    simp only [UnpackedFloat.ofNat, UnpackedFloat.ofInt, UnpackedFloat.normalize, hgt,
      Int.toNat_natCast]
    exact hround
  · rw [target_eq, totalExponent] at hsame
    omega
  · rw [hvalue, binaryValue_zero]

end ItemStore.Decimal
