import ItemStore.Proofs.Decimal.Double

/-
The double nearest to a decimal.

Core finds it in two ways. Small decimals are a product or a quotient of two doubles, one of
them from a table of powers of ten; all others are computed from whole numbers and rounded
once. Both come down to one rounding of the exact value, so which way is taken cannot be told
from the result: it depends on the value of the decimal only. That is why the shortest
decimal of a double may be written with zeros instead of an exponent.
-/
set_option autoImplicit false

namespace ItemStore.Decimal

open Float.Model (Format totalExponent UnpackedFloat)
open Float.Model.UnpackedFloat

/-! ## Powers of ten that are doubles -/

/-- The powers of ten in core's table. All of them are exact, which is checked for each. -/
def powerOfTen (k : Fin 23) : Float := Float.exactlyRepresentablePowersOfTen[k]

/-- The entries of the table are normal numbers and have the values they should have. -/
theorem parts_powerOfTen : ∀ k : Fin 23,
    (powerOfTen k).isFinite = true ∧ isNegative (powerOfTen k) = false ∧
      (mantissa (powerOfTen k)).log2 = 52 ∧
      mantissa (powerOfTen k) * 2 ^ (binaryExponent (powerOfTen k)).toNat =
        10 ^ k.val * 2 ^ (-binaryExponent (powerOfTen k)).toNat := by
  decide +kernel

/-- An entry of the table, unpacked. -/
theorem unpack_powerOfTen (k : Fin 23) : ∃ t p ht,
    (powerOfTen k).toModel.unpack = .finite .positive t p ht ∧ t.log2 = 52 ∧
      binaryValue t p = 10 ^ k.val := by
  obtain ⟨hfinite, hsign, hlog, hvalue⟩ := parts_powerOfTen k
  have hpos : mantissa (powerOfTen k) ≠ 0 := by
    intro hzero
    rw [hzero] at hlog
    cases hlog
  have hunpack := unpack_of_isFinite hfinite
  rw [dif_neg hpos, signOf, hsign] at hunpack
  refine ⟨_, _, _, hunpack, hlog, ?_⟩
  generalize mantissa (powerOfTen k) = t, binaryExponent (powerOfTen k) = p at hvalue
  rw [binaryValue]
  -- the table is checked in whole numbers, so the sign of the exponent decides which side has
  -- the power of two
  rcases Int.le_total 0 p with hp | hp
  · obtain ⟨n, rfl⟩ := Int.eq_ofNat_of_zero_le hp
    rw [zpow_natCast]
    have hn : (-(n : Int)).toNat = 0 := by omega
    rw [hn, Int.toNat_natCast, Nat.pow_zero, Nat.mul_one] at hvalue
    exact_mod_cast hvalue
  · obtain ⟨n, hn⟩ := Int.eq_ofNat_of_zero_le (Int.neg_nonneg.2 hp)
    have hp' : p = -(n : Int) := by omega
    subst hp'
    have hzero : (-(n : Int)).toNat = 0 := by omega
    rw [hzero, Int.neg_neg, Int.toNat_natCast, Nat.pow_zero, Nat.mul_one] at hvalue
    rw [zpow_neg, zpow_natCast, hvalue]
    push_cast
    field_simp

/-! ## Whole numbers -/

/-- What a whole number is rounded to. It is written finely enough for any rounding. -/
def roundedNat (n : Nat) : UnpackedFloat :=
  roundWithAccuracy .binary64 .positive (n * 2 ^ 53) (-53) .exact

theorem binaryValue_mul_two_pow_53 (n : Nat) : binaryValue (n * 2 ^ 53) (-53) = n := by
  have h : binaryValue (n * 2 ^ 53) (-53) = binaryValue n 0 := binaryValue_mul_two_pow n 53 0
  rw [h, binaryValue_zero]

/-- A whole number is written finely enough with 53 more digits. -/
theorem roundWithAccuracy_eq_roundedNat {m n : Nat} {e : Int} (hm : 0 < m) (hn : 0 < n)
    (h : binaryValue m e = n) (he : e ≤ target m e) :
    roundWithAccuracy .binary64 .positive m e .exact = roundedNat n := by
  have hpos : 0 < n * 2 ^ 53 := by positivity
  -- so many digits are enough, because a double has 53
  have hlog : 53 ≤ (n * 2 ^ 53).log2 :=
    (Nat.le_log2 (by omega)).2 (Nat.le_mul_of_pos_left _ hn)
  refine roundWithAccuracy_congr .positive hm hpos ?_ he ?_
  · rw [h, binaryValue_mul_two_pow_53]
  · rw [target_eq, totalExponent]
    omega

/-- A whole number of at most 53 bits as a double. -/
theorem unpack_toFloat {n : Nat} (hn : 0 < n) (hlt : n < 2 ^ 53) : ∃ m e hm,
    n.toUInt64.toFloat.toModel.unpack = .finite .positive m e hm ∧ m.log2 = 52 ∧
      binaryValue m e = n := by
  obtain ⟨m, e, hm, hofNat, htarget, he, hlog, hvalue⟩ := ofNat_eq hn hlt
  refine ⟨m, e, hm, ?_, hlog, hvalue⟩
  have hword : n.toUInt64.toNat = n := Nat.mod_eq_of_lt (hlt.trans (by decide))
  have hfloat : n.toUInt64.toFloat = double .positive m e hm := by
    rw [UInt64.toFloat, Float.Model.ofUInt64, UnpackedFloat.ofUInt64, hword, hofNat, double]
  rw [hfloat, unpack_double .positive hm htarget (by omega)]

/-- **Multiples of powers of ten.** The double nearest to one is the rounded number, however it is
found. It bounds the exponent only as far as the ways that core may take need it. -/
theorem nearest_natCast {d : Nat} (hd : 0 < d) {k : Nat} (hk : k ≤ 2048) :
    nearest d k = .ofModel (.pack (roundedNat (d * 10 ^ k))) := by
  have hpos : 0 < d * 10 ^ k := by positivity
  have hsign : decide ((k : Int) < 0) = false := decide_eq_false (by omega)
  rw [nearest, hsign, Int.natAbs_natCast, Float.ofScientific]
  by_cases hsmall : d < 2 ^ 53 ∧ k ≤ 22
  · -- a product of two doubles, both with all their digits
    obtain ⟨m, e, hm, hunpack, hlog, hvalue⟩ := unpack_toFloat hd hsmall.1
    obtain ⟨t, p, ht, htable, htlog, htvalue⟩ := unpack_powerOfTen ⟨k, by omega⟩
    rw [dif_pos hsmall]
    have hproduct : roundWithAccuracy .binary64 .positive (m * t) (e + p) .exact =
        roundedNat (d * 10 ^ k) := by
      have hmt : 0 < m * t := Nat.mul_pos hm ht
      refine roundWithAccuracy_eq_roundedNat hmt hpos ?_ ?_
      · rw [binaryValue_mul, hvalue, htvalue]
        push_cast
        rfl
      · -- two factors of 53 digits have a product of 105 at least, which is fine enough
        have hm52 : 2 ^ 52 ≤ m := hlog ▸ Nat.log2_self_le (Nat.ne_of_gt hm)
        have ht52 : 2 ^ 52 ≤ t := htlog ▸ Nat.log2_self_le (Nat.ne_of_gt ht)
        have hmt104 : 2 ^ 104 ≤ m * t := by
          rw [(by norm_num : 2 ^ 104 = 2 ^ 52 * 2 ^ 52)]
          exact Nat.mul_le_mul hm52 ht52
        have hlog104 : 104 ≤ (m * t).log2 := (Nat.le_log2 (Nat.ne_of_gt hmt)).2 hmt104
        rw [target_eq, totalExponent]
        omega
    have hmul : (d.toUInt64.toFloat * powerOfTen ⟨k, by omega⟩ : Float) =
        .ofModel (.pack (UnpackedFloat.mul .binary64 d.toUInt64.toFloat.toModel.unpack
          (powerOfTen ⟨k, by omega⟩).toModel.unpack)) := rfl
    rw [hunpack, htable] at hmul
    rw [← hproduct]
    exact hmul
  · -- whole numbers, the first of them with 53 more digits
    rw [dif_neg hsmall]
    have hscientific : UnpackedFloat.ofScientific .binary64 d (Int.ofNat k) =
        UnpackedFloat.mul .binary64
          (.finite .positive (d <<< 53) (-53) (by rw [Nat.shiftLeft_eq]; positivity))
          (.finite .positive (10 ^ k) 0 (by positivity)) := by
      rw [UnpackedFloat.ofScientific, dif_neg (Nat.ne_of_gt hd), if_neg ?_, if_neg ?_, if_pos ?_]
      · rfl
      · exact Int.natCast_nonneg k
      · change ¬ (k : Int) < -(2048 + d.log2)
        omega
      · change ¬ (k : Int) > 2048
        omega
    have hmul : UnpackedFloat.ofScientific .binary64 d (Int.ofNat k) = roundedNat (d * 10 ^ k) := by
      have hshift : d * 10 ^ k * 2 ^ 53 = d <<< 53 * 10 ^ k := by
        rw [Nat.shiftLeft_eq, Nat.mul_right_comm]
      rw [hscientific, roundedNat, hshift]
      rfl
    rw [← hmul]
    rfl

/-- Beyond that there are only numbers that are too large. -/
theorem isFinite_nearest_of_lt {d : Nat} (hd : 0 < d) {k : Nat} (hk : 2048 < k) :
    (nearest d k).isFinite = false := by
  have hsign : decide ((k : Int) < 0) = false := decide_eq_false (by omega)
  have hscientific : UnpackedFloat.ofScientific .binary64 d (Int.ofNat k) =
      .infinity .positive := by
    rw [UnpackedFloat.ofScientific, dif_neg (Nat.ne_of_gt hd), if_pos ?_]
    change (k : Int) > 2048
    omega
  rw [nearest, hsign, Int.natAbs_natCast, Float.ofScientific, dif_neg (by omega)]
  change (Float.ofModel (.pack (UnpackedFloat.ofScientific .binary64 d (Int.ofNat k)))).isFinite = _
  rw [hscientific]
  decide +kernel

/-- Zero is zero on every grid. -/
theorem nearest_zero (k : Nat) : nearest 0 k = .ofModel (.pack (.zero .positive)) := by
  -- the fast way multiplies by an entry of the table, so zero takes each of them once
  have htable : ∀ k : Fin 23, nearest 0 k.val = .ofModel (.pack (.zero .positive)) := by
    decide +kernel
  by_cases hk : k ≤ 22
  · exact htable ⟨k, by omega⟩
  · have hsign : decide ((k : Int) < 0) = false := decide_eq_false (by omega)
    rw [nearest, hsign, Int.natAbs_natCast, Float.ofScientific, dif_neg (by omega)]
    rfl

/-- **Zeros for an exponent.** A multiple of a power of ten may be written out, as long as it is
not too large for a double. This covers numbers that are written with their zeros and without an
exponent. -/
theorem nearest_mul_ten_pow {d k : Nat} (h : (nearest d k).isFinite = true) :
    nearest (d * 10 ^ k) 0 = nearest d k := by
  rcases Nat.eq_zero_or_pos d with rfl | hd
  · rw [Nat.zero_mul, nearest_zero]
    exact nearest_zero 0
  · -- beyond that the number would not be finite
    have hk : k ≤ 2048 := by
      by_contra hlt
      rw [isFinite_nearest_of_lt hd (by omega)] at h
      cases h
    have hpos : 0 < d * 10 ^ k := by positivity
    have hwritten := nearest_natCast hpos (Nat.zero_le 2048)
    rw [Nat.pow_zero, Nat.mul_one] at hwritten
    rw [nearest_natCast hd hk]
    exact hwritten

/-! ## Fractions -/

/-- The double nearest to a fraction is a quotient of two doubles or of two whole numbers. -/
theorem exists_nearest_eq_div {d a : Nat} (hd : 0 < d) (ha : 0 < a) (hle : a ≤ 2048) :
    ∃ m₁ e₁ hm₁ m₂ e₂ hm₂, nearest d (-a) =
        .ofModel (.pack (UnpackedFloat.div .binary64 (.finite .positive m₁ e₁ hm₁)
          (.finite .positive m₂ e₂ hm₂))) ∧
      binaryValue m₁ e₁ = d ∧ binaryValue m₂ e₂ = 10 ^ a ∧ (d < 2 ^ 53 ∨ e₁ = e₂) := by
  have hsign : decide (-(a : Int) < 0) = true := decide_eq_true (by omega)
  rw [nearest, hsign, Int.natAbs_neg, Int.natAbs_natCast, Float.ofScientific]
  by_cases hsmall : d < 2 ^ 53 ∧ a ≤ 22
  · -- two doubles
    obtain ⟨m₁, e₁, hm₁, hunpack, -, hvalue⟩ := unpack_toFloat hd hsmall.1
    obtain ⟨t, p, ht, htable, -, htvalue⟩ := unpack_powerOfTen ⟨a, by omega⟩
    rw [dif_pos hsmall]
    have hdiv : (d.toUInt64.toFloat / powerOfTen ⟨a, by omega⟩ : Float) =
        .ofModel (.pack (UnpackedFloat.div .binary64 d.toUInt64.toFloat.toModel.unpack
          (powerOfTen ⟨a, by omega⟩).toModel.unpack)) := rfl
    rw [hunpack, htable] at hdiv
    exact ⟨m₁, e₁, hm₁, t, p, ht, hdiv, hvalue, htvalue, .inl hsmall.1⟩
  · -- two whole numbers
    rw [dif_neg hsmall]
    have hten : 0 < 10 ^ a := by positivity
    have hscientific : UnpackedFloat.ofScientific .binary64 d (Int.negOfNat a) =
        UnpackedFloat.div .binary64 (.finite .positive d 0 hd)
          (.finite .positive (10 ^ a) 0 hten) := by
      have hneg : Int.negOfNat a = -(a : Int) := Int.negOfNat_eq
      have hpower : (-Int.negOfNat a).toNat = a := by omega
      rw [UnpackedFloat.ofScientific, dif_neg (Nat.ne_of_gt hd), if_neg ?_, if_neg ?_, if_neg ?_]
      · simp only [hpower]
      · omega
      · change ¬ Int.negOfNat a < -(2048 + d.log2)
        omega
      · change ¬ Int.negOfNat a > 2048
        omega
    have hslow : Float.ofModel (.pack (UnpackedFloat.ofScientific .binary64 d (Int.negOfNat a))) =
        .ofModel (.pack (UnpackedFloat.div .binary64 (.finite .positive d 0 hd)
          (.finite .positive (10 ^ a) 0 hten))) := by
      rw [hscientific]
    have hpower : binaryValue (10 ^ a) 0 = 10 ^ a := by
      rw [binaryValue_zero]
      push_cast
      rfl
    exact ⟨d, 0, hd, 10 ^ a, 0, hten, hslow, binaryValue_zero d, hpower, .inr rfl⟩

/-- **Places that are zeros.** A whole number with zeros behind the point names what it names
without them. It is what allows the compact notation to put `.0` behind a whole number. -/
theorem nearest_places {n a : Nat} (hn : 0 < n) (ha : 0 < a) (hle : a ≤ 2048) :
    nearest (n * 10 ^ a) (-a) = nearest n 0 := by
  have hpos : 0 < n * 10 ^ a := by positivity
  obtain ⟨m₁, e₁, hm₁, m₂, e₂, hm₂, hnearest, hvalue₁, hvalue₂, hexponents⟩ :=
    exists_nearest_eq_div hpos ha hle
  have hquotient : binaryValue m₁ e₁ = binaryValue n 0 * binaryValue m₂ e₂ := by
    rw [hvalue₁, hvalue₂, binaryValue_zero]
    push_cast
    rfl
  -- the number is small, or it is divided without any exponents
  have he : min (e₁ - e₂) (target n 0) ≤ 0 := by
    rcases hexponents with hsmall | rfl
    · have hlt : n < 2 ^ 53 := (Nat.le_mul_of_pos_right n (by positivity)).trans_lt hsmall
      have hlog : n.log2 < 53 := (Nat.log2_lt (by omega)).2 hlt
      rw [target_eq, totalExponent]
      omega
    · omega
  obtain ⟨j, hj, hdiv⟩ := div_eq_round .positive .positive hm₁ hm₂ hquotient he
  have hwhole : binaryValue (n * 2 ^ j) (0 - j) = n := by
    rw [binaryValue_mul_two_pow, binaryValue_zero]
  have htarget : target (n * 2 ^ j) (0 - j) = target n 0 :=
    target_congr (by positivity) hn (binaryValue_mul_two_pow n j 0)
  have hrounded := roundWithAccuracy_eq_roundedNat (by positivity) hn hwhole (htarget ▸ hj)
  have hnat := nearest_natCast hn (Nat.zero_le 2048)
  rw [Nat.pow_zero, Nat.mul_one] at hnat
  rw [hnearest, hdiv]
  exact (congrArg (fun r => Float.ofModel (.pack r)) hrounded).trans hnat.symm

/-! ## The exact decimal -/

section Exact

variable {m : Nat} (hm : 0 < m) {q : Int} (htarget : target m q = q)
include htarget

/-- A fraction that is a double. -/
theorem nearest_neg_natCast {d a : Nat} (hd : 0 < d) (ha : 0 < a) (hle : a ≤ 2048)
    (h : (d : ℚ) = binaryValue m q * 10 ^ a) : nearest d (-a) = double .positive m q hm := by
  obtain ⟨m₁, e₁, hm₁, m₂, e₂, hm₂, hnearest, hvalue₁, hvalue₂, -⟩ :=
    exists_nearest_eq_div hd ha hle
  have hquotient : binaryValue m₁ e₁ = binaryValue m q * binaryValue m₂ e₂ := by
    rw [hvalue₁, hvalue₂, h]
  rw [hnearest, div_eq _ _ hm₁ hm₂ hm hquotient htarget]
  rfl

/-- **The exact decimal of a double names it.** It is what is written where the search finds
nothing shorter. -/
theorem nearest_exact :
    nearest (exact m q).digits (exact m q).exponent = double .positive m q hm := by
  have hlow : -1074 ≤ q := ((target_eq_iff hm).1 htarget).2.1
  by_cases hq : q < 0
  · obtain ⟨a, ha⟩ : ∃ a : Nat, q = -(a : Int) := ⟨q.natAbs, by omega⟩
    have hexact : exact m q = ⟨m * 5 ^ a, -(a : Int)⟩ := by
      rw [exact, if_pos hq, ha, Int.natAbs_neg, Int.natAbs_natCast]
      rfl
    rw [hexact]
    -- a power of two in the denominator is one of five in the numerator, over a power of ten
    have hvalue : ((m * 5 ^ a : Nat) : ℚ) = binaryValue m q * 10 ^ a := by
      rw [binaryValue, ha, zpow_neg, zpow_natCast, (by norm_num : (10 : ℚ) = 2 * 5), mul_pow]
      push_cast
      field_simp
    exact nearest_neg_natCast hm htarget (by positivity) (by omega) (by omega) hvalue
  · obtain ⟨a, ha⟩ : ∃ a : Nat, q = a := ⟨q.natAbs, by omega⟩
    have hexact : exact m q = ⟨m * 2 ^ a, 0⟩ := by
      rw [exact, if_neg hq, ha, Int.natAbs_natCast]
      rfl
    have hpos : 0 < m * 2 ^ a := by positivity
    have hwhole := nearest_natCast hpos (Nat.zero_le 2048)
    have hvalue : binaryValue (m * 2 ^ a * 2 ^ 53) (-53) = binaryValue m q := by
      rw [binaryValue_mul_two_pow_53, binaryValue, ha, zpow_natCast]
      push_cast
      rfl
    have hrounded : roundedNat (m * 2 ^ a) = .finite .positive m q hm :=
      roundWithAccuracy_eq .positive hm (by positivity) hvalue htarget (by omega)
    rw [Nat.pow_zero, Nat.mul_one, hrounded] at hwhole
    rw [hexact]
    exact hwhole

end Exact

end ItemStore.Decimal
