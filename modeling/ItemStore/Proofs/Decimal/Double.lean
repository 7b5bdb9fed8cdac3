import ItemStore.Decimal.Shortest
import ItemStore.Proofs.Decimal.Rounding

/-
Doubles as bits, and as a sign, a mantissa and an exponent.

A double is kept as 64 bits and computed with unpacked. The two notations of this library
take it apart with quotients of the bits, core with a type of its own, and this module says
that they see the same: what a finite double is unpacked to is its sign, its `mantissa` and
its `binaryExponent`. So a finite double other than zero is `double` of three numbers.

That a double that was unpacked is packed into the same is known of all doubles. The other
way round there is something to prove, because not every mantissa and exponent are those of
a double; they are if rounding would leave them alone.
-/
set_option autoImplicit false

namespace ItemStore.Decimal

open Float.Model (Format totalExponent UnpackedFloat)
open Float.Model.UnpackedFloat

/-! ## The three fields -/

theorem toNat_unpackMantissa (b : BitVec 64) :
    (@unpackMantissa .binary64 b).toNat = b.toNat % 2 ^ 52 := by
  simp [unpackMantissa]

theorem toNat_unpackExponent (b : BitVec 64) :
    (@unpackExponent .binary64 b).toNat = b.toNat / 2 ^ 52 % 2 ^ 11 := by
  simp [unpackExponent, Nat.shiftRight_eq_div_pow]

theorem toNat_unpackSign (b : BitVec 64) :
    (@unpackSign .binary64 b).toNat = b.toNat / 2 ^ 63 := by
  have hlt : b.toNat < 2 ^ 64 := b.isLt
  simp [unpackSign, Nat.shiftRight_eq_div_pow]
  omega

/-! ## Unpacking -/

theorem finite_congr {s : Sign} {m m' : Nat} {e e' : Int} (hm : m = m') (he : e = e')
    (hpos : 0 < m) (hpos' : 0 < m') :
    UnpackedFloat.finite s m e hpos = .finite s m' e' hpos' := by
  subst hm he
  rfl

/-- The digit that a normal number does not store. -/
theorem toNat_one_append (b : BitVec 52) : (1#1 ++ b).toNat = 2 ^ 52 + b.toNat := by
  have hlt : b.toNat < 2 ^ 52 := b.isLt
  rw [BitVec.toNat_append, ← Nat.shiftLeft_add_eq_or_of_lt hlt]
  rfl

/-- What a finite double is unpacked to: zero, a subnormal number or a normal number. The exponent
decides which it is; for numbers that are not finite there is no case. -/
inductive Unpacked (b : BitVec 64) : UnpackedFloat → Prop
  | zero (hexponent : @unpackExponent .binary64 b = 0#_)
      (hmantissa : @unpackMantissa .binary64 b = 0#_) :
      Unpacked b (.zero (Sign.ofBitVec (@unpackSign .binary64 b)))
  | subnormal {m : Nat} {e : Int} (hm : 0 < m) (hexponent : @unpackExponent .binary64 b = 0#_)
      (hmantissa : (@unpackMantissa .binary64 b).toNat = m) (he : e = -1074) :
      Unpacked b (.finite (Sign.ofBitVec (@unpackSign .binary64 b)) m e hm)
  | normal {m : Nat} {e : Int} (hm : 0 < m) (hlow : @unpackExponent .binary64 b ≠ 0#_)
      (hhigh : @unpackExponent .binary64 b ≠ -1#_)
      (hmantissa : m = 2 ^ 52 + (@unpackMantissa .binary64 b).toNat)
      (he : e = (@unpackExponent .binary64 b).toNat - 1075) :
      Unpacked b (.finite (Sign.ofBitVec (@unpackSign .binary64 b)) m e hm)

theorem unpacked_of_isFinite {b : BitVec 64} (h : (unpack .binary64 b).isFinite = true) :
    Unpacked b (unpack .binary64 b) := by
  -- the largest exponent stands for infinities and for what is not a number
  have hhigh : @unpackExponent .binary64 b ≠ -1#_ := by
    intro hb
    simp only [unpack, if_pos hb] at h
    split at h <;> cases h
  simp only [unpack, if_neg hhigh]
  by_cases hlow : @unpackExponent .binary64 b = 0#_
  · rw [if_pos hlow]
    by_cases hmantissa : @unpackMantissa .binary64 b = 0#_
    · rw [dif_pos hmantissa]
      exact .zero hlow hmantissa
    · rw [dif_neg hmantissa]
      exact .subnormal _ hlow rfl (by rw [hlow]; rfl)
  · rw [if_neg hlow]
    exact .normal _ hlow hhigh (toNat_one_append _) rfl

/-- Which mantissas and exponents there are. -/
theorem Unpacked.bounds {b : BitVec 64} {u : UnpackedFloat} (h : Unpacked b u) {s : Sign}
    {m : Nat} {e : Int} {hm : 0 < m} (hu : u = .finite s m e hm) :
    m < 2 ^ 53 ∧ -1074 ≤ e ∧ e ≤ 971 ∧ (2 ^ 52 ≤ m ∨ e = -1074) := by
  have hM : (@unpackMantissa .binary64 b).toNat < 2 ^ 52 := (@unpackMantissa .binary64 b).isLt
  have hE : (@unpackExponent .binary64 b).toNat < 2 ^ 11 := (@unpackExponent .binary64 b).isLt
  cases h with
  | zero hexponent hmantissa => cases hu
  | subnormal hm hexponent hmantissa he =>
    cases hu
    omega
  | normal hm hlow hhigh hmantissa he =>
    cases hu
    -- a normal number has neither the smallest exponent nor the largest one
    have habove : (@unpackExponent .binary64 b).toNat ≠ 0 :=
      fun h => hlow (BitVec.eq_of_toNat_eq h)
    have hbelow : (@unpackExponent .binary64 b).toNat ≠ 2047 :=
      fun h => hhigh (BitVec.eq_of_toNat_eq h)
    omega

/-! ## Packing -/

theorem pack_subnormal (s : Sign) {m : Nat} (hm : 0 < m) (hlt : m < 2 ^ 52) :
    pack .binary64 (.finite s m (-1074) hm) =
      packComponents .binary64 s 0#_ (BitVec.ofNat _ m) := by
  have hlog : m.log2 < 52 := (Nat.log2_lt (by omega)).2 hlt
  -- fewer digits than a normal number has, which is how packing tells the two apart
  have hdigits : ¬ m.log2 + 1 = Format.binary64.mantissaBits := by
    change ¬ m.log2 + 1 = 53
    omega
  simp only [pack, if_neg hdigits]
  exact if_neg (by decide)

theorem pack_normal (s : Sign) {m : Nat} (hm : 0 < m) (hge : 2 ^ 52 ≤ m) (hlt : m < 2 ^ 53)
    {e : Int} (he : e ≤ 971) :
    pack .binary64 (.finite s m e hm) =
      packComponents .binary64 s (BitVec.ofNat _ (e + 1075).toNat) (BitVec.ofNat _ m) := by
  have hdigits : m.log2 + 1 = Format.binary64.mantissaBits := by
    have hlog : m.log2 = 52 := (Nat.log2_eq_iff (by omega)).2 ⟨hge, hlt⟩
    rw [hlog]
    rfl
  have hexponent : e + (Format.binary64.exponentBias : Int) +
      (Format.binary64.mantissaBitsWithoutImplicit : Int) = e + 1075 := by
    change e + 1023 + 52 = e + 1075
    omega
  have hfits : ¬ 2 ^ Format.binary64.exponentBits ≤ (e + 1075).toNat + 1 := by
    change ¬ 2048 ≤ (e + 1075).toNat + 1
    omega
  simp only [pack, hexponent, if_neg hfits, if_pos hdigits]

/-- A double is unpacked from what it was packed into. -/
theorem unpack_pack_finite (s : Sign) {m : Nat} (hm : 0 < m) {e : Int} (hlt : m < 2 ^ 53)
    (hlow : -1074 ≤ e) (hhigh : e ≤ 971) (hnormal : 2 ^ 52 ≤ m ∨ e = -1074) :
    unpack .binary64 (pack .binary64 (.finite s m e hm)) = .finite s m e hm := by
  have hs : Sign.ofBitVec s.toBitVec = s := Sign.ofBitVec_toBitVec s
  -- a subnormal number is stored with exponent zero, a normal one without its first digit
  by_cases hsub : m < 2 ^ 52
  · have he : e = -1074 := by omega
    subst he
    have hmantissa : (BitVec.ofNat 52 m).toNat = m := by
      rw [BitVec.toNat_ofNat]
      omega
    have hstored : BitVec.ofNat 52 m ≠ 0#_ := by
      intro h
      rw [h] at hmantissa
      change 0 = m at hmantissa
      omega
    rw [pack_subnormal s hm hsub]
    simp only [unpack, unpackSign_packComponents, unpackExponent_packComponents,
      unpackMantissa_packComponents, hs, if_true]
    rw [if_neg (by decide), dif_neg hstored]
    exact finite_congr hmantissa rfl _ _
  · have hmantissa : (1#1 ++ BitVec.ofNat 52 m).toNat = m := by
      rw [toNat_one_append, BitVec.toNat_ofNat]
      omega
    have hexponent : (BitVec.ofNat 11 (e + 1075).toNat).toNat = (e + 1075).toNat := by
      rw [BitVec.toNat_ofNat]
      omega
    have hbelow : BitVec.ofNat 11 (e + 1075).toNat ≠ -1#_ := by
      intro h
      rw [h] at hexponent
      change 2047 = _ at hexponent
      omega
    have habove : BitVec.ofNat 11 (e + 1075).toNat ≠ 0#_ := by
      intro h
      rw [h] at hexponent
      change 0 = _ at hexponent
      omega
    rw [pack_normal s hm (by omega) hlt hhigh]
    simp only [unpack, unpackSign_packComponents, unpackExponent_packComponents,
      unpackMantissa_packComponents, hs]
    rw [if_neg hbelow, if_neg habove]
    refine finite_congr hmantissa ?_ _ _
    rw [hexponent]
    change ((e + 1075).toNat : Int) - (1023 + 52) = e
    omega

/-! ## Doubles -/

/-- The sign of a double. Zero has one, too. -/
def signOf (x : Float) : Sign := if isNegative x then .negative else .positive

/-- The bits of a double. Doubles with the same bits are the same. -/
def bitsOf (x : Float) : BitVec 64 := x.toModel.toBits.toBitVec

theorem unpack_toModel (x : Float) : x.toModel.unpack = unpack .binary64 (bitsOf x) := rfl

theorem ofBitVec_unpackSign (x : Float) :
    Sign.ofBitVec (@unpackSign .binary64 (bitsOf x)) = signOf x := by
  have hlt : (bitsOf x).toNat < 2 ^ 64 := (bitsOf x).isLt
  -- both ask for the first bit
  have hneg : isNegative x = true ↔ (bitsOf x).toNat / 2 ^ 63 = 1 := by
    simp only [isNegative, beq_iff_eq, ← UInt64.toNat_inj]
    simp [Nat.shiftRight_eq_div_pow]
    exact Iff.rfl
  have hbit := toNat_unpackSign (bitsOf x)
  rw [Sign.ofBitVec, signOf]
  by_cases h : isNegative x = true
  · have hone : @unpackSign .binary64 (bitsOf x) = 1#1 := by
      apply BitVec.eq_of_toNat_eq
      rw [hbit, hneg.1 h]
      rfl
    rw [if_pos h, hone]
    rfl
  · have hzero : @unpackSign .binary64 (bitsOf x) = 0#1 := by
      apply BitVec.eq_of_toNat_eq
      rw [hneg] at h
      rw [hbit]
      change _ = 0
      omega
    rw [if_neg h, hzero]
    rfl

/-- A double that was unpacked is packed into the same. -/
theorem ofModel_pack_unpack (x : Float) : Float.ofModel (.pack x.toModel.unpack) = x :=
  Float.ofBits_toBits x

/-- The double with a sign, a mantissa and an exponent. Mantissa and exponent need not be in
lowest terms, since packing takes care of that. -/
def double (s : Sign) (m : Nat) (e : Int) (hm : 0 < m) : Float :=
  .ofModel (.pack (.finite s m e hm))

/-- The mantissa of a double has 53 digits, or fewer if the exponent is as small as can be. -/
theorem target_eq_iff {m : Nat} (hm : 0 < m) {e : Int} :
    target m e = e ↔ m < 2 ^ 53 ∧ -1074 ≤ e ∧ (2 ^ 52 ≤ m ∨ e = -1074) := by
  have hlt : m.log2 < 53 ↔ m < 2 ^ 53 := Nat.log2_lt (by omega)
  have hge : 52 ≤ m.log2 ↔ 2 ^ 52 ≤ m := Nat.le_log2 (by omega)
  rw [← hlt, ← hge, target_eq, totalExponent]
  omega

section

variable (s : Sign) {m : Nat} (hm : 0 < m) {e : Int} (htarget : target m e = e) (he : e ≤ 971)
include htarget he

theorem unpack_double : (double s m e hm).toModel.unpack = .finite s m e hm := by
  obtain ⟨hlt, hlow, hnormal⟩ := (target_eq_iff hm).1 htarget
  exact unpack_pack_finite s hm hlt hlow he hnormal

theorem isFinite_double : (double s m e hm).isFinite = true :=
  congrArg UnpackedFloat.isFinite (unpack_double s hm htarget he)

theorem abs_double : (double s m e hm).abs = double .positive m e hm := by
  rw [Float.abs, Float.Model.abs, unpack_double s hm htarget he]
  rfl

theorem neg_double : -double s m e hm = double (-s) m e hm := by
  change Float.ofModel (.pack (double s m e hm).toModel.unpack.neg) = _
  rw [unpack_double s hm htarget he]
  rfl

end

/-- **Finite doubles.** What core and this library take a finite double apart into is the same. It
is the only place where the bits are looked at from both sides; everything after it speaks of
mantissas and exponents. -/
theorem unpack_of_isFinite {x : Float} (hx : x.isFinite = true) :
    x.toModel.unpack = if h : mantissa x = 0 then .zero (signOf x)
      else .finite (signOf x) (mantissa x) (binaryExponent x) (Nat.pos_of_ne_zero h) := by
  have hM := toNat_unpackMantissa (bitsOf x)
  have hE := toNat_unpackExponent (bitsOf x)
  have hbits : x.toBits.toNat = (bitsOf x).toNat := rfl
  -- the two readings of the bits, one as quotients and one as fields
  have hmantissa : mantissa x = if (@unpackExponent .binary64 (bitsOf x)).toNat = 0
      then (@unpackMantissa .binary64 (bitsOf x)).toNat
      else 2 ^ 52 + (@unpackMantissa .binary64 (bitsOf x)).toNat := by
    rw [mantissa, hbits, hM, hE]
    rfl
  have hexponent : binaryExponent x = if (@unpackExponent .binary64 (bitsOf x)).toNat = 0
      then (-1074 : Int) else (@unpackExponent .binary64 (bitsOf x)).toNat - 1075 := by
    rw [binaryExponent, hbits, hE]
    rfl
  have hcases : Unpacked (bitsOf x) (unpack .binary64 (bitsOf x)) := unpacked_of_isFinite hx
  rw [unpack_toModel]
  -- what it is unpacked to only matters through the three cases
  generalize unpack .binary64 (bitsOf x) = u at hcases ⊢
  cases hcases with
  | zero hE hM =>
    have hzero : mantissa x = 0 := by
      rw [hmantissa, hE, hM]
      rfl
    rw [dif_pos hzero, ofBitVec_unpackSign]
  | subnormal hm hE hM he =>
    have hzero : (@unpackExponent .binary64 (bitsOf x)).toNat = 0 := by
      rw [hE]
      rfl
    rw [if_pos hzero] at hmantissa hexponent
    have hpos : mantissa x ≠ 0 := by omega
    rw [dif_neg hpos, ofBitVec_unpackSign]
    exact finite_congr (by omega) (by omega) _ _
  | normal hm hlow hhigh hM he =>
    have hnonzero : (@unpackExponent .binary64 (bitsOf x)).toNat ≠ 0 :=
      fun h => hlow (BitVec.eq_of_toNat_eq h)
    rw [if_neg hnonzero] at hmantissa hexponent
    have hpos : mantissa x ≠ 0 := by omega
    rw [dif_neg hpos, ofBitVec_unpackSign]
    exact finite_congr (by omega) (by omega) _ _

/-- A finite double other than zero is made of its parts, and they are those of a double. -/
theorem eq_double {x : Float} (hx : x.isFinite = true) (h : mantissa x ≠ 0) :
    x = double (signOf x) (mantissa x) (binaryExponent x) (Nat.pos_of_ne_zero h) ∧
      target (mantissa x) (binaryExponent x) = binaryExponent x ∧ binaryExponent x ≤ 971 := by
  have hunpack := unpack_of_isFinite hx
  rw [dif_neg h] at hunpack
  refine ⟨?_, ?_⟩
  · rw [double, ← hunpack, ofModel_pack_unpack]
  · have hcases : Unpacked (bitsOf x) x.toModel.unpack := unpacked_of_isFinite hx
    obtain ⟨hlt, hlow, hhigh, hnormal⟩ := hcases.bounds hunpack
    exact ⟨(target_eq_iff (Nat.pos_of_ne_zero h)).2 ⟨hlt, hlow, hnormal⟩, hhigh⟩

/-- A zero is one of the two. -/
theorem eq_zero {x : Float} (hx : x.isFinite = true) (h : mantissa x = 0) :
    x = .ofModel (.pack (.zero (signOf x))) := by
  have hunpack := unpack_of_isFinite hx
  rw [dif_pos h] at hunpack
  rw [← hunpack, ofModel_pack_unpack]

/-- A double is taken apart into what it was made of. -/
theorem parts_double (s : Sign) {m : Nat} (hm : 0 < m) {e : Int} (htarget : target m e = e)
    (he : e ≤ 971) :
    mantissa (double s m e hm) = m ∧ binaryExponent (double s m e hm) = e := by
  have hunpack := unpack_of_isFinite (isFinite_double s hm htarget he)
  rw [unpack_double s hm htarget he] at hunpack
  by_cases h : mantissa (double s m e hm) = 0
  · rw [dif_pos h] at hunpack
    cases hunpack
  · rw [dif_neg h] at hunpack
    injection hunpack with _ hmantissa hexponent
    exact ⟨hmantissa.symm, hexponent.symm⟩

/-- What equals a double other than zero is that double. -/
theorem eq_of_beq_double {y : Float} (s : Sign) {m : Nat} (hm : 0 < m) {e : Int}
    (htarget : target m e = e) (he : e ≤ 971) (h : (y == double s m e hm) = true) :
    y = double s m e hm := by
  obtain ⟨hmantissa, -⟩ := parts_double s hm htarget he
  have hzero : mantissa 0 = 0 ∧ mantissa (-0) = 0 := by decide +kernel
  -- equal numbers are the same double, or they are the two zeros
  obtain ⟨-, -, heq | ⟨-, heq⟩ | ⟨-, heq⟩⟩ := Float.beq_iff_ne_nan_and_eq.1 h
  · exact heq
  · rw [heq, hzero.2] at hmantissa
    omega
  · rw [heq, hzero.1] at hmantissa
    omega

end ItemStore.Decimal
