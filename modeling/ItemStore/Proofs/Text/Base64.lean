import ItemStore.Text.Base64

/-
Every base64 text that is read is the text of its bytes.

The reader insists on the padding and on the spare bits, so there is one text for some bytes and no
other: what is read is what would be written.
-/
set_option autoImplicit false

namespace ItemStore.Text.Base64

/-- A character that stands for six bits is the one that is written for them. -/
theorem eq_digit_of_value? {c : Char} {n : Nat} (h : value? c = some n) : n < 64 ∧ c = digit n := by
  have hall : ∀ k < 128, ∀ n, value? (Char.ofNat k) = some n →
      n < 64 ∧ Char.ofNat k = digit n := by decide
  by_cases hc : c.toNat < 128
  · rw [← Char.ofNat_toNat c] at h ⊢
    exact hall c.toNat hc n h
  · have hplus : c ≠ '+' := by
      rintro rfl
      exact hc (by decide)
    have hslash : c ≠ '/' := by
      rintro rfl
      exact hc (by decide)
    rw [value?, if_neg (by omega), if_neg (by omega), if_neg (by omega), if_neg hplus,
      if_neg hslash] at h
    cases h

theorem toNat_ofNat_of_lt {n : Nat} (h : n < 256) : (UInt8.ofNat n).toNat = n := by
  rw [UInt8.toNat_ofNat', Nat.mod_eq_of_lt h]

/-- A last group of one byte. -/
theorem lastOne?_eq_some {w x : Char} {bytes : List UInt8} (h : lastOne? w x = some bytes) :
    [w, x, '=', '='] = encode bytes := by
  obtain ⟨i, hi, hmore⟩ := Option.bind_eq_some_iff.1 h
  obtain ⟨j, hj, hlast⟩ := Option.bind_eq_some_iff.1 hmore
  obtain ⟨hilt, rfl⟩ := eq_digit_of_value? hi
  obtain ⟨hjlt, rfl⟩ := eq_digit_of_value? hj
  by_cases hspare : j % 16 = 0
  · rw [if_pos hspare] at hlast
    cases hlast
    rw [encode, toNat_ofNat_of_lt (by omega)]
    congr <;> omega
  · rw [if_neg hspare] at hlast
    cases hlast

/-- A last group of two bytes. -/
theorem lastTwo?_eq_some {w x y : Char} {bytes : List UInt8} (h : lastTwo? w x y = some bytes) :
    [w, x, y, '='] = encode bytes := by
  obtain ⟨i, hi, hmore⟩ := Option.bind_eq_some_iff.1 h
  obtain ⟨j, hj, hmore⟩ := Option.bind_eq_some_iff.1 hmore
  obtain ⟨k, hk, hlast⟩ := Option.bind_eq_some_iff.1 hmore
  obtain ⟨hilt, rfl⟩ := eq_digit_of_value? hi
  obtain ⟨hjlt, rfl⟩ := eq_digit_of_value? hj
  obtain ⟨hklt, rfl⟩ := eq_digit_of_value? hk
  by_cases hspare : k % 4 = 0
  · rw [if_pos hspare] at hlast
    cases hlast
    rw [encode, toNat_ofNat_of_lt (by omega), toNat_ofNat_of_lt (by omega)]
    congr <;> omega
  · rw [if_neg hspare] at hlast
    cases hlast

/-- **One text.** What is read as some bytes is the text of these bytes. Right to left it says
that bytes come back, left to right that only their own text is read as them. -/
theorem decode?_eq_some_iff {cs : List Char} {bytes : List UInt8} :
    decode? cs = some bytes ↔ cs = encode bytes := by
  refine ⟨fun h => ?_, fun h => h ▸ decode?_encode bytes⟩
  induction cs using decode?.induct generalizing bytes with
  | case1 =>
    cases h
    rfl
  | case2 w x => exact lastOne?_eq_some h
  | case3 w x y hne =>
    rw [decode?.eq_3 w x y hne] at h
    exact lastTwo?_eq_some h
  | case4 w x y z rest hone htwo ih =>
    rw [decode?.eq_4 w x y z rest hone htwo] at h
    obtain ⟨i, hi, hmore⟩ := Option.bind_eq_some_iff.1 h
    obtain ⟨j, hj, hmore⟩ := Option.bind_eq_some_iff.1 hmore
    obtain ⟨k, hk, hmore⟩ := Option.bind_eq_some_iff.1 hmore
    obtain ⟨l, hl, hmore⟩ := Option.bind_eq_some_iff.1 hmore
    obtain ⟨behind, hbehind, hbytes⟩ := Option.bind_eq_some_iff.1 hmore
    obtain ⟨hilt, rfl⟩ := eq_digit_of_value? hi
    obtain ⟨hjlt, rfl⟩ := eq_digit_of_value? hj
    obtain ⟨hklt, rfl⟩ := eq_digit_of_value? hk
    obtain ⟨hllt, rfl⟩ := eq_digit_of_value? hl
    cases hbytes
    rw [encode, toNat_ofNat_of_lt (by omega), toNat_ofNat_of_lt (by omega),
      toNat_ofNat_of_lt (by omega), ih hbehind]
    congr <;> omega
  | case5 cs hnil hone htwo hgroup =>
    rw [decode?.eq_5 cs hnil hone htwo hgroup] at h
    cases h

end ItemStore.Text.Base64
