import ItemStore.Decimal.Read
import ItemStore.Decimal.Text
import ItemStore.Proofs.Decimal.Digits
import ItemStore.Proofs.Decimal.Nearest
import ItemStore.Text.Blank

/-
The positional notation names the double.

A double is written as the shortest decimal that the search finds, or as its exact decimal.
The search only stops at decimals that name the double, so there is nothing to be known about
how far it goes. The positional notation of a decimal is read as the same decimal, or, where
it has an exponent that is not negative, as the number with the zeros written out, which
names the same double.
-/
set_option autoImplicit false

namespace ItemStore.Decimal

open Float.Model (Format totalExponent UnpackedFloat)
open Float.Model.UnpackedFloat

/-! ## The shortest decimal -/

/-- What the search finds names the double. -/
theorem beq_of_search {tie : Tie} {x : Float} {m : Nat} {q : Int} {grids : Nat} {k : Int}
    {d : Numeral} (h : search tie x m q grids k = some d) : (d.toFloat == x) = true := by
  -- along the grids; whatever is found on one of them was compared with the double
  induction grids generalizing k with
  | zero => cases h
  | succ grids ih =>
    rw [search] at h
    cases hgrid : onGrid? tie x m q k with
    | none =>
      rw [hgrid, Option.none_or] at h
      exact ih h
    | some d' =>
      rw [hgrid, Option.some_or] at h
      cases h
      obtain ⟨n, hn, rfl⟩ := Option.map_eq_some_iff.1 hgrid
      exact List.find?_some (p := fun d => nearest d k == x) hn

/-- **The shortest decimal of a double names it.** It holds with either way of breaking ties, as
the search tests every candidate by reading it. -/
theorem toFloat_shortest (tie : Tie) {m : Nat} (hm : 0 < m) {q : Int} (htarget : target m q = q)
    (hq : q ≤ 971) :
    (shortest tie (double .positive m q hm)).toFloat = double .positive m q hm := by
  obtain ⟨hmantissa, hexponent⟩ := parts_double .positive hm htarget hq
  rw [shortest, hmantissa, hexponent]
  -- the search finds a decimal, or the exact one is taken
  cases hsearch : search tie (double .positive m q hm) m q 20 (coarsest m q) with
  | none => exact nearest_exact hm htarget
  | some d => exact eq_of_beq_double .positive hm htarget hq (beq_of_search hsearch)

/-! ## Its notation -/

/-- A text that is a number for its own sake: digits, or digits with a point in between. -/
theorem readDecimal?_digits {whole : List Char} (hwhole : ∀ c ∈ whole, isDigit c = true)
    (hne : whole ≠ []) : readDecimal? whole = some ⟨natOfDigits whole, 0⟩ := by
  have hempty : whole.isEmpty = false := by simpa using hne
  simp [readDecimal?, spanDigits_eq_self hwhole, hempty, readExponent?]

theorem readDecimal?_point {whole fraction : List Char} (hwhole : ∀ c ∈ whole, isDigit c = true)
    (hfraction : ∀ c ∈ fraction, isDigit c = true) (hne : whole ≠ []) :
    readDecimal? (whole ++ '.' :: fraction) =
      some ⟨natOfDigits (whole ++ fraction), -(fraction.length : Int)⟩ := by
  have hempty : whole.isEmpty = false := by simpa using hne
  have hspan : spanDigits (whole ++ '.' :: fraction) = (whole, '.' :: fraction) :=
    spanDigits_append_eq hwhole (by simp; decide)
  simp [readDecimal?, hspan, spanDigits_eq_self hfraction, hempty, readExponent?]

/-- Positional notation is a whole number with zeros, or it has a point and as many digits
behind it as the exponent says. -/
theorem positional_cases (n : Nat) (e : Int) :
    (0 ≤ e ∧ positional (digitsOfNat n) e = digitsOfNat n ++ zeros e.toNat) ∨
      ∃ whole fraction, positional (digitsOfNat n) e = whole ++ '.' :: fraction ∧ whole ≠ [] ∧
        (∀ c ∈ whole, isDigit c = true) ∧ (∀ c ∈ fraction, isDigit c = true) ∧
        natOfDigits (whole ++ fraction) = n ∧ -(fraction.length : Int) = e := by
  by_cases he : 0 ≤ e
  · left
    exact ⟨he, by rw [positional, if_pos he]⟩
  · right
    have hdigits : ∀ c ∈ digitsOfNat n, isDigit c = true := fun c hc =>
      isDigit_of_mem_digitsOfNat hc
    by_cases hwhole : 0 < (digitsOfNat n).length - e.natAbs
    · -- the point stands inside the digits
      obtain ⟨w, hw⟩ : ∃ w, w = (digitsOfNat n).length - e.natAbs := ⟨_, rfl⟩
      refine ⟨(digitsOfNat n).take w, (digitsOfNat n).drop w, ?_, ?_, ?_, ?_, ?_, ?_⟩
      · rw [positional, if_neg he, hw]
        exact if_pos hwhole
      · rw [← List.length_pos_iff, List.length_take]
        omega
      · exact fun c hc => hdigits c (List.mem_of_mem_take hc)
      · exact fun c hc => hdigits c (List.mem_of_mem_drop hc)
      · rw [List.take_append_drop, natOfDigits_digitsOfNat]
      · rw [List.length_drop]
        omega
    · -- all digits stand behind the point, with zeros before them
      refine ⟨['0'], zeros (e.natAbs - (digitsOfNat n).length) ++ digitsOfNat n, ?_, ?_, ?_, ?_,
        ?_, ?_⟩
      · rw [positional, if_neg he]
        exact if_neg hwhole
      · simp
      · simp only [List.mem_singleton]
        rintro c rfl
        rfl
      · intro c hc
        rcases List.mem_append.1 hc with hc | hc
        · exact isDigit_of_mem_replicate hc
        · exact hdigits c hc
      · have hzeros : ['0'] ++ (zeros (e.natAbs - (digitsOfNat n).length) ++ digitsOfNat n) =
            List.replicate (e.natAbs - (digitsOfNat n).length + 1) '0' ++ digitsOfNat n := by
          rw [zeros, List.replicate_succ]
          rfl
        rw [hzeros, natOfDigits_replicate_append, natOfDigits_digitsOfNat]
      · rw [List.length_append, zeros, List.length_replicate]
        omega

/-- **Positional notation is read back**, as a decimal that names the same double. The decimal
that is read may be another one, with more digits or fewer. -/
theorem readDecimal?_positional {d : Numeral} (h : d.toFloat.isFinite = true) :
    ∃ d', readDecimal? (positional (digitsOfNat d.digits) d.exponent) = some d' ∧
      d'.toFloat = d.toFloat := by
  obtain ⟨n, e⟩ := d
  rcases positional_cases n e with ⟨he, htext⟩ | ⟨whole, fraction, htext, hne, hw, hf, hn, he⟩
  · -- the zeros are written out, so the decimal that is read has no exponent any more
    obtain ⟨k, rfl⟩ := Int.eq_ofNat_of_zero_le he
    have hdigits : ∀ c ∈ digitsOfNat n ++ zeros k, isDigit c = true :=
      fun c hc => isDigit_of_mem_append_replicate hc
    have hne : digitsOfNat n ++ zeros k ≠ [] := by simp [digitsOfNat]
    rw [Int.toNat_natCast] at htext
    refine ⟨_, by rw [htext, readDecimal?_digits hdigits hne], ?_⟩
    rw [zeros, natOfDigits_append_replicate, natOfDigits_digitsOfNat]
    exact nearest_mul_ten_pow h
  · refine ⟨_, by rw [htext, readDecimal?_point hw hf hne], ?_⟩
    rw [hn, he]

/-! ## What stands around it -/

theorem isBlank_of_isDigit {c : Char} (h : isDigit c = true) : Text.isBlank c = false := by
  obtain ⟨hlow, hhigh⟩ := toNat_of_isDigit h
  simp only [Text.isBlank, Bool.or_eq_false_iff, Bool.and_eq_false_iff, beq_eq_false_iff_ne,
    decide_eq_false_iff_not]
  omega

theorem toLower_of_isDigit {c : Char} (h : isDigit c = true) : c.toLower = c := by
  obtain ⟨-, hhigh⟩ := toNat_of_isDigit h
  refine Char.toLower_eq_of_not_isUpper fun hupper => ?_
  simp only [Char.isUpper, decide_eq_true_eq] at hupper
  have hletter : 65 ≤ c.toNat := UInt32.le_iff_toNat_le.1 hupper.1
  omega

/-- Positional notation begins with a digit and has only digits and a point. -/
theorem positional_chars (n : Nat) (e : Int) :
    (∃ c cs, positional (digitsOfNat n) e = c :: cs ∧ isDigit c = true) ∧
      ∀ c ∈ positional (digitsOfNat n) e, isDigit c = true ∨ c = '.' := by
  rcases positional_cases n e with ⟨he, htext⟩ | ⟨whole, fraction, htext, hne, hw, hf, -, -⟩
  · rw [htext]
    refine ⟨?_, fun c hc => .inl (isDigit_of_mem_append_replicate hc)⟩
    obtain ⟨c, cs, hcs, hc⟩ := exists_cons_digitsOfNat n
    exact ⟨c, cs ++ zeros e.toNat, by rw [hcs]; rfl, hc⟩
  · rw [htext]
    refine ⟨?_, fun c hc => ?_⟩
    · obtain ⟨c, cs, rfl⟩ := List.exists_cons_of_ne_nil hne
      exact ⟨c, cs ++ '.' :: fraction, rfl, hw c (by simp)⟩
    · rcases List.mem_append.1 hc with hc | hc
      · exact .inl (hw c hc)
      · rcases List.mem_cons.1 hc with rfl | hc
        · exact .inr rfl
        · exact .inl (hf c hc)

/-- A text that begins with a digit, with or without a minus in front, is read as a decimal. -/
theorem read?_signed {c : Char} (hc : isDigit c = true) (cs : List Char) (negative : Bool) :
    read? (signed negative (c :: cs)) =
      (readDecimal? (c :: cs)).map fun d => signedNearest negative d.digits d.exponent := by
  obtain ⟨hlow, hhigh⟩ := toNat_of_isDigit hc
  have hsign : takeSign (signed negative (c :: cs)) = (negative, c :: cs) := by
    cases negative with
    | true => rfl
    | false =>
      have hminus : c ≠ '-' := by
        rintro rfl
        cases hc
      have hplus : c ≠ '+' := by
        rintro rfl
        cases hc
      rw [signed, if_neg (by decide)]
      unfold takeSign
      split
      · next h => exact absurd (List.cons.inj h).1 hminus
      · next h => exact absurd (List.cons.inj h).1 hplus
      · rfl
  -- none of the words that are read begins with a digit
  have hword : ∀ (w : Char) (ws : List Char), isDigit w = false →
      (c :: cs).map Char.toLower ≠ w :: ws := by
    intro w ws hw h
    have hhead : c.toLower = w := (List.cons.inj h).1
    rw [toLower_of_isDigit hc] at hhead
    rw [hhead, hw] at hc
    cases hc
  have hinf : (c :: cs).map Char.toLower ≠ "inf".toList := hword 'i' _ (by decide)
  have hinfinity : (c :: cs).map Char.toLower ≠ "infinity".toList := hword 'i' _ (by decide)
  have hnan : (c :: cs).map Char.toLower ≠ "nan".toList := hword 'n' _ (by decide)
  rw [read?, hsign]
  simp only [hinf, hinfinity, hnan, or_self, if_false]

/-- No blank stands at the ends of a number's text. -/
theorem trim_signed {text : List Char} (h : ∀ c ∈ text, isDigit c = true ∨ c = '.')
    (negative : Bool) : Text.trim (signed negative text) = signed negative text := by
  -- no character of the text is a blank, not only those at its ends
  refine Text.trim_eq_self fun c hc => ?_
  have hcases : c = '-' ∨ c ∈ text := by
    cases negative with
    | false => exact .inr hc
    | true => exact List.mem_cons.1 hc
  rcases hcases with rfl | hc
  · rfl
  · rcases h c hc with hdigit | rfl
    · exact isBlank_of_isDigit hdigit
    · rfl

/-! ## Doubles -/

theorem isNaN_of_isFinite {x : Float} (hx : x.isFinite = true) :
    x.isNaN = false ∧ x.isInf = false := by
  have hu : x.toModel.unpack.isFinite = true := hx
  change x.toModel.unpack.isNaN = false ∧ x.toModel.unpack.isInf = false
  cases hcases : x.toModel.unpack with
  | notANumber => rw [hcases] at hu; cases hu
  | infinity s => rw [hcases] at hu; cases hu
  | zero s => exact ⟨rfl, rfl⟩
  | finite s m e hm => exact ⟨rfl, rfl⟩

/-- Both zeros are read back. -/
theorem signedNearest_zero {x : Float} (hx : x.isFinite = true) (h : mantissa x = 0) :
    signedNearest (isNegative x) 0 0 = x := by
  have hpositive : signedNearest false 0 0 = .ofModel (.pack (.zero .positive)) := by
    decide +kernel
  have hnegative : signedNearest true 0 0 = .ofModel (.pack (.zero .negative)) := by
    decide +kernel
  refine Eq.trans ?_ (eq_zero hx h).symm
  rw [signOf]
  cases isNegative x with
  | false => exact hpositive
  | true => exact hnegative

/-- A decimal that names the size of a double names it with its sign. -/
theorem signedNearest_abs {x : Float} (hx : x.isFinite = true) (h : mantissa x ≠ 0) {d : Numeral}
    (hd : d.toFloat = x.abs) : signedNearest (isNegative x) d.digits d.exponent = x := by
  obtain ⟨hdouble, htarget, hq⟩ := eq_double hx h
  have hnearest : nearest d.digits d.exponent =
      double .positive (mantissa x) (binaryExponent x) (Nat.pos_of_ne_zero h) := by
    rw [← abs_double (signOf x) (Nat.pos_of_ne_zero h) htarget hq, ← hdouble]
    exact hd
  -- the sign is put on after the size was found
  have hsigned : ∀ negative, signedNearest negative d.digits d.exponent =
      double (if negative then .negative else .positive) (mantissa x) (binaryExponent x)
        (Nat.pos_of_ne_zero h) := by
    intro negative
    cases negative with
    | false => exact hnearest
    | true =>
      change -nearest d.digits d.exponent = _
      rw [hnearest, neg_double .positive _ htarget hq]
      rfl
  exact (hsigned _).trans hdouble.symm

/-- The shortest decimal of the size of a double names that size. -/
theorem shortest_abs (tie : Tie) {x : Float} (hx : x.isFinite = true) (h : mantissa x ≠ 0) :
    (shortest tie x.abs).toFloat = x.abs ∧ (shortest tie x.abs).toFloat.isFinite = true := by
  obtain ⟨hdouble, htarget, hq⟩ := eq_double hx h
  have habs : x.abs = double .positive (mantissa x) (binaryExponent x) (Nat.pos_of_ne_zero h) := by
    rw [← abs_double (signOf x) (Nat.pos_of_ne_zero h) htarget hq, ← hdouble]
  have hshortest : (shortest tie x.abs).toFloat = x.abs := by
    rw [habs, toFloat_shortest tie _ htarget hq]
  refine ⟨hshortest, ?_⟩
  rw [hshortest, habs, isFinite_double .positive _ htarget hq]

/-- The positional notation of a finite double is its size behind its sign, and the two name the
double. -/
theorem exists_plain_eq_signed {x : Float} (hx : x.isFinite = true) :
    ∃ body, (plain x).toList = signed (isNegative x) body ∧
      (∀ c ∈ body, isDigit c = true ∨ c = '.') ∧ read? (signed (isNegative x) body) = some x := by
  obtain ⟨hnan, hinf⟩ := isNaN_of_isFinite hx
  by_cases hzero : mantissa x = 0
  · have hplain : (plain x).toList = signed (isNegative x) ['0'] := by
      rw [plain, hnan, hinf, if_pos hzero]
      exact String.toList_ofList
    have hread : readDecimal? ['0'] = some ⟨0, 0⟩ := rfl
    refine ⟨['0'], hplain, by simp [isDigit], ?_⟩
    rw [read?_signed rfl, hread, Option.map_some, signedNearest_zero hx hzero]
  · have hplain : (plain x).toList = signed (isNegative x)
        (positional (digitsOfNat (shortest .up x.abs).digits) (shortest .up x.abs).exponent) := by
      rw [plain, hnan, hinf, if_neg hzero]
      exact String.toList_ofList
    -- the size is written, and it is a double of positive sign
    obtain ⟨hshortest, hfinite⟩ := shortest_abs .up hx hzero
    obtain ⟨d, hread, hd⟩ := readDecimal?_positional hfinite
    obtain ⟨⟨c, cs, htext, hc⟩, hchars⟩ :=
      positional_chars (shortest .up x.abs).digits (shortest .up x.abs).exponent
    refine ⟨_, hplain, hchars, ?_⟩
    rw [htext, read?_signed hc, ← htext, hread, Option.map_some,
      signedNearest_abs hx hzero (hd.trans hshortest)]

/-- **Numbers are read back.** The positional notation of a finite double names it. Trimming is
part of it, since the reader of number attributes trims what it gets. -/
theorem read?_plain {x : Float} (hx : x.isFinite = true) :
    read? (Text.trim (plain x).toList) = some x := by
  obtain ⟨body, hplain, hchars, hread⟩ := exists_plain_eq_signed hx
  rw [hplain, trim_signed hchars, hread]

/-- There are no blanks to be taken off first. -/
theorem read?_toList_plain {x : Float} (hx : x.isFinite = true) :
    read? (plain x).toList = some x := by
  obtain ⟨body, hplain, -, hread⟩ := exists_plain_eq_signed hx
  rw [hplain, hread]

end ItemStore.Decimal
