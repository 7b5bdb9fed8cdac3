import ItemStore.Proofs.Decimal.Plain

/-
The compact notation names the double.

A number of the wire text always has a point or an exponent. Within the positional range that
is the text of `Plain`, with one more place where the number is whole: the decimal that is read
then has other digits than the one that was written, ten times as many and a tenth of the
weight, and names the same double. Outside of that range the text is one digit, the other
digits behind a point, and the exponent of the leading digit, and what is read is the very
decimal.
-/
set_option autoImplicit false

namespace ItemStore.Decimal

/-! ## A place that is zero -/

/-- One more place, as long as it is zero, leaves the double alone. -/
theorem nearest_one_place (n : Nat) : nearest (n * 10) (-1) = nearest n 0 := by
  rcases Nat.eq_zero_or_pos n with rfl | hn
  · decide +kernel
  · exact nearest_places hn Nat.one_pos (by omega)

/-! ## Exponents -/

/-- An exponent has its sign in any case, and is read as it is. -/
theorem readExponent?_signed (leading : Int) :
    readExponent? ('e' :: (if leading < 0 then '-' else '+') :: digitsOfNat leading.natAbs) =
      some leading := by
  have hdigits : spanDigits (digitsOfNat leading.natAbs) = (digitsOfNat leading.natAbs, []) :=
    spanDigits_eq_self fun c hc => isDigit_of_mem_digitsOfNat hc
  obtain ⟨c, cs, hcs, -⟩ := exists_cons_digitsOfNat leading.natAbs
  have hvalue : natOfDigits (c :: cs) = leading.natAbs := by
    rw [← hcs, natOfDigits_digitsOfNat]
  rw [hcs] at hdigits ⊢
  rw [readExponent?, if_pos (.inl rfl)]
  by_cases hneg : leading < 0
  · have hsign : takeSign ('-' :: c :: cs) = (true, c :: cs) := rfl
    rw [if_pos hneg, hsign]
    simp only [hdigits, hvalue, if_true, Option.some_inj]
    omega
  · have hsign : takeSign ('+' :: c :: cs) = (false, c :: cs) := rfl
    rw [if_neg hneg, hsign]
    simp only [hdigits, hvalue, Bool.false_eq_true, if_false, Option.some_inj]
    omega

/-- One digit, the others behind a point if there are any, and an exponent. -/
theorem readDecimal?_exponent {c : Char} {fraction tail : List Char} {e : Int}
    (hc : isDigit c = true) (hfraction : ∀ d ∈ fraction, isDigit d = true)
    (he : readExponent? ('e' :: tail) = some e) :
    readDecimal? (c :: ((if fraction.isEmpty then [] else '.' :: fraction) ++ 'e' :: tail)) =
      some ⟨natOfDigits (c :: fraction), e - fraction.length⟩ := by
  have hdigit : ∀ d ∈ [c], isDigit d = true := by simpa using hc
  have hhead : ∀ d ∈ ('e' :: tail).head?, isDigit d = false := by
    simp
    decide
  cases fraction with
  | nil =>
    have hspan : spanDigits (c :: 'e' :: tail) = ([c], 'e' :: tail) :=
      spanDigits_append_eq hdigit hhead
    simp [readDecimal?, hspan, he]
  | cons d fraction =>
    have hwhole : spanDigits (c :: '.' :: (d :: (fraction ++ 'e' :: tail))) =
        ([c], '.' :: (d :: (fraction ++ 'e' :: tail))) :=
      spanDigits_append_eq hdigit (by simp; decide)
    have hspan : spanDigits (d :: (fraction ++ 'e' :: tail)) = (d :: fraction, 'e' :: tail) :=
      spanDigits_append_eq hfraction hhead
    simp [readDecimal?, hwhole, hspan, he]

/-! ## The notation as a whole -/

/-- Compact notation is positional, with one more place if there is no point in it, or it has an
exponent. -/
theorem readDecimal?_compact {d : Numeral} (h : d.toFloat.isFinite = true) :
    ∃ d', readDecimal? (compact (digitsOfNat d.digits) d.exponent) = some d' ∧
      d'.toFloat = d.toFloat := by
  obtain ⟨n, e⟩ := d
  have hdigits : ∀ c ∈ digitsOfNat n, isDigit c = true := fun c hc => isDigit_of_mem_digitsOfNat hc
  rw [compact]
  dsimp only
  generalize hleading : e + (digitsOfNat n).length - 1 = leading
  by_cases hrange : -5 ≤ leading ∧ leading ≤ 15
  · rw [if_pos hrange]
    by_cases he : 0 ≤ e
    · obtain ⟨k, rfl⟩ := Int.eq_ofNat_of_zero_le he
      have hall : ∀ c ∈ digitsOfNat n ++ zeros k, isDigit c = true :=
        fun c hc => isDigit_of_mem_append_replicate hc
      have hne : digitsOfNat n ++ zeros k ≠ [] := by simp [digitsOfNat]
      have hzero : ∀ c ∈ ['0'], isDigit c = true := by simp [isDigit]
      have hvalue : natOfDigits (digitsOfNat n ++ zeros k ++ ['0']) = n * 10 ^ k * 10 := by
        have hplace : natOfDigits (digitsOfNat n ++ zeros k ++ ['0']) =
            natOfDigits (digitsOfNat n ++ zeros k) * 10 ^ 1 :=
          natOfDigits_append_replicate (digitsOfNat n ++ zeros k) 1
        rw [hplace, zeros, natOfDigits_append_replicate, natOfDigits_digitsOfNat, Nat.pow_one]
      rw [if_pos he, positional, if_pos he, Int.toNat_natCast]
      refine ⟨_, readDecimal?_point hall hzero hne, ?_⟩
      rw [hvalue]
      exact (nearest_one_place (n * 10 ^ k)).trans (nearest_mul_ten_pow h)
    · rw [if_neg he]
      exact readDecimal?_positional h
  · -- the exponent is the one of the leading digit, so the other digits are places
    rw [if_neg hrange]
    obtain ⟨c, fraction, hcs, -⟩ := exists_cons_digitsOfNat n
    rw [hcs] at hdigits hleading ⊢
    have hvalue : natOfDigits (c :: fraction) = n := by rw [← hcs, natOfDigits_digitsOfNat]
    have hread := readDecimal?_exponent (hdigits c List.mem_cons_self)
      (fun d hd => hdigits d (List.mem_cons_of_mem c hd)) (readExponent?_signed leading)
    refine ⟨_, hread, ?_⟩
    have hexponent : leading - fraction.length = e := by
      rw [List.length_cons] at hleading
      omega
    rw [hvalue, hexponent]

/-- Compact notation begins with a digit. -/
theorem exists_cons_compact (n : Nat) (e : Int) :
    ∃ c cs, compact (digitsOfNat n) e = c :: cs ∧ isDigit c = true := by
  rw [compact]
  dsimp only
  split
  · obtain ⟨⟨c, cs, hcs, hc⟩, -⟩ := positional_chars n e
    split
    · exact ⟨c, cs ++ ['.', '0'], by rw [hcs]; rfl, hc⟩
    · exact ⟨c, cs, hcs, hc⟩
  · obtain ⟨c, cs, hcs, hc⟩ := exists_cons_digitsOfNat n
    exact ⟨c, _, by rw [hcs]; rfl, hc⟩

/-- **Doubles of the wire are read back.** The compact notation of a finite double names it. The
reader is that of free-form numbers, which rounds correctly; whether the reader of JSON finds the
same double is another question. -/
theorem read?_wire {x : Float} (hx : x.isFinite = true) : read? (wire x) = some x := by
  by_cases hzero : mantissa x = 0
  · have hread : readDecimal? ['0', '.', '0'] = some ⟨0, -1⟩ := rfl
    have hplace : ∀ negative, signedNearest negative 0 (-1) = signedNearest negative 0 0 := by
      intro negative
      rw [signedNearest, signedNearest, ← nearest_one_place 0]
    rw [wire, if_pos hzero, read?_signed rfl, hread, Option.map_some, hplace,
      signedNearest_zero hx hzero]
  · obtain ⟨hshortest, hfinite⟩ := shortest_abs .even hx hzero
    obtain ⟨d, hread, hd⟩ := readDecimal?_compact hfinite
    obtain ⟨c, cs, htext, hc⟩ :=
      exists_cons_compact (shortest .even x.abs).digits (shortest .even x.abs).exponent
    rw [wire, if_neg hzero]
    dsimp only
    rw [htext, read?_signed hc, ← htext, hread, Option.map_some,
      signedNearest_abs hx hzero (hd.trans hshortest)]

end ItemStore.Decimal
