import ItemStore.Proofs.Decimal.Compact
import ItemStore.Proofs.Json.Number

/-
Readers that round correctly.

The text of a number can be read in two ways: as a number of a JSON text, and as the free-form
text of a number attribute. If both of them round correctly they find the same double, or
neither finds a finite one. `ReadsNearest` says that of a single text, since the reader of JSON
does not round correctly in all cases. What follows from it for the compact notation of a double
is that the double is read back: free-form reading finds it, and a number that is written
compactly is never taken for an integer.

A number of a JSON text has no blanks in it, so nothing is trimmed off before it is read as a
number attribute.

Of the number that a text stands for, both readers see the same digits, so all that can be
different is the rounding.
-/
set_option autoImplicit false

namespace ItemStore

open Decimal

namespace Json.Number

/-! ## The characters of a number -/

/-- A character that stands in a number. Both ways of reading know these only. -/
def isNumeral (c : Char) : Bool :=
  isDigit c || c == '.' || c == 'e' || c == 'E' || c == '-' || c == '+'

theorem isBlank_of_isNumeral {c : Char} (h : isNumeral c = true) : Text.isBlank c = false := by
  simp only [isNumeral, Bool.or_eq_true, beq_iff_eq] at h
  obtain ((((hdigit | rfl) | rfl) | rfl) | rfl) | rfl := h
  · exact isBlank_of_isDigit hdigit
  all_goals decide

section Parts

variable {cs r : List Char} {c : Char}

theorem mem_of_spanDigits (hc : c ∈ cs) : isNumeral c = true ∨ c ∈ (spanDigits cs).2 := by
  rw [← spanDigits_append cs] at hc
  rcases List.mem_append.1 hc with hc | hc
  · left
    rw [isNumeral, isDigit_of_mem_spanDigits hc]
    rfl
  · exact .inr hc

theorem mem_of_takeSign (hc : c ∈ cs) : isNumeral c = true ∨ c ∈ (takeSign cs).2 := by
  unfold takeSign
  split
  · rcases List.mem_cons.1 hc with rfl | hc
    · exact .inl (by decide)
    · exact .inr hc
  · rcases List.mem_cons.1 hc with rfl | hc
    · exact .inl (by decide)
    · exact .inr hc
  · exact .inr hc

theorem mem_of_takeFraction? {fraction : Option (List Char)}
    (h : takeFraction? cs = some (fraction, r)) (hc : c ∈ cs) : isNumeral c = true ∨ c ∈ r := by
  unfold takeFraction? at h
  split at h
  · dsimp only at h
    split at h
    · cases h
    · cases h
      rcases List.mem_cons.1 hc with rfl | hc
      · exact .inl (by decide)
      · exact mem_of_spanDigits hc
  · cases h
    exact .inr hc

theorem mem_of_takeExponent? {exponent : Option Int}
    (h : takeExponent? cs = some (exponent, r)) (hc : c ∈ cs) : isNumeral c = true ∨ c ∈ r := by
  unfold takeExponent? at h
  split at h
  · cases hc
  · next d ds =>
    split at h
    · next he =>
      dsimp only at h
      split at h
      · cases h
      · cases h
        rcases List.mem_cons.1 hc with rfl | hc
        · rcases he with rfl | rfl
          · exact .inl (by decide)
          · exact .inl (by decide)
        · -- behind the letter there is a sign, and behind the sign are the digits
          rcases mem_of_takeSign hc with hc | hc
          · exact .inl hc
          · exact mem_of_spanDigits hc
    · cases h
      exact .inr hc

theorem isNumeral_of_lexUnsigned? {negative : Bool} {l : Lexeme}
    (h : lexUnsigned? negative cs = some (l, [])) : ∀ c ∈ cs, isNumeral c = true := by
  obtain ⟨cs₁, cs₂, hspan, -, hfraction, hexponent, -⟩ := lexUnsigned?_eq_some.1 h
  intro c hc
  rcases mem_of_spanDigits hc with hc | hc
  · exact hc
  rw [hspan] at hc
  rcases mem_of_takeFraction? hfraction hc with hc | hc
  · exact hc
  rcases mem_of_takeExponent? hexponent hc with hc | hc
  · exact hc
  · cases hc

end Parts

/-- A number that is a whole text consists of the characters of numbers. -/
theorem isNumeral_of_ofText? {cs : List Char} {n : Number} (h : ofText? cs = some n) :
    ∀ c ∈ cs, isNumeral c = true := by
  obtain ⟨l, hlex, -⟩ := take?_eq_some.1 (ofText?_eq_some.1 h)
  obtain ⟨c, cs, rfl, -⟩ := exists_cons_of_lex? hlex
  by_cases hc : c = '-'
  · subst hc
    rw [lex?_minus] at hlex
    exact List.forall_mem_cons.2 ⟨by decide, isNumeral_of_lexUnsigned? hlex⟩
  · rw [lex?_of_ne hc] at hlex
    exact isNumeral_of_lexUnsigned? hlex

/-- So there is nothing to be trimmed off. -/
theorem trim_of_ofText? {cs : List Char} {n : Number} (h : ofText? cs = some n) :
    Text.trim cs = cs :=
  Text.trim_eq_self fun c hc => isBlank_of_isNumeral (isNumeral_of_ofText? h c hc)

/-! ## Correct rounding -/

/-- The reader of JSON makes of the text what the reader of free-form numbers makes of it, as long
as that is finite. An infinite double is left out, because the reader of JSON refuses a text for
which the other one finds it. -/
def ReadsNearest (cs : List Char) : Prop :=
  (ofText? cs).map toFloat = (read? cs).filter Float.isFinite

instance (cs : List Char) : Decidable (ReadsNearest cs) :=
  inferInstanceAs (Decidable ((ofText? cs).map toFloat = (read? cs).filter Float.isFinite))

/-- A text that reads nearest names the double that it is. -/
theorem ReadsNearest.read?_eq {cs : List Char} {x : Float} (h : ReadsNearest cs)
    (hx : ofText? cs = some (.double x)) : (read? cs).filter Float.isFinite = some x := by
  rw [← h, hx]
  rfl

theorem ReadsNearest.isFinite {cs : List Char} {x : Float} (h : ReadsNearest cs)
    (hx : ofText? cs = some (.double x)) : x.isFinite = true :=
  (Option.filter_eq_some_iff.1 (h.read?_eq hx)).2

/-- A number that is written compactly has a point or an exponent in it. -/
theorem exists_notMem_digit_compact (n : Nat) (e : Int) :
    ∃ c ∈ compact (digitsOfNat n) e, isDigit c = false ∧ c ≠ '-' := by
  have hpoint : isDigit '.' = false ∧ '.' ≠ '-' := by decide
  rw [compact]
  dsimp only
  split
  · rcases positional_cases n e with ⟨he, htext⟩ | ⟨whole, fraction, htext, -, -, -, -, he⟩
    · rw [if_pos he]
      exact ⟨'.', by simp, hpoint⟩
    · rw [htext]
      split
      · exact ⟨'.', by simp, hpoint⟩
      · exact ⟨'.', by simp, hpoint⟩
  · exact ⟨'e', by simp, by decide⟩

/-- An integer is its digits behind a sign. -/
theorem mem_text_integer {i : Int} {c : Char} (h : c ∈ (integer i).text) :
    c = '-' ∨ isDigit c = true := by
  rw [text] at h
  cases hsign : decide (i < 0) with
  | true =>
    rw [hsign] at h
    rcases List.mem_cons.1 h with rfl | h
    · exact .inl rfl
    · exact .inr (isDigit_of_mem_digitsOfNat h)
  | false =>
    rw [hsign] at h
    exact .inr (isDigit_of_mem_digitsOfNat h)

/-- A double that is written is not taken for an integer. -/
theorem ofText?_wire_ne_integer (x : Float) (i : Int) : ofText? (wire x) ≠ some (.integer i) := by
  intro h
  have hchars : ∀ c ∈ wire x, c = '-' ∨ isDigit c = true := by
    rw [← text_of_ofText?_eq_integer h]
    exact fun c hc => mem_text_integer hc
  -- there is a character in the size that an integer does not have
  obtain ⟨c, hmem, hc, hminus⟩ : ∃ c ∈ wire x, isDigit c = false ∧ c ≠ '-' := by
    have hsigned : ∀ (text : List Char) (c : Char), c ∈ text → c ∈ signed (isNegative x) text := by
      intro text c hc
      rw [signed]
      split
      · exact List.mem_cons_of_mem _ hc
      · exact hc
    rw [wire]
    dsimp only
    split
    · exact ⟨'.', hsigned _ _ (by simp), by decide⟩
    · obtain ⟨c, hmem, hc⟩ := exists_notMem_digit_compact (shortest .even x.abs).digits
        (shortest .even x.abs).exponent
      exact ⟨c, hsigned _ _ hmem, hc⟩
  rcases hchars c hmem with rfl | hdigit
  · exact hminus rfl
  · rw [hc] at hdigit
    cases hdigit

/-- **Reading back.** A finite double is read back if the text that is written for it is read
correctly. Only the one text has to be read correctly. That it names the double is known, by a
theorem on the shortest decimal. -/
theorem readsBack_of_readsNearest {x : Float} (hx : x.isFinite = true)
    (h : ReadsNearest (wire x)) : (double x).ReadsBack := by
  have hread : (read? (wire x)).filter Float.isFinite = some x := by
    rw [read?_wire hx, Option.filter, if_pos hx]
  obtain ⟨n, hn, he⟩ := Option.map_eq_some_iff.1 (h.trans hread)
  cases n with
  | integer i => exact absurd hn (ofText?_wire_ne_integer x i)
  | double y =>
    change y = x at he
    rw [he] at hn
    exact hn

end Json.Number

end ItemStore
