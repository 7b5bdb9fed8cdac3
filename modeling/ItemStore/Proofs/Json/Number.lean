import ItemStore.Json.Number
import ItemStore.Proofs.Decimal.Digits

/-
Numbers inside longer texts.

A number is read as far as its characters go. So a text that is a number as a whole is still
read as that number when something follows, unless what follows could be part of a number
(`EndsNumber`); a comma or a bracket could not. This is proved for each part of a number that
is taken off the front of a text, and then for the whole.

Texts are numbers in many spellings, but whole numbers in one spelling only: no zero may stand
in front and no plus sign. So an integer that was read is written as it was found.
-/
set_option autoImplicit false

namespace ItemStore

open Decimal

namespace Json.Number

/-! ## Digits without zeros in front -/

theorem isWhole_cons {c : Char} {cs : List Char} :
    isWhole (c :: cs) = true ↔ (c = '0' ∧ cs = []) ∨ c ≠ '0' := by
  unfold isWhole
  split
  · next he => cases he
  · next he =>
    cases he
    simp
  · next hne he =>
    cases he
    rw [bne_iff_ne]
    -- a zero with something behind it was the case before
    have hzero : ¬ (c = '0' ∧ cs = []) := by
      rintro ⟨rfl, rfl⟩
      exact hne rfl rfl
    tauto

/-- Digits that do not begin with a zero are not worth zero. -/
theorem natOfDigits_ne_zero {c : Char} (hdigit : isDigit c = true) (hc : c ≠ '0')
    (cs : List Char) : natOfDigits (c :: cs) ≠ 0 := by
  have hfirst : c ≠ '0' → digitValue c ≠ 0 := by
    refine forall_isDigit (P := fun c => c ≠ '0' → digitValue c ≠ 0) ?_ hdigit
    decide
  have hrest : ∀ (ds : List Char) (n : Nat), n ≠ 0 →
      ds.foldl (fun n c => 10 * n + digitValue c) n ≠ 0 := by
    intro ds
    induction ds with
    | nil => exact fun n hn => hn
    | cons d ds ih =>
      intro n hn
      refine ih (10 * n + digitValue d) ?_
      omega
  refine hrest cs (10 * 0 + digitValue c) ?_
  have hne := hfirst hc
  omega

/-- **One spelling.** Digits without a zero in front are the digits of what they are worth. A
single zero is among them. -/
theorem digitsOfNat_natOfDigits {ds : List Char} (hdigits : ∀ c ∈ ds, isDigit c = true)
    (h : isWhole ds = true) : digitsOfNat (natOfDigits ds) = ds := by
  -- digit by digit from the left, so that the last one is taken off first
  induction ds using List.reverseRecOn with
  | nil => cases h
  | append_singleton ds c ih =>
    have hc : isDigit c = true := hdigits c (List.mem_append_right ds List.mem_cons_self)
    have hds : ∀ d ∈ ds, isDigit d = true := fun d hd => hdigits d (List.mem_append_left [c] hd)
    cases ds with
    | nil =>
      refine forall_isDigit (P := fun c => digitsOfNat (natOfDigits [c]) = [c]) ?_ hc
      decide
    | cons d ds =>
      have hd : d ≠ '0' := by
        rcases isWhole_cons.1 h with ⟨-, hnil⟩ | hne
        · exact absurd hnil (List.append_ne_nil_of_right_ne_nil ds (List.cons_ne_nil c []))
        · exact hne
      have hwhole : isWhole (d :: ds) = true := isWhole_cons.2 (.inr hd)
      have hne : natOfDigits (d :: ds) ≠ 0 :=
        natOfDigits_ne_zero (hds d List.mem_cons_self) hd ds
      rw [natOfDigits_concat, digitsOfNat_mul_ten_add hne hc, ih hds hwhole]

/-! ## What may follow a number -/

/-- What follows cannot be part of a number. The end of a text is one such thing. -/
def EndsNumber (rest : List Char) : Prop :=
  ∀ c ∈ rest.head?, isDigit c = false ∧ c ≠ '.' ∧ c ≠ 'e' ∧ c ≠ 'E'

theorem EndsNumber.isDigit_head {rest : List Char} (h : EndsNumber rest) :
    ∀ c ∈ rest.head?, isDigit c = false := fun c hc => (h c hc).1

theorem endsNumber_nil : EndsNumber [] := by
  intro c hc
  cases hc

theorem endsNumber_cons {c : Char} (h : isDigit c = false ∧ c ≠ '.' ∧ c ≠ 'e' ∧ c ≠ 'E')
    (cs : List Char) : EndsNumber (c :: cs) := by
  intro d hd
  cases hd
  exact h

/-! ## The parts of a number -/

section Parts

variable {cs rest r : List Char}

theorem takeFraction?_of_ne {c : Char} (hc : c ≠ '.') (cs : List Char) :
    takeFraction? (c :: cs) = some (none, c :: cs) := by
  unfold takeFraction?
  split
  · next he =>
    cases he
    exact absurd rfl hc
  · rfl

theorem takeFraction?_append (hrest : EndsNumber rest) {fraction : Option (List Char)}
    (h : takeFraction? cs = some (fraction, r)) :
    takeFraction? (cs ++ rest) = some (fraction, r ++ rest) := by
  cases cs with
  | nil =>
    cases h
    -- there is no fraction in what follows either
    cases rest with
    | nil => rfl
    | cons c rest => exact takeFraction?_of_ne (hrest c rfl).2.1 rest
  | cons c cs =>
    by_cases hc : c = '.'
    · subst hc
      rw [takeFraction?] at h
      rw [List.cons_append, takeFraction?, spanDigits_append_rest hrest.isDigit_head]
      dsimp only at h ⊢
      by_cases hnil : (spanDigits cs).1.isEmpty = true
      · rw [if_pos hnil] at h
        cases h
      · rw [if_neg hnil] at h ⊢
        cases h
        rfl
    · rw [takeFraction?_of_ne hc] at h
      cases h
      exact takeFraction?_of_ne hc (cs ++ rest)

theorem takeSign_append (hne : cs ≠ []) :
    takeSign (cs ++ rest) = ((takeSign cs).1, (takeSign cs).2 ++ rest) := by
  obtain ⟨c, cs, rfl⟩ := List.exists_cons_of_ne_nil hne
  have hother : ∀ ds : List Char, c ≠ '-' → c ≠ '+' → takeSign (c :: ds) = (false, c :: ds) := by
    intro ds hminus hplus
    unfold takeSign
    split
    · next he =>
      cases he
      exact absurd rfl hminus
    · next he =>
      cases he
      exact absurd rfl hplus
    · rfl
  by_cases hminus : c = '-'
  · subst hminus
    rfl
  · by_cases hplus : c = '+'
    · subst hplus
      rfl
    · rw [List.cons_append, hother _ hminus hplus, hother _ hminus hplus]
      rfl

theorem takeExponent?_append (hrest : EndsNumber rest) {exponent : Option Int}
    (h : takeExponent? cs = some (exponent, r)) :
    takeExponent? (cs ++ rest) = some (exponent, r ++ rest) := by
  cases cs with
  | nil =>
    cases h
    cases rest with
    | nil => rfl
    | cons c rest =>
      have hc : ¬ (c = 'e' ∨ c = 'E') := not_or.2 (hrest c rfl).2.2
      rw [List.nil_append, takeExponent?, if_neg hc]
  | cons c cs =>
    rw [takeExponent?] at h
    rw [List.cons_append, takeExponent?]
    by_cases hc : c = 'e' ∨ c = 'E'
    · rw [if_pos hc] at h ⊢
      by_cases hne : cs = []
      · rw [hne] at h
        cases h
      -- a sign stands in the text itself, because an exponent has digits
      · rw [takeSign_append hne]
        dsimp only at h ⊢
        rw [spanDigits_append_rest hrest.isDigit_head]
        dsimp only
        by_cases hnil : (spanDigits (takeSign cs).2).1.isEmpty = true
        · rw [if_pos hnil] at h
          cases h
        · rw [if_neg hnil] at h ⊢
          cases h
          rfl
    · rw [if_neg hc] at h ⊢
      cases h
      rfl

end Parts

/-! ## Whole numbers -/

/-- A number behind its sign. It is given a name so that the sign, which either is there or not,
is looked at once. -/
def lexUnsigned? (negative : Bool) (cs : List Char) : Option (Lexeme × List Char) := do
  let (whole, cs) := spanDigits cs
  if isWhole whole then
    let (fraction, cs) ← takeFraction? cs
    let (exponent, cs) ← takeExponent? cs
    some ({ negative, whole, fraction, exponent }, cs)
  else none

theorem lex?_minus (cs : List Char) : lex? ('-' :: cs) = lexUnsigned? true cs := rfl

theorem lex?_of_ne {c : Char} (hc : c ≠ '-') (cs : List Char) :
    lex? (c :: cs) = lexUnsigned? false (c :: cs) := by
  unfold lex?
  split
  next negative cs' hsign =>
    split at hsign
    · next he =>
      cases he
      exact absurd rfl hc
    · cases hsign
      rfl

theorem lexUnsigned?_eq_some {negative : Bool} {cs r : List Char} {l : Lexeme} :
    lexUnsigned? negative cs = some (l, r) ↔
      ∃ cs₁ cs₂, spanDigits cs = (l.whole, cs₁) ∧ isWhole l.whole = true ∧
        takeFraction? cs₁ = some (l.fraction, cs₂) ∧
        takeExponent? cs₂ = some (l.exponent, r) ∧ l.negative = negative := by
  unfold lexUnsigned?
  constructor
  · intro h
    dsimp only at h
    by_cases hwhole : isWhole (spanDigits cs).1 = true
    · rw [if_pos hwhole] at h
      obtain ⟨⟨fraction, cs₂⟩, hfraction, h⟩ := Option.bind_eq_some_iff.1 h
      obtain ⟨⟨exponent, r'⟩, hexponent, he⟩ := Option.bind_eq_some_iff.1 h
      cases he
      exact ⟨_, cs₂, rfl, hwhole, hfraction, hexponent, rfl⟩
    · rw [if_neg hwhole] at h
      cases h
  · rintro ⟨cs₁, cs₂, hspan, hwhole, hfraction, hexponent, rfl⟩
    rw [hspan]
    dsimp only
    rw [if_pos hwhole]
    refine Option.bind_eq_some_iff.2 ⟨_, hfraction, ?_⟩
    exact Option.bind_eq_some_iff.2 ⟨_, hexponent, rfl⟩

theorem lexUnsigned?_append {negative : Bool} {cs rest r : List Char} {l : Lexeme}
    (hrest : EndsNumber rest) (h : lexUnsigned? negative cs = some (l, r)) :
    lexUnsigned? negative (cs ++ rest) = some (l, r ++ rest) := by
  obtain ⟨cs₁, cs₂, hspan, hwhole, hfraction, hexponent, hnegative⟩ := lexUnsigned?_eq_some.1 h
  refine lexUnsigned?_eq_some.2 ⟨cs₁ ++ rest, cs₂ ++ rest, ?_, hwhole, ?_, ?_, hnegative⟩
  · rw [spanDigits_append_rest hrest.isDigit_head, hspan]
  · exact takeFraction?_append hrest hfraction
  · exact takeExponent?_append hrest hexponent

/-- What is a number begins with a sign or a digit. -/
theorem exists_cons_of_lex? {cs r : List Char} {l : Lexeme} (h : lex? cs = some (l, r)) :
    ∃ c cs', cs = c :: cs' ∧ (c = '-' ∨ isDigit c = true) := by
  cases cs with
  | nil => cases h
  | cons c cs =>
    refine ⟨c, cs, rfl, ?_⟩
    by_cases hc : c = '-'
    · exact .inl hc
    · rw [lex?_of_ne hc] at h
      obtain ⟨cs₁, cs₂, hspan, hwhole, -⟩ := lexUnsigned?_eq_some.1 h
      rw [spanDigits] at hspan
      -- without a digit in front there would be no whole part
      by_cases hdigit : isDigit c = true
      · exact .inr hdigit
      · rw [if_neg hdigit] at hspan
        rw [← (Prod.mk.inj hspan).1] at hwhole
        cases hwhole

theorem lex?_append {cs rest r : List Char} {l : Lexeme} (hrest : EndsNumber rest)
    (h : lex? cs = some (l, r)) : lex? (cs ++ rest) = some (l, r ++ rest) := by
  obtain ⟨c, cs, rfl, -⟩ := exists_cons_of_lex? h
  by_cases hc : c = '-'
  · subst hc
    rw [lex?_minus] at h
    rw [List.cons_append, lex?_minus]
    exact lexUnsigned?_append hrest h
  · rw [lex?_of_ne hc] at h
    rw [List.cons_append, lex?_of_ne hc, ← List.cons_append]
    exact lexUnsigned?_append hrest h

theorem take?_eq_some {cs r : List Char} {n : Number} :
    take? cs = some (n, r) ↔ ∃ l, lex? cs = some (l, r) ∧ l.value? = some n := by
  unfold take?
  constructor
  · intro h
    obtain ⟨⟨l, r'⟩, hlex, h⟩ := Option.bind_eq_some_iff.1 h
    obtain ⟨n', hvalue, he⟩ := Option.bind_eq_some_iff.1 h
    cases he
    exact ⟨l, hlex, hvalue⟩
  · rintro ⟨l, hlex, hvalue⟩
    exact Option.bind_eq_some_iff.2 ⟨_, hlex, Option.bind_eq_some_iff.2 ⟨n, hvalue, rfl⟩⟩

theorem ofText?_eq_some {cs : List Char} {n : Number} :
    ofText? cs = some n ↔ take? cs = some (n, []) := by
  unfold ofText?
  split
  · next n' htake => rw [htake, Option.some_inj, Option.some_inj, Prod.mk.injEq, and_iff_left rfl]
  · next hother =>
    constructor
    · intro h
      cases h
    · intro h
      exact absurd h (hother n)

/-- **Numbers inside a text.** What is a number as a whole is taken off the front of a longer
text. It is what makes numbers stand inside of arrays and objects. -/
theorem take?_append_of_ofText? {cs rest : List Char} {n : Number} (hrest : EndsNumber rest)
    (h : ofText? cs = some n) : take? (cs ++ rest) = some (n, rest) := by
  obtain ⟨l, hlex, hvalue⟩ := take?_eq_some.1 (ofText?_eq_some.1 h)
  exact take?_eq_some.2 ⟨l, lex?_append hrest hlex, hvalue⟩

/-! ## Integers are written as they were found -/

/-- What has a point or an exponent is no integer. -/
theorem Lexeme.value?_eq_integer {l : Lexeme} {i : Int} (h : l.value? = some (.integer i)) :
    l.fraction = none ∧ l.exponent = none ∧ ofDigits? l.negative l.whole = some (.integer i) := by
  unfold value? at h
  split at h
  · next hfraction hexponent => exact ⟨hfraction, hexponent, h⟩
  · obtain ⟨x, -, he⟩ := Option.map_eq_some_iff.1 h
    cases he

/-- Digits that are an integer are worth its size, and its sign is theirs. -/
theorem ofDigits?_eq_integer {negative : Bool} {whole : List Char} {i : Int}
    (h : ofDigits? negative whole = some (.integer i)) :
    i.natAbs = natOfDigits whole ∧ decide (i < 0) = negative := by
  unfold ofDigits? at h
  dsimp only at h
  cases negative with
  | true =>
    rw [if_pos rfl] at h
    by_cases hdouble : natOfDigits whole = 0 ∨ Nat.pow 2 63 < natOfDigits whole
    · rw [if_pos hdouble] at h
      obtain ⟨x, -, he⟩ := Option.map_eq_some_iff.1 h
      cases he
    · rw [if_neg hdouble] at h
      cases h
      have hne : natOfDigits whole ≠ 0 := fun he => hdouble (.inl he)
      refine ⟨by omega, decide_eq_true ?_⟩
      omega
  | false =>
    rw [if_neg Bool.false_ne_true] at h
    by_cases hinteger : natOfDigits whole ≤ wordMax
    · rw [if_pos hinteger] at h
      cases h
      refine ⟨by omega, decide_eq_false ?_⟩
      omega
    · rw [if_neg hinteger] at h
      obtain ⟨x, -, he⟩ := Option.map_eq_some_iff.1 h
      cases he

theorem takeFraction?_eq_none {cs r : List Char} (h : takeFraction? cs = some (none, r)) :
    r = cs := by
  unfold takeFraction? at h
  split at h
  · dsimp only at h
    split at h
    · cases h
    · cases h
  · cases h
    rfl

theorem takeExponent?_eq_none {cs r : List Char} (h : takeExponent? cs = some (none, r)) :
    r = cs := by
  unfold takeExponent? at h
  split at h
  · cases h
    rfl
  · split at h
    · dsimp only at h
      split at h
      · cases h
      · cases h
    · cases h
      rfl

/-- A number without point and exponent is its digits. -/
theorem eq_whole_of_lexUnsigned? {negative : Bool} {cs : List Char} {l : Lexeme}
    (h : lexUnsigned? negative cs = some (l, [])) (hfraction : l.fraction = none)
    (hexponent : l.exponent = none) :
    cs = l.whole ∧ l.negative = negative ∧ digitsOfNat (natOfDigits l.whole) = l.whole := by
  obtain ⟨cs₁, cs₂, hspan, hwhole, htake, htake', hnegative⟩ := lexUnsigned?_eq_some.1 h
  rw [hfraction] at htake
  rw [hexponent] at htake'
  have hrest : cs₁ = [] := by
    rw [← takeFraction?_eq_none htake, ← takeExponent?_eq_none htake']
  have happend := spanDigits_append cs
  have hdigits : ∀ c ∈ (spanDigits cs).1, isDigit c = true := fun c hc =>
    isDigit_of_mem_spanDigits hc
  rw [hspan] at happend hdigits
  rw [hrest] at happend
  refine ⟨?_, hnegative, digitsOfNat_natOfDigits hdigits hwhole⟩
  rw [← happend]
  exact List.append_nil _

/-- **Integers.** An integer is written as it was found. So a member of a number set that is an
integer of 64 bits is left as it is by the wire. -/
theorem text_of_ofText?_eq_integer {cs : List Char} {i : Int}
    (h : ofText? cs = some (.integer i)) : (Number.integer i).text = cs := by
  obtain ⟨l, hlex, hvalue⟩ := take?_eq_some.1 (ofText?_eq_some.1 h)
  obtain ⟨hfraction, hexponent, hdigits⟩ := l.value?_eq_integer hvalue
  obtain ⟨habs, hsign⟩ := ofDigits?_eq_integer hdigits
  obtain ⟨c, cs, rfl, -⟩ := exists_cons_of_lex? hlex
  rw [text, habs, hsign]
  by_cases hc : c = '-'
  · subst hc
    rw [lex?_minus] at hlex
    obtain ⟨rfl, hnegative, hwhole⟩ := eq_whole_of_lexUnsigned? hlex hfraction hexponent
    rw [hnegative, hwhole]
    rfl
  · rw [lex?_of_ne hc] at hlex
    obtain ⟨hcs, hnegative, hwhole⟩ := eq_whole_of_lexUnsigned? hlex hfraction hexponent
    rw [hnegative, hwhole, hcs]
    rfl

/-- A number reads back if the text that is written for it is that number. Integers do; a double
does if its shortest text is rounded correctly. -/
def ReadsBack (n : Number) : Prop := ofText? n.text = some n

theorem readsBack_integer {cs : List Char} {i : Int} (h : ofText? cs = some (.integer i)) :
    ReadsBack (.integer i) := by
  rw [ReadsBack, text_of_ofText?_eq_integer h]
  exact h

/-- What is not zero does not begin with one. -/
theorem head?_digitsOfNat {n : Nat} (hn : n ≠ 0) : (digitsOfNat n).head? ≠ some '0' := by
  induction n using Nat.strongRecOn with
  | ind n ih =>
    by_cases hsmall : n < 10
    · have hdigits : ∀ n < 10, n ≠ 0 → (digitsOfNat n).head? ≠ some '0' := by decide
      exact hdigits n hsmall hn
    -- the last digit is taken off, and the first one stays
    · have hsplit : digitsOfNat n = digitsOfNat (n / 10) ++ digitsOfNat (n % 10) := by
        rw [digitsOfNat, digitsOfNat, digitsOfNat,
          Nat.toDigits_append_toDigits (by omega) (by omega) (by omega), Nat.div_add_mod]
      obtain ⟨c, cs, hdigits, -⟩ := exists_cons_digitsOfNat (n / 10)
      have hfirst := ih (n / 10) (by omega) (by omega)
      rw [hsplit, hdigits]
      rw [hdigits] at hfirst
      exact hfirst

theorem isWhole_digitsOfNat (n : Nat) : isWhole (digitsOfNat n) = true := by
  by_cases hn : n = 0
  · subst hn
    rfl
  · have hfirst := head?_digitsOfNat hn
    obtain ⟨c, cs, hdigits, -⟩ := exists_cons_digitsOfNat n
    rw [hdigits] at hfirst ⊢
    refine isWhole_cons.2 (.inr ?_)
    rintro rfl
    exact hfirst rfl

/-- **Natural numbers** of 64 bits read back. Counts and limits are such numbers. -/
theorem readsBack_natCast {n : Nat} (h : n ≤ wordMax) : ReadsBack (.integer n) := by
  have htext : (Number.integer n).text = digitsOfNat n := by
    rw [text, Int.natAbs_natCast, decide_eq_false (by omega)]
    rfl
  have hspan : spanDigits (digitsOfNat n) = (digitsOfNat n, []) :=
    spanDigits_eq_self fun c hc => isDigit_of_mem_digitsOfNat hc
  have hvalue : ofDigits? false (digitsOfNat n) = some (.integer n) := by
    rw [ofDigits?, natOfDigits_digitsOfNat, if_neg Bool.false_ne_true, if_pos h]
  rw [ReadsBack, htext, ofText?_eq_some, take?_eq_some]
  refine ⟨⟨false, digitsOfNat n, none, none⟩, ?_, hvalue⟩
  obtain ⟨c, cs, hdigits, hc⟩ := exists_cons_digitsOfNat n
  have hsign : c ≠ '-' := by
    rintro rfl
    cases hc
  rw [hdigits, lex?_of_ne hsign, ← hdigits]
  exact lexUnsigned?_eq_some.2 ⟨[], [], hspan, isWhole_digitsOfNat n, rfl, rfl, rfl⟩

end Json.Number

end ItemStore
