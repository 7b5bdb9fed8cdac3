import ItemStore.Json.Scan
import ItemStore.Proofs.Json.Number
import Mathlib.Data.List.DropRight

/-
What a JSON text is.

The grammar is stated without the scanner: blanks may stand around every part, a character of a
string may be spelled in several ways, and a number is a row of digits with some parts around it
that may be absent. What double such a row is worth is left to the reader of numbers, which does
not always find the nearest one.

Strings and numbers are settled here, because nothing is nested in them. A string that is spelled
is read up to its closing quote. For numbers the grammar and the reader agree on both sides: a text
is taken for a number just when it spells one.

This is the grammar of RFC 8259. Texts that belong to it are what the reader has to deal with,
wherever they come from; the texts that are written here are a small part of them.
-/
set_option autoImplicit false

namespace ItemStore.Json

open Decimal

/-! ## Blanks -/

/-- Whether only blanks stand in a text. The four are all that may stand between the parts of a
text. -/
def AreBlank (cs : List Char) : Prop := ∀ c ∈ cs, c ∈ [' ', '\t', '\n', '\r']

instance (cs : List Char) : Decidable (AreBlank cs) :=
  List.decidableBAll (fun c => c ∈ [' ', '\t', '\n', '\r']) cs

theorem areBlank_nil : AreBlank [] := fun _ h => absurd h List.not_mem_nil

theorem isSpace_of_mem {c : Char} (h : c ∈ [' ', '\t', '\n', '\r']) : isSpace c = true := by
  simpa [isSpace, or_assoc] using h

theorem skipSpace_cons {c : Char} (h : isSpace c = false) (cs : List Char) :
    skipSpace (c :: cs) = c :: cs := by
  rw [skipSpace, List.dropWhile_cons_of_neg (Bool.eq_false_iff.1 h)]

theorem skipSpace_append {blanks : List Char} (h : AreBlank blanks) (cs : List Char) :
    skipSpace (blanks ++ cs) = skipSpace cs := by
  rw [skipSpace, List.dropWhile_append_of_pos fun c hc => isSpace_of_mem (h c hc), skipSpace]

theorem skipSpace_skipSpace (cs : List Char) : skipSpace (skipSpace cs) = skipSpace cs :=
  List.dropWhile_idempotent isSpace cs

/-- A part of a text and the blanks around it. The blanks are kept, so the text is known to the
letter. -/
structure Padded where
  before : List Char
  text : List Char
  after : List Char
  blank_before : AreBlank before
  blank_after : AreBlank after

/-- The part with its blanks. It is what stands in the text around it. -/
def Padded.chars (p : Padded) : List Char := p.before ++ p.text ++ p.after

/-- The part with the blanks behind it only. It is what is left to a reader that has passed over
the blanks in front. -/
def Padded.trim (p : Padded) : Padded :=
  { p with before := [], blank_before := areBlank_nil }

theorem Padded.chars_eq (p : Padded) : p.chars = p.before ++ p.trim.chars := by
  rw [chars, chars, trim, List.nil_append, List.append_assoc]

/-- Behind the blanks stands what follows. -/
theorem Padded.skipSpace_after (p : Padded) {c : Char} (h : isSpace c = false) (cs : List Char) :
    skipSpace (p.after ++ c :: cs) = c :: cs := by
  rw [skipSpace_append p.blank_after, skipSpace_cons h]

/-! ## Strings -/

/-- The escapes that are a backslash and one character, and what they stand for. The slash is
among them, although it need not be escaped. -/
def shortEscapes : List (Char × Char) :=
  [('"', '"'), ('\\', '\\'), ('/', '/'), ('b', '\x08'), ('f', '\x0c'), ('n', '\n'), ('r', '\r'),
    ('t', '\t')]

/-- A hexadecimal digit of either case, and its value. Digits of both cases may be mixed in one
escape. -/
def IsHex (c : Char) (n : Nat) : Prop := n < 16 ∧ (c = n.digitChar ∨ c = n.digitChar.toUpper)

instance (c : Char) (n : Nat) : Decidable (IsHex c n) :=
  inferInstanceAs (Decidable (n < 16 ∧ (c = n.digitChar ∨ c = n.digitChar.toUpper)))

/-- An escape of four hexadecimal digits, and their value. The value is a code unit, which may be
half a character. -/
inductive SpellsUnit : List Char → Nat → Prop
  | mk {a b c d : Char} {i j k l : Nat} (ha : IsHex a i) (hb : IsHex b j) (hc : IsHex c k)
    (hd : IsHex d l) : SpellsUnit ['\\', 'u', a, b, c, d] (((i * 16 + j) * 16 + k) * 16 + l)

/-- Characters, and a text for them between quotes. Characters outside the basic plane are spelled
as themselves or by two units, and a lone surrogate spells nothing. -/
inductive SpellsChars : List Char → List Char → Prop
  | nil : SpellsChars [] []
  | plain {c : Char} {cs text : List Char} (hcontrol : 0x20 ≤ c.toNat) (hquote : c ≠ '"')
    (hslash : c ≠ '\\') (h : SpellsChars cs text) : SpellsChars (c :: cs) (c :: text)
  | short {e c : Char} {cs text : List Char} (he : (e, c) ∈ shortEscapes)
    (h : SpellsChars cs text) : SpellsChars (c :: cs) ('\\' :: e :: text)
  | unit {unit : List Char} {c : Char} {cs text : List Char} (hunit : SpellsUnit unit c.toNat)
    (h : SpellsChars cs text) : SpellsChars (c :: cs) (unit ++ text)
  /-- A character beyond the first 65536 in two halves. -/
  | pair {unit unit' : List Char} {high low : Nat} {c : Char} {cs text : List Char}
    (hunit : SpellsUnit unit high) (hunit' : SpellsUnit unit' low)
    (hhigh : 0xD800 ≤ high ∧ high < 0xDC00) (hlow : 0xDC00 ≤ low ∧ low < 0xE000)
    (hc : c.toNat = 0x10000 + (high - 0xD800) * 0x400 + (low - 0xDC00))
    (h : SpellsChars cs text) : SpellsChars (c :: cs) (unit ++ (unit' ++ text))

/-- A string, and a text for it with its quotes. A string has many texts, and each text has one
string. -/
def SpellsString (s : String) (cs : List Char) : Prop :=
  ∃ text, SpellsChars s.toList text ∧ cs = '"' :: (text ++ ['"'])

/-- A character that needs no escape stands for itself. -/
theorem scanString?_cons {c : Char} (hquote : c ≠ '"') (hslash : c ≠ '\\')
    (hcontrol : ¬ c.toNat < 0x20) (cs : List Char) :
    scanString? (c :: cs) = consChar c (scanString? cs) := by
  rw [scanString?.eq_def]
  split
  · next he => cases he
  · next he =>
    cases he
    exact absurd rfl hquote
  · next he =>
    cases he
    exact absurd rfl hslash
  · next he =>
    cases he
    exact absurd rfl hslash
  · next he =>
    cases he
    rw [if_neg (not_or.2 ⟨hcontrol, hslash⟩)]

/-- A short escape is read as the character it stands for. -/
theorem scanString?_escape {e c : Char} (he : e ≠ 'u') (hc : unescape? e = some c)
    (cs : List Char) : scanString? ('\\' :: e :: cs) = consChar c (scanString? cs) := by
  rw [scanString?.eq_def]
  split
  · next h => cases h
  · next h => cases h
  · next h =>
    cases h
    exact absurd rfl he
  · next h =>
    cases h
    rw [hc]
  · next hother h =>
    cases h
    exact (hother e cs rfl rfl).elim

theorem unescape?_of_mem {e c : Char} (h : (e, c) ∈ shortEscapes) :
    e ≠ 'u' ∧ unescape? e = some c := by
  have hall : ∀ p ∈ shortEscapes, p.1 ≠ 'u' ∧ unescape? p.1 = some p.2 := by decide
  exact hall (e, c) h

theorem hexValue?_of_isHex {c : Char} {n : Nat} (h : IsHex c n) : hexValue? c = some n := by
  have hall : ∀ n < 16, hexValue? n.digitChar = some n ∧
      hexValue? n.digitChar.toUpper = some n := by decide
  obtain ⟨hn, rfl | rfl⟩ := h
  · exact (hall n hn).1
  · exact (hall n hn).2

/-- The four digits of an escape are worth what it says. -/
theorem exists_hexValue4? {unit : List Char} {n : Nat} (h : SpellsUnit unit n) :
    ∃ a b c d, unit = ['\\', 'u', a, b, c, d] ∧ hexValue4? a b c d = some n := by
  obtain ⟨ha, hb, hc, hd⟩ := h
  refine ⟨_, _, _, _, rfl, ?_⟩
  rw [hexValue4?, hexValue?_of_isHex ha, hexValue?_of_isHex hb, hexValue?_of_isHex hc,
    hexValue?_of_isHex hd]
  rfl

/-- A character is no half. -/
theorem isHalf_toNat (c : Char) : isHighHalf c.toNat = false ∧ isLowHalf c.toNat = false := by
  have hvalid : c.toNat < 0xd800 ∨ 0xdfff < c.toNat ∧ c.toNat < 0x110000 := c.valid
  rw [isHighHalf, isLowHalf, Bool.and_eq_false_iff, Bool.and_eq_false_iff]
  simp only [decide_eq_false_iff_not]
  omega

/-- A long escape is read as the character with its number. -/
theorem scanString?_unit {unit : List Char} {c : Char} (h : SpellsUnit unit c.toNat)
    (cs : List Char) : scanString? (unit ++ cs) = consChar c (scanString? cs) := by
  obtain ⟨i, j, k, l, rfl, hvalue⟩ := exists_hexValue4? h
  obtain ⟨hhigh, hlow⟩ := isHalf_toNat c
  simp only [List.cons_append, List.nil_append]
  rw [scanString?, hvalue]
  dsimp only
  rw [hhigh, hlow, Char.ofNat_toNat]
  rfl

/-- Two halves are read as the character that they spell. -/
theorem scanString?_pair {unit unit' : List Char} {high low : Nat} {c : Char}
    (h : SpellsUnit unit high) (h' : SpellsUnit unit' low)
    (hhigh : 0xD800 ≤ high ∧ high < 0xDC00) (hlow : 0xDC00 ≤ low ∧ low < 0xE000)
    (hc : c.toNat = 0x10000 + (high - 0xD800) * 0x400 + (low - 0xDC00)) (cs : List Char) :
    scanString? (unit ++ (unit' ++ cs)) = consChar c (scanString? cs) := by
  obtain ⟨i, j, k, l, rfl, hvalue⟩ := exists_hexValue4? h
  obtain ⟨i', j', k', l', rfl, hvalue'⟩ := exists_hexValue4? h'
  have hhalf : isHighHalf high = true := by
    rw [isHighHalf, Bool.and_eq_true, decide_eq_true_iff, decide_eq_true_iff]
    omega
  have hhalf' : isLowHalf low = true := by
    rw [isLowHalf, Bool.and_eq_true, decide_eq_true_iff, decide_eq_true_iff]
    omega
  have hjoin : joinHalves high low = c := by
    have hcode : (high - 0xD800) * 1024 + (low - 0xDC00) + 0x10000 = c.toNat := by omega
    rw [joinHalves, hcode, Char.ofNat_toNat]
  simp only [List.cons_append, List.nil_append]
  rw [scanString?, hvalue]
  dsimp only
  rw [if_pos hhalf]
  simp only [hvalue', hhalf', hjoin, if_true]

/-- **Strings.** What is spelled between quotes is read up to the closing quote. What follows is
arbitrary, because the closing quote ends a string in any surroundings. -/
theorem scanString?_spelled {cs text : List Char} (h : SpellsChars cs text) (rest : List Char) :
    scanString? (text ++ '"' :: rest) = some (cs, rest) := by
  induction h with
  | nil => rfl
  | plain hcontrol hquote hslash _ ih =>
    rw [List.cons_append, scanString?_cons hquote hslash (Nat.not_lt.2 hcontrol), ih]
    rfl
  | short he _ ih =>
    obtain ⟨hne, hc⟩ := unescape?_of_mem he
    rw [List.cons_append, List.cons_append, scanString?_escape hne hc, ih]
    rfl
  | unit hunit _ ih =>
    rw [List.append_assoc, scanString?_unit hunit, ih]
    rfl
  | pair hunit hunit' hhigh hlow hc _ ih =>
    rw [List.append_assoc, List.append_assoc, scanString?_pair hunit hunit' hhigh hlow hc, ih]
    rfl

/-! ## Numbers -/

namespace Number

/-- Digits, at least one. Leading zeros are allowed, as in a fraction. -/
def AreDigits (cs : List Char) : Prop := cs ≠ [] ∧ ∀ c ∈ cs, isDigit c = true

instance (cs : List Char) : Decidable (AreDigits cs) :=
  decidable_of_iff (cs ≠ [] ∧ cs.all isDigit = true) (by rw [AreDigits, List.all_eq_true])

/-- The digits behind a point, and a text for them. A point without digits behind it is none. -/
inductive SpellsFraction : Option (List Char) → List Char → Prop
  | absent : SpellsFraction none []
  | present {digits : List Char} (h : AreDigits digits) :
    SpellsFraction (some digits) ('.' :: digits)

/-- An exponent, and a text for it. Its sign may be left out, and it may begin with zeros. -/
inductive SpellsExponent : Option Int → List Char → Prop
  | absent : SpellsExponent none []
  | plain {e : Char} {digits : List Char} (he : e = 'e' ∨ e = 'E') (h : AreDigits digits) :
    SpellsExponent (some (natOfDigits digits)) (e :: digits)
  | plus {e : Char} {digits : List Char} (he : e = 'e' ∨ e = 'E') (h : AreDigits digits) :
    SpellsExponent (some (natOfDigits digits)) (e :: '+' :: digits)
  | minus {e : Char} {digits : List Char} (he : e = 'e' ∨ e = 'E') (h : AreDigits digits) :
    SpellsExponent (some (-natOfDigits digits)) (e :: '-' :: digits)

/-- A text for the parts of a number. A zero stands in front only if it is the whole part. The
parts are kept apart, since their texts are not all determined by the value. -/
inductive SpellsLexeme : Lexeme → List Char → Prop
  | mk {negative : Bool} {whole : List Char} {fraction : Option (List Char)} {exponent : Option Int}
    {point power : List Char} (hwhole : AreDigits whole)
    (hzero : whole.head? = some '0' → whole = ['0'])
    (hpoint : SpellsFraction fraction point) (hpower : SpellsExponent exponent power) :
    SpellsLexeme ⟨negative, whole, fraction, exponent⟩
      ((if negative then ['-'] else []) ++ whole ++ point ++ power)

theorem isWhole_iff {cs : List Char} :
    isWhole cs = true ↔ cs ≠ [] ∧ (cs.head? = some '0' → cs = ['0']) := by
  cases cs with
  | nil => simp [isWhole]
  | cons c cs =>
    rw [isWhole_cons]
    by_cases hc : c = '0'
    · simp [hc]
    · simp [hc]

/-- An exponent begins with its letter, and so does not go on a row of digits or begin with a
point. -/
theorem SpellsExponent.head {exponent : Option Int} {power : List Char}
    (h : SpellsExponent exponent power) : ∀ c ∈ power.head?, isDigit c = false ∧ c ≠ '.' := by
  have hletter : ∀ e : Char, e = 'e' ∨ e = 'E' → isDigit e = false ∧ e ≠ '.' := by
    rintro e (rfl | rfl) <;> decide
  intro c hc
  cases h with
  | absent => cases hc
  | plain he _ =>
    cases hc
    exact hletter _ he
  | plus he _ =>
    cases hc
    exact hletter _ he
  | minus he _ =>
    cases hc
    exact hletter _ he

/-- A row of digits that is taken as a whole. -/
theorem eq_of_spanDigits {cs : List Char} (hrest : (spanDigits cs).2 = [])
    (hne : ¬ (spanDigits cs).1.isEmpty = true) : (spanDigits cs).1 = cs ∧ AreDigits cs := by
  have happend := spanDigits_append cs
  rw [hrest, List.append_nil] at happend
  refine ⟨happend, ?_, ?_⟩
  · rintro rfl
    exact hne rfl
  · intro c hc
    rw [← happend] at hc
    exact isDigit_of_mem_spanDigits hc

theorem takeSign_cases (cs : List Char) :
    (∃ ds, cs = '-' :: ds ∧ takeSign cs = (true, ds)) ∨
      (∃ ds, cs = '+' :: ds ∧ takeSign cs = (false, ds)) ∨ takeSign cs = (false, cs) := by
  unfold takeSign
  split
  · exact .inl ⟨_, rfl, rfl⟩
  · exact .inr (.inl ⟨_, rfl, rfl⟩)
  · exact .inr (.inr rfl)

/-- Digits have no sign. -/
theorem takeSign_of_areDigits {digits : List Char} (h : AreDigits digits) :
    takeSign digits = (false, digits) := by
  rcases takeSign_cases digits with ⟨ds, rfl, -⟩ | ⟨ds, rfl, -⟩ | hsign
  · exact absurd (h.2 '-' List.mem_cons_self) (by decide)
  · exact absurd (h.2 '+' List.mem_cons_self) (by decide)
  · exact hsign

theorem spanDigits_of_areDigits {digits : List Char} (h : AreDigits digits) :
    spanDigits digits = (digits, []) ∧ ¬ digits.isEmpty = true :=
  ⟨spanDigits_eq_self h.2, fun hnil => h.1 (List.isEmpty_iff.1 hnil)⟩

theorem isDigit_head_append {fraction : Option (List Char)} {exponent : Option Int}
    {point power : List Char} (hpoint : SpellsFraction fraction point)
    (hpower : SpellsExponent exponent power) : ∀ c ∈ (point ++ power).head?, isDigit c = false := by
  cases hpoint with
  | absent => exact fun c hc => (hpower.head c hc).1
  | present _ =>
    intro c hc
    cases hc
    decide

/-- **Exponents** are what the reader takes for them. Only a text that is an exponent as a whole
is spoken of. -/
theorem takeExponent?_eq_some_iff {exponent : Option Int} {power : List Char} :
    takeExponent? power = some (exponent, []) ↔ SpellsExponent exponent power := by
  constructor
  · intro h
    cases power with
    | nil =>
      cases h
      exact .absent
    | cons e cs =>
      rw [takeExponent?] at h
      by_cases he : e = 'e' ∨ e = 'E'
      · rw [if_pos he] at h
        dsimp only at h
        by_cases hnil : (spanDigits (takeSign cs).2).1.isEmpty = true
        · rw [if_pos hnil] at h
          cases h
        · rw [if_neg hnil] at h
          obtain ⟨hexponent, hrest⟩ := Prod.mk.inj (Option.some.inj h)
          obtain ⟨hdigits, hare⟩ := eq_of_spanDigits hrest hnil
          rw [hdigits] at hexponent
          rcases takeSign_cases cs with ⟨ds, rfl, hsign⟩ | ⟨ds, rfl, hsign⟩ | hsign
          · rw [hsign] at hexponent hare
            exact hexponent ▸ .minus he hare
          · rw [hsign] at hexponent hare
            exact hexponent ▸ .plus he hare
          · rw [hsign] at hexponent hare
            exact hexponent ▸ .plain he hare
      · rw [if_neg he] at h
        cases h
  · intro h
    cases h with
    | absent => rfl
    | plain he hare =>
      obtain ⟨hspan, hne⟩ := spanDigits_of_areDigits hare
      rw [takeExponent?, if_pos he, takeSign_of_areDigits hare]
      dsimp only
      rw [hspan, if_neg hne]
      rfl
    | plus he hare =>
      obtain ⟨hspan, hne⟩ := spanDigits_of_areDigits hare
      rw [takeExponent?, if_pos he, takeSign]
      dsimp only
      rw [hspan, if_neg hne]
      rfl
    | minus he hare =>
      obtain ⟨hspan, hne⟩ := spanDigits_of_areDigits hare
      rw [takeExponent?, if_pos he, takeSign]
      dsimp only
      rw [hspan, if_neg hne]
      rfl

/-- A fraction is taken up to where its digits end. -/
theorem takeFraction?_append_spelled {fraction : Option (List Char)} {point rest : List Char}
    (h : SpellsFraction fraction point) (hrest : ∀ c ∈ rest.head?, isDigit c = false ∧ c ≠ '.') :
    takeFraction? (point ++ rest) = some (fraction, rest) := by
  cases h with
  | absent =>
    cases rest with
    | nil => rfl
    | cons c rest => exact takeFraction?_of_ne (hrest c rfl).2 rest
  | @present digits hare =>
    have hspan := spanDigits_append_eq hare.2 fun c hc => (hrest c hc).1
    rw [List.cons_append, takeFraction?, hspan]
    exact if_neg (spanDigits_of_areDigits hare).2

theorem exists_of_takeFraction? {fraction : Option (List Char)} {cs rest : List Char}
    (h : takeFraction? cs = some (fraction, rest)) :
    ∃ point, cs = point ++ rest ∧ SpellsFraction fraction point := by
  unfold takeFraction? at h
  split at h
  · next cs =>
    dsimp only at h
    by_cases hnil : (spanDigits cs).1.isEmpty = true
    · rw [if_pos hnil] at h
      cases h
    · rw [if_neg hnil] at h
      cases h
      refine ⟨'.' :: (spanDigits cs).1, ?_, .present ⟨?_, fun c hc => isDigit_of_mem_spanDigits hc⟩⟩
      · rw [List.cons_append, spanDigits_append]
      · exact fun hempty => hnil (List.isEmpty_iff.2 hempty)
  · cases h
    exact ⟨[], rfl, .absent⟩

/-- The parts of a number behind its sign. -/
theorem lexUnsigned?_eq_some_iff {negative : Bool} {cs : List Char} {l : Lexeme} :
    lexUnsigned? negative cs = some (l, []) ↔ l.negative = negative ∧ AreDigits l.whole ∧
      (l.whole.head? = some '0' → l.whole = ['0']) ∧ ∃ point power,
        cs = l.whole ++ (point ++ power) ∧ SpellsFraction l.fraction point ∧
          SpellsExponent l.exponent power := by
  rw [lexUnsigned?_eq_some]
  constructor
  · rintro ⟨cs₁, cs₂, hspan, hwhole, hfraction, hexponent, hnegative⟩
    obtain ⟨hne, hzero⟩ := isWhole_iff.1 hwhole
    obtain ⟨point, rfl, hpoint⟩ := exists_of_takeFraction? hfraction
    have happend := spanDigits_append cs
    have hdigits : ∀ c ∈ (spanDigits cs).1, isDigit c = true :=
      fun c hc => isDigit_of_mem_spanDigits hc
    rw [hspan] at happend hdigits
    exact ⟨hnegative, ⟨hne, hdigits⟩, hzero, point, cs₂, happend.symm, hpoint,
      takeExponent?_eq_some_iff.1 hexponent⟩
  · rintro ⟨hnegative, hare, hzero, point, power, rfl, hpoint, hpower⟩
    have hbehind := isDigit_head_append hpoint hpower
    exact ⟨point ++ power, power, spanDigits_append_eq hare.2 hbehind,
      isWhole_iff.2 ⟨hare.1, hzero⟩, takeFraction?_append_spelled hpoint hpower.head,
      takeExponent?_eq_some_iff.2 hpower, hnegative⟩

/-- **Numbers.** The reader takes just the texts that the grammar derives for numbers. It is an
equivalence, so nothing outside of the grammar is taken for a number. -/
theorem lex?_eq_some_iff {cs : List Char} {l : Lexeme} :
    lex? cs = some (l, []) ↔ SpellsLexeme l cs := by
  constructor
  · intro h
    obtain ⟨negative, whole, fraction, exponent⟩ := l
    obtain ⟨c, cs, rfl, -⟩ := exists_cons_of_lex? h
    by_cases hc : c = '-'
    · subst hc
      rw [lex?_minus, lexUnsigned?_eq_some_iff] at h
      obtain ⟨rfl, hwhole, hzero, point, power, rfl, hpoint, hpower⟩ := h
      have htext := @SpellsLexeme.mk true _ _ _ _ _ hwhole hzero hpoint hpower
      simpa [List.append_assoc] using htext
    · rw [lex?_of_ne hc, lexUnsigned?_eq_some_iff] at h
      obtain ⟨rfl, hwhole, hzero, point, power, hcs, hpoint, hpower⟩ := h
      rw [hcs]
      have htext := @SpellsLexeme.mk false _ _ _ _ _ hwhole hzero hpoint hpower
      simpa [List.append_assoc] using htext
  · intro h
    obtain @⟨negative, whole, fraction, exponent, point, power, hwhole, hzero, hpoint, hpower⟩ := h
    have hunsigned : lexUnsigned? negative (whole ++ (point ++ power)) =
        some (⟨negative, whole, fraction, exponent⟩, []) :=
      lexUnsigned?_eq_some_iff.2 ⟨rfl, hwhole, hzero, point, power, rfl, hpoint, hpower⟩
    cases negative with
    | true => simpa [lex?_minus] using hunsigned
    | false =>
      obtain ⟨c, cs, rfl⟩ := List.exists_cons_of_ne_nil hwhole.1
      have hc : c ≠ '-' := by
        rintro rfl
        exact absurd (hwhole.2 '-' List.mem_cons_self) (by decide)
      simpa [lex?_of_ne hc] using hunsigned

/-- A number, and a text for it. What double a row of digits is worth is for the reader to say. It
follows the reader in that alone. Where the text begins and ends, and what parts it has, are told
by the grammar. -/
def Spells (n : Number) (cs : List Char) : Prop := ∃ l, SpellsLexeme l cs ∧ l.value? = some n

theorem ofText?_eq_some_iff_spells {n : Number} {cs : List Char} :
    ofText? cs = some n ↔ n.Spells cs := by
  rw [ofText?_eq_some, take?_eq_some, Spells]
  simp only [lex?_eq_some_iff]

end Number

/-! ## Documents -/

/-- A member of an object with the texts of its key and its value. Keys are strings, so the key is
not a document. -/
structure Member where
  key : String
  keyText : Padded
  value : Document
  valueText : Padded

/-- The text of a member. The blanks belong to the key and to the value. -/
def Member.chars (m : Member) : List Char := m.keyText.chars ++ ':' :: m.valueText.chars

/-- A document, and a text for it without the blanks around it. An object keeps all members,
repeated keys too, in their order; what becomes of these is left to the type that is read. -/
inductive Spells : Document → List Char → Prop
  | null : Spells .null ['n', 'u', 'l', 'l']
  | yes : Spells (.bool true) ['t', 'r', 'u', 'e']
  | no : Spells (.bool false) ['f', 'a', 'l', 's', 'e']
  | number {n : Number} {cs : List Char} (h : n.Spells cs) : Spells (.number n) cs
  | string {s : String} {cs : List Char} (h : SpellsString s cs) : Spells (.string s) cs
  | emptyList {blanks : List Char} (h : AreBlank blanks) :
    Spells (.list []) ('[' :: (blanks ++ [']']))
  | list {items : List (Document × Padded)} (hne : items ≠ [])
    (h : ∀ i ∈ items, Spells i.1 i.2.text) :
    Spells (.list (items.map Prod.fst))
      ('[' :: ([','].intercalate (items.map fun i => i.2.chars) ++ [']']))
  | emptyRecord {blanks : List Char} (h : AreBlank blanks) :
    Spells (.record []) ('\x7b' :: (blanks ++ ['\x7d']))
  | record {members : List Member} (hne : members ≠ [])
    (hkeys : ∀ m ∈ members, SpellsString m.key m.keyText.text)
    (h : ∀ m ∈ members, Spells m.value m.valueText.text) :
    Spells (.record (members.map fun m => (m.key, m.value)))
      ('\x7b' :: ([','].intercalate (members.map Member.chars) ++ ['\x7d']))

/-- The document that a text is as a whole, blanks around it aside. Nothing else may stand behind
the document. -/
def IsTextOf (d : Document) (s : String) : Prop :=
  ∃ p : Padded, s.toList = p.chars ∧ Spells d p.text

end ItemStore.Json
