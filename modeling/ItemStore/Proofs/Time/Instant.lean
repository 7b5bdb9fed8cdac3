import ItemStore.Proofs.Decimal.Digits
import ItemStore.Proofs.Time.Calendar
import ItemStore.Time.Instant

/-
The text of an instant names it, up to milliseconds.

A text is made of numbers of fixed width, so it is read from the front: each number is taken
off with a fact about `padded`, and the characters between them compute. Two things have to
be checked about the numbers. A year has to fit into four digits, because only such years are
read. And a leap second is written as second 60 and comes back as the second before it, which
is where it was if it followed second 59. After any other second it is written, and comes back,
as the next one (`Instant.shown`).

The texts are those of `format_date`, and they are read by `parse_date`.
-/
set_option autoImplicit false

namespace ItemStore.Time

open Decimal

/-! ## Numbers of a fixed width -/

theorem length_padded {width n : Nat} (hwidth : 0 < width) (h : n < 10 ^ width) :
    (padded width n).length = width := by
  have hdigits : (digitsOfNat n).length ≤ width :=
    (Nat.length_toDigits_le_iff (by omega) hwidth).2 h
  rw [padded, List.length_append, List.length_replicate]
  omega

theorem isDigit_of_mem_padded {c : Char} {width n : Nat} (h : c ∈ padded width n) :
    isDigit c = true := by
  rw [padded] at h
  rcases List.mem_append.1 h with h | h
  · exact isDigit_of_mem_replicate h
  · exact isDigit_of_mem_digitsOfNat h

theorem natOfDigits_padded (width n : Nat) : natOfDigits (padded width n) = n := by
  rw [padded, natOfDigits_replicate_append, natOfDigits_digitsOfNat]

/-- A number is taken off where it was written. -/
theorem takeNumber?_padded {width n : Nat} (hwidth : 0 < width) (h : n < 10 ^ width)
    (rest : List Char) : takeNumber? width (padded width n ++ rest) = some (n, rest) := by
  -- the number fills its width, so it is cut off at its own end
  have hlength : (padded width n).length = width := length_padded hwidth h
  have htake : (padded width n ++ rest).take width = padded width n := by
    rw [List.take_append_of_le_length hlength.ge, List.take_of_length_le hlength.le]
  have hdrop : (padded width n ++ rest).drop width = rest := by
    rw [List.drop_append_of_le_length hlength.ge, List.drop_of_length_le hlength.le]
    rfl
  have hall : (padded width n).all isDigit = true :=
    List.all_eq_true.2 fun c hc => isDigit_of_mem_padded hc
  simp only [takeNumber?, htake, hdrop, hlength, hall, natOfDigits_padded, and_self, if_true]

theorem takeChar?_cons (c : Char) (rest : List Char) : takeChar? c (c :: rest) = some rest := by
  rw [takeChar?, if_pos rfl]

/-! ## Dates -/

/-- A date of the calendar is taken off where it was written. -/
theorem takeDate?_text {date : Date} (hvalid : date.isValid = true) (h0 : 0 ≤ date.year)
    (h1 : date.year ≤ 9999) (rest : List Char) :
    takeDate? (yearText date.year ++ '-' :: padded 2 date.month ++ '-' :: padded 2 date.day ++
      rest) = some (date, rest) := by
  obtain ⟨year, month, day⟩ := date
  have hvalid' : 1 ≤ day ∧ day ≤ daysInMonth year month := by
    simpa only [Date.isValid, Bool.and_eq_true, decide_eq_true_eq] using hvalid
  have hday : day ≤ 31 := hvalid'.2.trans (daysInMonth_le year month)
  -- there is no thirteenth month, because it would have no days
  have hmonth : month ≤ 12 := by
    by_contra hlate
    have hnone := daysInMonth_of_lt (Nat.not_le.1 hlate) year
    omega
  have hyear0 : 0 ≤ year := h0
  have hyear1 : year ≤ 9999 := h1
  obtain ⟨n, hn⟩ : ∃ n : Nat, year = n := ⟨year.toNat, by omega⟩
  subst hn
  -- a year of four digits is written without a sign
  have hyear : yearText (n : Int) = padded 4 n := by
    rw [yearText, if_neg (by omega), if_pos hyear1, Int.natAbs_natCast]
  rw [hyear]
  simp only [List.append_assoc, List.cons_append]
  rw [takeDate?, takeNumber?_padded (by omega) (by omega)]
  simp only [Option.bind_eq_bind, Option.bind_some, takeChar?_cons]
  rw [takeNumber?_padded (by omega) (by omega)]
  simp only [Option.bind_some, takeChar?_cons]
  rw [takeNumber?_padded (by omega) (by omega)]
  simp only [Option.bind_some, hvalid, if_true]

/-! ## Times of day -/

/-- Three digits of a fraction are milliseconds. -/
theorem takeFraction?_padded {millis : Nat} (h : millis < 1000) {rest : List Char}
    (hrest : ∀ c ∈ rest.head?, isDigit c = false) :
    takeFraction? ('.' :: (padded 3 millis ++ rest)) = some (millis * 1000000, rest) := by
  -- the run of digits ends before the mark of UTC, and only its first nine count
  have hspan : spanDigits (padded 3 millis ++ rest) = (padded 3 millis, rest) :=
    spanDigits_append_eq (fun _ hc => isDigit_of_mem_padded hc) hrest
  have hlength : (padded 3 millis).length = 3 := length_padded (by omega) (by omega)
  have hused : (padded 3 millis).take 9 = padded 3 millis :=
    List.take_of_length_le (by omega)
  have hnonempty : (padded 3 millis).isEmpty = false := by
    rw [← Bool.not_eq_true, List.isEmpty_iff_length_eq_zero]
    omega
  simp only [takeFraction?, hspan, hused, hnonempty, natOfDigits_padded, hlength]
  rfl

/-- A time of day is taken off where it was written. -/
theorem takeTime?_text {hour minute second millis : Nat} (hhour : hour < 24)
    (hminute : minute < 60) (hsecond : second ≤ 60) (hmillis : millis < 1000)
    {rest : List Char} (hrest : ∀ c ∈ rest.head?, isDigit c = false) :
    takeTime? (padded 2 hour ++ ':' :: padded 2 minute ++ ':' :: padded 2 second ++
      '.' :: padded 3 millis ++ rest) =
      some (if second = 60 then ((hour * 60 + minute) * 60 + 59, millis * 1000000 + 1000000000)
        else ((hour * 60 + minute) * 60 + second, millis * 1000000), rest) := by
  simp only [List.append_assoc, List.cons_append]
  rw [takeTime?, takeNumber?_padded (by omega) (by omega)]
  simp only [Option.bind_eq_bind, Option.bind_some, takeChar?_cons]
  rw [takeNumber?_padded (by omega) (by omega)]
  simp only [Option.bind_some, takeChar?_cons]
  rw [takeNumber?_padded (by omega) (by omega)]
  simp only [Option.bind_some]
  rw [takeFraction?_padded hmillis hrest]
  simp only [Option.bind_some]
  rw [if_pos ⟨hhour, hminute, hsecond⟩]

/-! ## Instants -/

/-- The year of an instant in UTC. The year in UTC counts, whatever the offset was that an instant
was given with. -/
def Instant.year (t : Instant) : Int := (Date.ofDays (t.seconds / 86400)).year

/-- The instant that the text of an instant names: whole milliseconds of the same second. A leap
second stays in the second that it follows, if that is the last one of a minute. In any other
place a clock has no second to show it as but the next one, so there it is that one. Its text is
that of the instant itself. -/
def Instant.shown (t : Instant) : Instant :=
  let nanos := t.nanos / 1000000 % 1000 * 1000000
  if t.nanos < 1000000000 then { t with nanos }
  else if t.seconds % 60 = 59 then { t with nanos := 1000000000 + nanos }
  else { seconds := t.seconds + 1, nanos }

section Shown

variable {t : Instant}

theorem Instant.shown_of_lt (h : t.nanos < 1000000000) :
    t.shown = ⟨t.seconds, t.nanos / 1000000 % 1000 * 1000000⟩ := by
  rw [shown, if_pos h]

theorem Instant.shown_of_last (h : 1000000000 ≤ t.nanos) (hlast : t.seconds % 60 = 59) :
    t.shown = ⟨t.seconds, 1000000000 + t.nanos / 1000000 % 1000 * 1000000⟩ := by
  rw [shown, if_neg (Nat.not_lt.2 h), if_pos hlast]

theorem Instant.shown_of_not_last (h : 1000000000 ≤ t.nanos) (hlast : t.seconds % 60 ≠ 59) :
    t.shown = ⟨t.seconds + 1, t.nanos / 1000000 % 1000 * 1000000⟩ := by
  rw [shown, if_neg (Nat.not_lt.2 h), if_neg hlast]

/-- The parts of a text: a date, a time of day and the mark of UTC. -/
theorem Instant.text_eq {date : Date} {hour minute second millis : Nat}
    (hdate : date = Date.ofDays (t.seconds / 86400))
    (hhour : hour = (t.seconds % 86400).toNat / 3600)
    (hminute : minute = (t.seconds % 86400).toNat / 60 % 60)
    (hsecond : second =
      (t.seconds % 86400).toNat % 60 + if 1000000000 ≤ t.nanos then 1 else 0)
    (hmillis : millis = t.nanos / 1000000 % 1000) :
    t.text =
      yearText date.year ++ '-' :: padded 2 date.month ++ '-' :: padded 2 date.day ++
        'T' :: (padded 2 hour ++ ':' :: padded 2 minute ++ ':' :: padded 2 second ++
          '.' :: padded 3 millis ++ ['Z']) := by
  rw [hsecond, hmillis, hminute, hhour, hdate]
  simp only [Instant.text, List.append_assoc, List.cons_append]

/-- **Instants are read back** as what is shown of them. Nothing is asked of an instant but its
year. -/
theorem Instant.read?_text (h0 : 0 ≤ t.year) (h1 : t.year ≤ 9999) :
    Instant.read? t.text = some t.shown := by
  obtain ⟨hvalid, hdays⟩ := ofDays_spec (t.seconds / 86400)
  obtain ⟨date, hdate⟩ : ∃ date, date = Date.ofDays (t.seconds / 86400) := ⟨_, rfl⟩
  obtain ⟨n, hn⟩ : ∃ n, n = (t.seconds % 86400).toNat := ⟨_, rfl⟩
  obtain ⟨millis, hmillis⟩ : ∃ millis, millis = t.nanos / 1000000 % 1000 := ⟨_, rfl⟩
  rw [Instant.year, ← hdate] at h0 h1
  rw [← hdate] at hvalid hdays
  have hday : n < 86400 := by omega
  have hbelow : millis < 1000 := by omega
  have hseconds : t.seconds = t.seconds / 86400 * 86400 + n := by omega
  -- hours, minutes and seconds make up the second of the day again
  have hclock : (n / 3600 * 60 + n / 60 % 60) * 60 + n % 60 = n := by omega
  have hoffset : takeOffset? ['Z'] = some (0, []) := rfl
  have hmark : ∀ c ∈ ['Z'].head?, isDigit c = false := by
    intro c hc
    cases hc
    rfl
  rw [Instant.text_eq hdate rfl rfl rfl hmillis, ← hn, Instant.read?,
    takeDate?_text hvalid h0 h1]
  simp only [Option.bind_eq_bind, Option.bind_some, true_or, if_true]
  by_cases hnanos : 1000000000 ≤ t.nanos
  · rw [if_pos hnanos, takeTime?_text (by omega) (by omega) (by omega) hbelow hmark]
    by_cases hlast : t.seconds % 60 = 59
    · -- a leap second at the end of a minute is written as second 60
      have hsecond : n % 60 + 1 = 60 := by omega
      simp only [Option.bind_some, if_pos hsecond, if_true, hoffset, List.isEmpty_nil]
      rw [shown_of_last hnanos hlast]
      exact congrArg some (congrArg₂ Instant.mk (by omega) (by omega))
    · -- any other second that runs on is written as the next one
      have hsecond : n % 60 + 1 ≠ 60 := by omega
      simp only [Option.bind_some, if_neg hsecond, if_true, hoffset, List.isEmpty_nil]
      rw [shown_of_not_last hnanos hlast]
      exact congrArg some (congrArg₂ Instant.mk (by omega) (by omega))
  · -- second 60 is not reached, and nothing is taken for a leap second
    have hsecond : n % 60 + 0 ≠ 60 := by omega
    rw [if_neg hnanos, takeTime?_text (by omega) (by omega) (by omega) hbelow hmark]
    simp only [Option.bind_some, if_neg hsecond, if_true, hoffset, List.isEmpty_nil]
    rw [shown_of_lt (Nat.not_le.1 hnanos)]
    exact congrArg some (congrArg₂ Instant.mk (by omega) (by omega))

/-- What is shown of an instant has the text of the instant. -/
theorem Instant.text_shown (t : Instant) : t.shown.text = t.text := by
  rw [Instant.text_eq (t := t) rfl rfl rfl rfl rfl]
  by_cases hnanos : 1000000000 ≤ t.nanos
  · by_cases hlast : t.seconds % 60 = 59
    · rw [shown_of_last hnanos hlast]
      refine Instant.text_eq rfl rfl rfl ?_ (by dsimp only; omega)
      rw [if_pos hnanos, if_pos (Nat.le_add_right _ _)]
    · rw [shown_of_not_last hnanos hlast]
      -- the next second is one of the same minute
      have hdate : (t.seconds + 1) / 86400 = t.seconds / 86400 := by omega
      refine Instant.text_eq (by rw [hdate]) (by dsimp only; omega) (by dsimp only; omega) ?_
        (by dsimp only; omega)
      dsimp only
      rw [if_pos hnanos, if_neg (by omega)]
      omega
  · rw [shown_of_lt (Nat.not_le.1 hnanos)]
    refine Instant.text_eq rfl rfl rfl ?_ (by dsimp only; omega)
    dsimp only
    rw [if_neg hnanos, if_neg (by omega)]

end Shown

/-- A leap second is kept at the end of a minute and nowhere else. -/
example : Instant.read? (Instant.text ⟨59, 1500000001⟩) = some ⟨59, 1500000000⟩ ∧
    Instant.read? (Instant.text ⟨0, 1500000001⟩) = some ⟨1, 500000000⟩ := by decide +kernel

/-- A text names no instant if it does not begin with a digit. -/
theorem Instant.read?_cons_eq_none {c : Char} (h : isDigit c = false) (cs : List Char) :
    Instant.read? (c :: cs) = none := by
  have hyear : takeNumber? 4 (c :: cs) = none := by
    simp [takeNumber?, h]
  simp [Instant.read?, takeDate?, hyear]

/-- A year that has not just four digits is written with a sign in front, and no text that
begins with a sign is read. -/
theorem Instant.read?_text_eq_none {t : Instant} (h : ¬ (0 ≤ t.year ∧ t.year ≤ 9999)) :
    Instant.read? t.text = none := by
  rw [Instant.text_eq rfl rfl rfl rfl rfl, yearText]
  by_cases hneg : (Date.ofDays (t.seconds / 86400)).year < 0
  · rw [if_pos hneg]
    exact read?_cons_eq_none (by decide) _
  · have hlate : ¬ (Date.ofDays (t.seconds / 86400)).year ≤ 9999 := by
      rw [Instant.year] at h
      omega
    rw [if_neg hneg, if_neg hlate]
    exact read?_cons_eq_none (by decide) _

end ItemStore.Time
