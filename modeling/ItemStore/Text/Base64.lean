/-
Bytes as base64 text: the standard alphabet, always padded.

Three bytes are four characters of six bits each. A last group of one or two
bytes is padded with `=` to four characters, and the bits such a group has to
spare are zero; reading insists on the padding and on the zeros, so every list
of bytes has exactly one text.
-/
set_option autoImplicit false

namespace ItemStore.Text

namespace Base64

/-- The character for six bits. -/
def digit (n : Nat) : Char :=
  if n < 26 then Char.ofNat (65 + n)
  else if n < 52 then Char.ofNat (71 + n)
  else if n < 62 then Char.ofNat (n - 4)
  else if n = 62 then '+' else '/'

/-- The six bits a character stands for. -/
def value? (c : Char) : Option Nat :=
  let n := c.toNat
  if 65 ≤ n ∧ n ≤ 90 then some (n - 65)
  else if 97 ≤ n ∧ n ≤ 122 then some (n - 71)
  else if 48 ≤ n ∧ n ≤ 57 then some (n + 4)
  else if c = '+' then some 62
  else if c = '/' then some 63
  else none

/-- The padded text of some bytes. Descriptors carry bytes as this text
(`encode_binary`), and so do values that are shown as JSON. -/
def encode : List UInt8 → List Char
  | [] => []
  | [a] => [digit (a.toNat / 4), digit (a.toNat % 4 * 16), '=', '=']
  | [a, b] =>
    [digit (a.toNat / 4), digit (a.toNat % 4 * 16 + b.toNat / 16),
      digit (b.toNat % 16 * 4), '=']
  | a :: b :: c :: rest =>
    digit (a.toNat / 4) :: digit (a.toNat % 4 * 16 + b.toNat / 16) ::
      digit (b.toNat % 16 * 4 + c.toNat / 64) :: digit (c.toNat % 64) :: encode rest

/-- The byte a last group with two padding characters holds. -/
def lastOne? (w x : Char) : Option (List UInt8) := do
  let w ← value? w
  let x ← value? x
  if x % 16 = 0 then some [UInt8.ofNat (w * 4 + x / 16)] else none

/-- The bytes a last group with one padding character holds. -/
def lastTwo? (w x y : Char) : Option (List UInt8) := do
  let w ← value? w
  let x ← value? x
  let y ← value? y
  if y % 4 = 0 then
    some [UInt8.ofNat (w * 4 + x / 16), UInt8.ofNat (x % 16 * 16 + y / 4)]
  else none

/-- The bytes of a text, if it is a padded text without spare bits. Every text that is
accepted is the text of the bytes it gives, which makes bytes and texts correspond one
to one. -/
def decode? : List Char → Option (List UInt8)
  | [] => some []
  | [w, x, '=', '='] => lastOne? w x
  | [w, x, y, '='] => lastTwo? w x y
  | w :: x :: y :: z :: rest => do
    let w ← value? w
    let x ← value? x
    let y ← value? y
    let z ← value? z
    let more ← decode? rest
    some (UInt8.ofNat (w * 4 + x / 16) :: UInt8.ofNat (x % 16 * 16 + y / 4) ::
      UInt8.ofNat (y % 4 * 64 + z) :: more)
  | _ => none

/-- A character reads back as the six bits it was written for. -/
theorem value?_digit : ∀ n < 64, value? (digit n) = some n := by decide

/-- No character that stands for bits is padding. -/
theorem digit_ne_padding : ∀ n < 64, digit n ≠ '=' := by decide

/-- A group without padding, with whatever follows it. -/
theorem decode?_group {w x y z : Char} {i j k l : Nat} (hw : value? w = some i)
    (hx : value? x = some j) (hy : value? y = some k) (hz : value? z = some l) (hne : z ≠ '=')
    (rest : List Char) :
    decode? (w :: x :: y :: z :: rest) =
      (decode? rest).map fun more => UInt8.ofNat (i * 4 + j / 16) ::
        UInt8.ofNat (j % 16 * 16 + k / 4) :: UInt8.ofNat (k % 4 * 64 + l) :: more := by
  rw [decode?.eq_def]
  split
  · next h => cases h
  · next h =>
    cases h
    exact absurd rfl hne
  · next h =>
    cases h
    exact absurd rfl hne
  · next h =>
    cases h
    rw [hw, hx, hy, hz]
    cases decode? rest <;> rfl
  · next hother => exact (hother _ _ _ _ _ rfl).elim

/-- A byte is what its parts are put together to. -/
theorem ofNat_eq_of_toNat_eq {n : Nat} {a : UInt8} (h : n = a.toNat) : UInt8.ofNat n = a := by
  rw [h, UInt8.ofNat_toNat]

/-- **Bytes.** The text of some bytes is read as these bytes. -/
theorem decode?_encode (bytes : List UInt8) : decode? (encode bytes) = some bytes := by
  fun_induction encode bytes with
  | case1 => rfl
  | case2 a =>
    have ha : a.toNat < 256 := a.toNat_lt
    rw [decode?, lastOne?, value?_digit _ (by omega), value?_digit _ (by omega)]
    dsimp only [bind, Option.bind]
    rw [if_pos (by omega), ofNat_eq_of_toNat_eq (a := a) (by omega)]
  | case3 a b =>
    have ha : a.toNat < 256 := a.toNat_lt
    have hb : b.toNat < 256 := b.toNat_lt
    rw [decode?, lastTwo?, value?_digit _ (by omega), value?_digit _ (by omega),
      value?_digit _ (by omega)]
    dsimp only [bind, Option.bind]
    rw [if_pos (by omega), ofNat_eq_of_toNat_eq (a := a) (by omega),
      ofNat_eq_of_toNat_eq (a := b) (by omega)]
    -- the third character is a digit, so this is no group of one byte
    exact digit_ne_padding _ (by omega)
  | case4 a b c rest ih =>
    have ha : a.toNat < 256 := a.toNat_lt
    have hb : b.toNat < 256 := b.toNat_lt
    have hc : c.toNat < 256 := c.toNat_lt
    rw [decode?_group (value?_digit _ (by omega)) (value?_digit _ (by omega))
      (value?_digit _ (by omega)) (value?_digit _ (by omega)) (digit_ne_padding _ (by omega)),
      ih, Option.map_some, ofNat_eq_of_toNat_eq (a := a) (by omega),
      ofNat_eq_of_toNat_eq (a := b) (by omega), ofNat_eq_of_toNat_eq (a := c) (by omega)]

end Base64

end ItemStore.Text
