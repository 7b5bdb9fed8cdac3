/-
The Unicode property White_Space and the trimming that rests on it.

A number's text may be surrounded by white space of any script, so core's
four-character notion of white space is too small here. The property has
twenty-five characters and has not changed for years; it is written out.
-/
set_option autoImplicit false

namespace ItemStore.Text

/-- A character with the Unicode property White_Space. -/
def isBlank (c : Char) : Bool :=
  let n := c.toNat
  (0x09 ≤ n && n ≤ 0x0D) || n == 0x20 || n == 0x85 || n == 0xA0 || n == 0x1680 ||
    (0x2000 ≤ n && n ≤ 0x200A) || n == 0x2028 || n == 0x2029 || n == 0x202F ||
    n == 0x205F || n == 0x3000

/-- The text without the blanks at its two ends. Blanks inside the text stay.
`parse_number` and the store's reading of clauses rest on it. -/
def trim (cs : List Char) : List Char :=
  ((cs.dropWhile isBlank).reverse.dropWhile isBlank).reverse

/-- A text with no blank in it is left alone. -/
theorem trim_eq_self {cs : List Char} (h : ∀ c ∈ cs, isBlank c = false) : trim cs = cs := by
  have drop : ∀ ds : List Char, (∀ c ∈ ds, isBlank c = false) → ds.dropWhile isBlank = ds := by
    intro ds hd
    cases ds with
    | nil => rfl
    | cons c ds => simp [List.dropWhile, hd c (by simp)]
  rw [trim, drop cs h, drop _ (fun c hc => h c (by simpa using hc)), List.reverse_reverse]

end ItemStore.Text
