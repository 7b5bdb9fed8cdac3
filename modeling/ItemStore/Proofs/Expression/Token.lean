import ItemStore.Expression.Condition
import ItemStore.Expression.Update
import Mathlib.Data.List.Basic

/-
What tokens look like, and why the tokens of two values are never the same.

A token is a mark (`#` or `:`) and a nonempty word of letters, digits and low lines.
Which letters a path contributes is lost on the way, since a segment is sanitized, so
tokens of values cannot be told apart by their paths. They are told apart by their
tails instead. A tail is one of three forms, `_3`, `_3_v1` and `_u2`, and what stands
behind the last low line already tells the forms apart: a digit, a `v`, a `u`. A field
whose own name ends like a tail changes what stands before the last low line only.

The tokens are those of `name_placeholder` and `value_placeholder`; the words come from `sanitize`
and the tails from the count of `CompileContext`.
-/
set_option autoImplicit false

namespace ItemStore

/-! ## Words -/

/-- A text that can stand inside a token. It may be empty, which is what becomes of a segment
without a usable character. -/
def IsWord (cs : List Char) : Prop := ∀ c ∈ cs, Path.isTokenChar c = true

theorem IsWord.append {cs ds : List Char} (hc : IsWord cs) (hd : IsWord ds) :
    IsWord (cs ++ ds) := by
  intro c h
  rcases List.mem_append.1 h with h | h
  · exact hc c h
  · exact hd c h

theorem isWord_cons {c : Char} {cs : List Char} :
    IsWord (c :: cs) ↔ Path.isTokenChar c = true ∧ IsWord cs := by
  simp [IsWord]

theorem isWord_nil : IsWord [] := by simp [IsWord]

/-- Sanitizing leaves a word. -/
theorem isWord_sanitize (segment : String) : IsWord (Path.sanitize segment).toList := by
  intro c h
  rw [Path.sanitize, String.toList_ofList, List.mem_filter] at h
  exact h.2

/-- The decimal digits of a number are a word. -/
theorem isWord_toString (n : Nat) : IsWord (toString n).toList := by
  intro c h
  rw [Nat.toString_eq_repr, Nat.toList_repr] at h
  have hc : c.isDigit = true := Nat.isDigit_of_mem_toDigits (by omega) (by omega) h
  simp [Path.isTokenChar, Char.isAlphanum, hc]

/-- Different numbers have different digits. -/
theorem toDigits_injective {m n : Nat} (h : Nat.toDigits 10 m = Nat.toDigits 10 n) : m = n := by
  -- reading the digits gives the number back
  have hvalue := congrArg (fun digits => Nat.ofDigitChars 10 digits 0) h
  simpa only [Nat.ofDigitChars_ten_toDigits] using hvalue

/-- The digits of a number do not begin with a letter. -/
theorem toDigits_ne_cons {c : Char} (hc : c.isDigit = false) (n : Nat) (cs : List Char) :
    Nat.toDigits 10 n ≠ c :: cs := by
  intro h
  have hd : c.isDigit = true :=
    Nat.isDigit_of_mem_toDigits (b := 10) (n := n) (by omega) (by omega) (by simp [h])
  simp [hc] at hd

/-- Words put together with low lines are a word. -/
theorem isWord_intercalate {words : List String} (h : ∀ w ∈ words, IsWord w.toList) :
    IsWord ("_".intercalate words).toList := by
  induction words with
  | nil => simpa using isWord_nil
  | cons w words ih =>
    have hw : IsWord w.toList := h w (by simp)
    have hrest : IsWord ("_".intercalate words).toList := ih fun v hv => h v (by simp [hv])
    -- the last word has no low line behind it
    cases words with
    | nil => simpa using hw
    | cons v words =>
      rw [String.intercalate_cons_cons]
      simp only [String.toList_append]
      exact (hw.append (isWord_cons.2 ⟨by decide, isWord_nil⟩)).append hrest

/-- The word of a path really is one. -/
theorem isWord_word (p : Path) : IsWord p.word.toList := by
  refine isWord_intercalate fun w hw => ?_
  obtain ⟨segment, -, rfl⟩ := List.mem_map.1 hw
  exact isWord_sanitize segment

/-- A tail is a word if its suffix is one. -/
theorem isWord_tokenTail {suffix : String} (h : IsWord suffix.toList) :
    IsWord (tokenTail suffix).toList := by
  unfold tokenTail
  -- an empty suffix makes no tail at all, not even a low line
  split
  · simpa using isWord_nil
  · simp only [String.toList_append]
    exact IsWord.append (isWord_cons.2 ⟨by decide, isWord_nil⟩) h

/-! ## Tokens -/

/-- A token: a mark and a nonempty word. This is the form that the store takes for a placeholder,
and what `tokensOf` finds in an expression. -/
def IsToken (mark : Char) (token : String) : Prop :=
  ∃ word, word ≠ [] ∧ IsWord word ∧ token.toList = mark :: word

/-- The token of a segment, whatever the segment is. -/
theorem isToken_nameToken {suffix : String} (h : IsWord suffix.toList) (segment : String) :
    IsToken '#' (nameToken suffix segment) := by
  unfold nameToken
  -- a segment of which nothing is left is replaced by a low line
  by_cases hs : Path.sanitize segment = ""
  · refine ⟨'_' :: (tokenTail suffix).toList, by simp, ?_, by simp [hs]⟩
    exact isWord_cons.2 ⟨by decide, isWord_tokenTail h⟩
  · refine ⟨(Path.sanitize segment).toList ++ (tokenTail suffix).toList, by simp [hs], ?_,
      by simp [hs]⟩
    exact (isWord_sanitize segment).append (isWord_tokenTail h)

/-- Every variant of a token is a token with the same mark. -/
theorem IsToken.variant {mark : Char} {token : String} (h : IsToken mark token) (n : Nat) :
    IsToken mark (Bindings.tokenVariant token n) := by
  cases n with
  | zero => exact h
  | succ n =>
    obtain ⟨word, hne, hword, htoken⟩ := h
    refine ⟨word ++ '_' :: (toString (n + 1)).toList, by simp, ?_, ?_⟩
    · exact hword.append (isWord_cons.2 ⟨by decide, isWord_toString (n + 1)⟩)
    · simp [Bindings.tokenVariant, htoken]

/-- The token of a value, for any suffix that adds something. -/
theorem isToken_valueToken {suffix : String} (h : IsWord suffix.toList) (hne : suffix ≠ "")
    (p : Path) : IsToken ':' (p.valueToken suffix) := by
  refine ⟨p.word.toList ++ (tokenTail suffix).toList, ?_, ?_, ?_⟩
  · simp [tokenTail, hne]
  · exact (isWord_word p).append (isWord_tokenTail h)
  · simp [Path.valueToken]

/-! ## Variants of a token are all different -/

theorem tokenVariant_injective (token : String) :
    Function.Injective (Bindings.tokenVariant token) := by
  intro m n h
  have hlist := congrArg String.toList h
  -- the first variant is the token itself, and all others are longer
  cases m with
  | zero =>
    cases n with
    | zero => rfl
    | succ n => simp [Bindings.tokenVariant] at hlist
  | succ m =>
    cases n with
    | zero => simp [Bindings.tokenVariant] at hlist
    | succ n =>
      simp only [Bindings.tokenVariant, String.toList_append, List.append_assoc,
        List.append_cancel_left_eq, Nat.toString_eq_repr, Nat.toList_repr] at hlist
      exact toDigits_injective hlist

/-! ## Where the token of a value comes from -/

/-- What the tail of a value's token is made from. It is all that is needed to tell tokens apart:
the path is left out, because its word may be empty or the same for another path. -/
inductive ValueOrigin where
  /-- The only value of a test. -/
  | only (index : Nat)
  /-- The `k`-th of several values of a test. -/
  | nth (index k : Nat)
  /-- The value of an action of an update. -/
  | action (k : Nat)
  deriving DecidableEq

namespace ValueOrigin

/-- The suffix that belongs to the origin. Tests get the first two forms from `bind` of a leaf,
actions the third one. -/
def suffix : ValueOrigin → String
  | only index => toString index
  | nth index k => toString index ++ "_v" ++ toString k
  | action k => "u" ++ toString k

/-- The token of a value at a path. -/
def token (o : ValueOrigin) (p : Path) : String := p.valueToken o.suffix

/-- What stands behind the last low line of the token. Two tails are of one form only if they
begin alike, with a digit, a `v` or a `u`. -/
def tail : ValueOrigin → List Char
  | only index => Nat.toDigits 10 index
  | nth _ k => 'v' :: Nat.toDigits 10 k
  | action k => 'u' :: Nat.toDigits 10 k

/-- What stands between the path's word and the last low line. -/
def middle : ValueOrigin → List Char
  | only _ => []
  | nth index _ => '_' :: Nat.toDigits 10 index
  | action _ => []

theorem isWord_suffix (o : ValueOrigin) : IsWord o.suffix.toList := by
  cases o with
  | only index => exact isWord_toString index
  | nth index k =>
    simp only [suffix, String.toList_append]
    refine ((isWord_toString index).append ?_).append (isWord_toString k)
    exact isWord_cons.2 ⟨by decide, isWord_cons.2 ⟨by decide, isWord_nil⟩⟩
  | action k =>
    simp only [suffix, String.toList_append]
    exact IsWord.append (isWord_cons.2 ⟨by decide, isWord_nil⟩) (isWord_toString k)

theorem suffix_ne_empty (o : ValueOrigin) : o.suffix ≠ "" := by
  cases o with
  | only index => exact Nat.repr_ne_empty
  | nth index k => simp [suffix]
  | action k => simp [suffix]

theorem isToken_token (o : ValueOrigin) (p : Path) : IsToken ':' (o.token p) :=
  isToken_valueToken o.isWord_suffix o.suffix_ne_empty p

/-- The token cut at its last low line. -/
theorem toList_token (o : ValueOrigin) (p : Path) :
    (o.token p).toList = (':' :: p.word.toList ++ o.middle) ++ '_' :: o.tail := by
  have htail : tokenTail o.suffix = "_" ++ o.suffix := by simp [tokenTail, o.suffix_ne_empty]
  rw [token, Path.valueToken, htail]
  cases o <;> simp [suffix, middle, tail]

theorem lowLine_notMem_tail (o : ValueOrigin) : '_' ∉ o.tail := by
  cases o with
  | only index => exact Nat.underscore_not_in_toDigits
  | nth index k => simp [tail, Nat.underscore_not_in_toDigits]
  | action k => simp [tail, Nat.underscore_not_in_toDigits]

/-- Two texts with a mark in them that what stands behind it does not contain. -/
theorem append_cons_inj_right {α : Type} {a : α} {xs ys xs' ys' : List α} (h : a ∉ ys)
    (h' : a ∉ ys') (he : xs ++ a :: ys = xs' ++ a :: ys') : xs = xs' ∧ ys = ys' := by
  -- one front goes on where the other ends; if it is longer, its mark stands in the tail of
  -- the other text
  rcases List.append_eq_append_iff.1 he with ⟨gap, hxs, hgap⟩ | ⟨gap, hxs, hgap⟩
  · cases gap with
    | nil => exact ⟨by simpa using hxs.symm, by simpa using hgap⟩
    | cons b gap =>
      obtain ⟨-, rfl⟩ := List.cons.inj hgap
      simp at h
  · cases gap with
    | nil => exact ⟨by simpa using hxs, by simpa using hgap.symm⟩
    | cons b gap =>
      obtain ⟨-, rfl⟩ := List.cons.inj hgap
      simp at h'

/-- **Tokens tell origins apart.** Whatever the two paths are, their sanitized words being equal
or empty included, values of different origin have different tokens. Only the origins are
concluded to be equal and not the paths: two paths may be sanitized to one word, and then one
origin has one token for both. -/
theorem token_inj {o o' : ValueOrigin} {p p' : Path} (h : o.token p = o'.token p') : o = o' := by
  have hl := congrArg String.toList h
  rw [toList_token, toList_token] at hl
  -- no tail contains a low line, so both texts are cut at the same place
  obtain ⟨hfront, htail⟩ :=
    append_cons_inj_right o.lowLine_notMem_tail o'.lowLine_notMem_tail hl
  cases o with
  | only i =>
    cases o' with
    | only i' => rw [toDigits_injective htail]
    | nth i' k' => exact absurd htail (toDigits_ne_cons (by decide) i _)
    | action k' => exact absurd htail (toDigits_ne_cons (by decide) i _)
  | nth i k =>
    cases o' with
    | only i' => exact absurd htail.symm (toDigits_ne_cons (by decide) i' _)
    | nth i' k' =>
      -- the tails give `k`; the index stands behind the low line before them
      have hk : k = k' := toDigits_injective (List.cons.inj htail).2
      have hi : i = i' := by
        obtain ⟨-, hdigits⟩ := append_cons_inj_right (a := '_')
          Nat.underscore_not_in_toDigits Nat.underscore_not_in_toDigits hfront
        exact toDigits_injective hdigits
      rw [hi, hk]
    | action k' => simp [tail] at htail
  | action k =>
    cases o' with
    | only i' => exact absurd htail.symm (toDigits_ne_cons (by decide) i' _)
    | nth i' k' => simp [tail] at htail
    | action k' => rw [toDigits_injective (List.cons.inj htail).2]

end ValueOrigin

end ItemStore
