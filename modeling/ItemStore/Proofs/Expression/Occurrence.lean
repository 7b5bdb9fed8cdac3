import ItemStore.Proofs.Expression.Test
import Mathlib.Data.List.TakeWhile

/-
The tokens that occur in a text.

The store finds the tokens of an expression by their marks: an occurrence is a mark and
the longest word behind it. That depends on the text alone, so it can be held against the
tables without asking where the text came from. What makes it easy to compute is that
every piece of an expression stands between characters that no token contains. At such a
character the text can be cut, and the occurrences of the pieces are all there are.
-/
set_option autoImplicit false

namespace ItemStore

/-- The tokens with a given mark in a text, from left to right. A mark without a word behind it
counts for nothing, as it does for the store. -/
def occurrences (mark : Char) : List Char → List String
  | [] => []
  | c :: cs =>
    if c = mark ∧ cs.takeWhile Path.isTokenChar ≠ [] then
      String.ofList (c :: cs.takeWhile Path.isTokenChar) :: occurrences mark cs
    else occurrences mark cs

/-- The tokens with a given mark in an expression. It is defined on any text, so a statement about
it says nothing of how the text came about. -/
def tokensOf (mark : Char) (text : String) : List String := occurrences mark text.toList

/-- A character that is neither the mark nor part of a word, so that tokens end there. -/
def IsSeparator (mark c : Char) : Prop := c ≠ mark ∧ Path.isTokenChar c = false

/-! ## Cutting a text -/

@[simp] theorem occurrences_nil (mark : Char) : occurrences mark [] = [] := rfl

theorem occurrences_cons_of_ne {mark c : Char} (h : c ≠ mark) (cs : List Char) :
    occurrences mark (c :: cs) = occurrences mark cs := by
  rw [occurrences, if_neg (fun hc => h hc.1)]

/-- A word goes on as far as the text does not end. -/
theorem takeWhile_append_separator {c : Char} (h : Path.isTokenChar c = false)
    (cs ds : List Char) :
    (cs ++ c :: ds).takeWhile Path.isTokenChar = cs.takeWhile Path.isTokenChar := by
  induction cs with
  | nil => simp [h]
  | cons b cs ih =>
    rw [List.cons_append, List.takeWhile_cons, List.takeWhile_cons, ih]

/-- **A text can be cut at a separator.** The character may be part of neither side, so what is
found on one side does not depend on the other. -/
theorem occurrences_append_cons {mark c : Char} (h : IsSeparator mark c) (cs ds : List Char) :
    occurrences mark (cs ++ c :: ds) = occurrences mark cs ++ occurrences mark ds := by
  induction cs with
  | nil => exact occurrences_cons_of_ne h.1 ds
  | cons b cs ih =>
    rw [List.cons_append, occurrences, takeWhile_append_separator h.2, ih, occurrences]
    -- an occurrence that begins before the separator also ends before it
    split
    · rw [List.cons_append]
    · rfl

/-- There is nothing to find where the mark is missing. -/
theorem occurrences_eq_nil {mark : Char} {cs : List Char} (h : mark ∉ cs) :
    occurrences mark cs = [] := by
  induction cs with
  | nil => rfl
  | cons c cs ih =>
    obtain ⟨hc, hcs⟩ := not_or.1 (fun hor => h (List.mem_cons.2 hor))
    rw [occurrences_cons_of_ne (Ne.symm hc), ih hcs]

/-- Whatever is found is a token. -/
theorem isToken_of_mem_tokensOf {mark : Char} {text t : String} (h : t ∈ tokensOf mark text) :
    IsToken mark t := by
  rw [tokensOf] at h
  generalize text.toList = cs at h
  induction cs with
  | nil => cases h
  | cons c cs ih =>
    rw [occurrences] at h
    split at h
    · next hfound =>
      rcases List.mem_cons.1 h with rfl | h
      · refine ⟨_, hfound.2, ?_, by rw [String.toList_ofList, hfound.1]⟩
        intro x hx
        exact List.mem_takeWhile_imp hx
      · exact ih h
    · exact ih h

/-- A word has no mark in it. -/
theorem notMem_of_isWord {mark : Char} (hmark : Path.isTokenChar mark = false)
    {word : List Char} (h : IsWord word) : mark ∉ word := by
  intro hmem
  rw [h mark hmem] at hmark
  cases hmark

/-- A token has its mark and a word in it, and nothing else. -/
theorem IsToken.notMem {mark c : Char} {token : String} (h : IsToken mark token) (hmark : c ≠ mark)
    (hc : Path.isTokenChar c = false) : c ∉ token.toList := by
  obtain ⟨word, -, hword, htoken⟩ := h
  rw [htoken, List.mem_cons, not_or]
  exact ⟨hmark, notMem_of_isWord hc hword⟩

/-- In a token there is the token itself. -/
theorem tokensOf_token {mark : Char} (hmark : Path.isTokenChar mark = false) {token : String}
    (h : IsToken mark token) : tokensOf mark token = [token] := by
  obtain ⟨word, hne, hword, htoken⟩ := h
  have htake : word.takeWhile Path.isTokenChar = word :=
    List.takeWhile_eq_self_iff.2 hword
  -- the token takes the whole word, and inside a word no other token begins
  rw [tokensOf, htoken, occurrences, htake, if_pos ⟨rfl, hne⟩,
    occurrences_eq_nil (notMem_of_isWord hmark hword), ← htoken, String.ofList_toList]

/-- A token with another mark is not found. -/
theorem tokensOf_token_of_ne {mark mark' : Char} (hmark : Path.isTokenChar mark = false)
    (hne : mark' ≠ mark) {token : String} (h : IsToken mark' token) :
    tokensOf mark token = [] := by
  obtain ⟨word, -, hword, htoken⟩ := h
  rw [tokensOf, htoken, occurrences_cons_of_ne hne,
    occurrences_eq_nil (notMem_of_isWord hmark hword)]

/-! ## Pieces with separators between them -/

/-- A text that keeps the pieces on its two sides apart and has no tokens itself. It may hold
letters of its own, as `AND` does, as long as none of them touches a piece. -/
def Separates (mark : Char) (sep : String) : Prop :=
  ∀ cs ds, occurrences mark (cs ++ sep.toList ++ ds) = occurrences mark cs ++ occurrences mark ds

/-- A text between two separators, as long as the mark is not in it. -/
theorem separates_of_frame {mark first last : Char} {middle : List Char} {sep : String}
    (hfirst : IsSeparator mark first) (hlast : IsSeparator mark last) (hmiddle : mark ∉ middle)
    (hsep : sep.toList = first :: (middle ++ [last])) : Separates mark sep := by
  intro cs ds
  rw [hsep, List.append_assoc, List.cons_append, occurrences_append_cons hfirst,
    List.append_assoc, List.singleton_append, occurrences_append_cons hlast,
    occurrences_eq_nil hmiddle, List.nil_append]

theorem separates_of_singleton {mark c : Char} {sep : String} (h : IsSeparator mark c)
    (hsep : sep.toList = [c]) : Separates mark sep := by
  intro cs ds
  rw [hsep, List.append_assoc, List.singleton_append, occurrences_append_cons h]

namespace Separates

variable {mark : Char} {sep : String}

theorem tokensOf_append (h : Separates mark sep) (a b : String) :
    tokensOf mark (a ++ sep ++ b) = tokensOf mark a ++ tokensOf mark b := by
  rw [tokensOf, String.toList_append, String.toList_append, h]
  rfl

/-- A separating text at the front of another one. -/
theorem tokensOf_cons (h : Separates mark sep) (a : String) :
    tokensOf mark (sep ++ a) = tokensOf mark a := by
  have hcut := h [] a.toList
  rw [List.nil_append, occurrences_nil, List.nil_append] at hcut
  rw [tokensOf, String.toList_append, hcut]
  rfl

/-- A separating text at the end of another one. -/
theorem tokensOf_concat (h : Separates mark sep) (a : String) :
    tokensOf mark (a ++ sep) = tokensOf mark a := by
  have hcut := h a.toList []
  rw [List.append_nil, occurrences_nil, List.append_nil] at hcut
  rw [tokensOf, String.toList_append, hcut]
  rfl

theorem tokensOf_intercalate (h : Separates mark sep) (parts : List String) :
    tokensOf mark (sep.intercalate parts) = parts.flatMap (tokensOf mark) := by
  induction parts with
  | nil => simp [tokensOf]
  | cons p parts ih =>
    cases parts with
    | nil => simp
    | cons q parts =>
      rw [List.flatMap_cons, ← ih, String.intercalate_cons_cons, h.tokensOf_append]

end Separates

/-! ## The texts between the pieces of an expression -/

/-- The two marks. -/
def IsMark (mark : Char) : Prop := mark = '#' ∨ mark = ':'

namespace IsMark

variable {mark : Char}

theorem isTokenChar (h : IsMark mark) : Path.isTokenChar mark = false := by
  rcases h with rfl | rfl <;> decide

/-- The characters that stand between tokens. -/
theorem isSeparator (h : IsMark mark) {c : Char} (hc : c ∈ [' ', '(', ')', ',', '.']) :
    IsSeparator mark c := by
  obtain ⟨hname, hvalue, hword⟩ : c ≠ '#' ∧ c ≠ ':' ∧ Path.isTokenChar c = false := by
    -- five characters, each of them neither a mark nor part of a word
    simp only [List.mem_cons, List.not_mem_nil, or_false] at hc
    rcases hc with rfl | rfl | rfl | rfl | rfl <;> decide
  rcases h with rfl | rfl
  · exact ⟨hname, hword⟩
  · exact ⟨hvalue, hword⟩

/-- A text between two such characters. -/
theorem separates (h : IsMark mark) {first last : Char} (middle : List Char) {sep : String}
    (hfirst : first ∈ [' ', '(', ')', ',', '.']) (hlast : last ∈ [' ', '(', ')', ',', '.'])
    (hmiddle : '#' ∉ middle ∧ ':' ∉ middle) (hsep : sep.toList = first :: (middle ++ [last])) :
    Separates mark sep := by
  refine separates_of_frame (h.isSeparator hfirst) (h.isSeparator hlast) ?_ hsep
  rcases h with rfl | rfl
  · exact hmiddle.1
  · exact hmiddle.2

theorem separates_singleton (h : IsMark mark) {c : Char} {sep : String}
    (hc : c ∈ [' ', '(', ')', ',', '.']) (hsep : sep.toList = [c]) : Separates mark sep :=
  separates_of_singleton (h.isSeparator hc) hsep

theorem opening (h : IsMark mark) : Separates mark "(" :=
  h.separates_singleton (by decide) rfl

theorem closing (h : IsMark mark) : Separates mark ")" :=
  h.separates_singleton (by decide) rfl

theorem blank (h : IsMark mark) : Separates mark " " :=
  h.separates_singleton (by decide) rfl

theorem dot (h : IsMark mark) : Separates mark "." :=
  h.separates_singleton (by decide) rfl

theorem comma (h : IsMark mark) : Separates mark ", " :=
  h.separates [] (by decide) (by decide) (by decide) rfl

/-- A connective between two conditions. -/
theorem connective (h : IsMark mark) (c : Connective) :
    Separates mark (" " ++ c.keyword ++ " ") := by
  cases c with
  | and => exact h.separates ['A', 'N', 'D'] (by decide) (by decide) (by decide) rfl
  | or => exact h.separates ['O', 'R'] (by decide) (by decide) (by decide) rfl
  | not => exact h.separates ['N', 'O', 'T'] (by decide) (by decide) (by decide) rfl

/-- The spelling of an operator has no mark in it. -/
theorem notMem_text (h : IsMark mark) (operator : Operator) : mark ∉ operator.text.toList := by
  rcases h with rfl | rfl <;> cases operator <;> decide

theorem tokensOf_text (h : IsMark mark) (operator : Operator) :
    tokensOf mark operator.text = [] := occurrences_eq_nil (h.notMem_text operator)

/-- An operator between two operands. -/
theorem operator (h : IsMark mark) (operator : Operator) :
    Separates mark (" " ++ operator.text ++ " ") := by
  have hblank : IsSeparator mark ' ' := h.isSeparator (by decide)
  exact separates_of_frame hblank hblank (h.notMem_text operator) (by simp)

end IsMark

/-! ## Conditions -/

section Conditions

variable {mark : Char}

/-- In a function call there are the tokens of the arguments. -/
theorem tokensOf_call (h : IsMark mark) (operator : Operator) (arguments : List String) :
    tokensOf mark (call operator.text arguments) = arguments.flatMap (tokensOf mark) := by
  rw [call, h.closing.tokensOf_concat, h.opening.tokensOf_append, h.tokensOf_text,
    h.comma.tokensOf_intercalate, List.nil_append]

theorem tokensOf_comparison (h : IsMark mark) (left right : String) (operator : Operator) :
    tokensOf mark (comparison left operator right) =
      tokensOf mark left ++ tokensOf mark right := by
  have hform : comparison left operator right =
      left ++ (" " ++ operator.text ++ " ") ++ right := by
    simp [comparison, String.append_assoc]
  rw [hform, (h.operator operator).tokensOf_append]

/-- **In a test** there are the tokens of its path and then those of its values. The order is
kept, because the tokens of values are numbered in it. -/
theorem tokensOf_renders (h : IsMark mark) {name text : String} {operator : Operator}
    {operand : Operand} {tokens : List String}
    (ht : RendersTest name operator operand tokens text) :
    tokensOf mark text = tokensOf mark name ++ tokens.flatMap (tokensOf mark) := by
  -- the operator's own text is a separator or the name of a function, without tokens
  cases ht with
  | comparison hop => rw [tokensOf_comparison h, List.flatMap_singleton]
  | function hop => simp [tokensOf_call h]
  | presence hop => simp [tokensOf_call h]
  | between =>
    have hand : Separates mark " AND " := h.connective .and
    have hbetween : Separates mark " BETWEEN " :=
      h.separates "BETWEEN".toList (by decide) (by decide) (by decide) rfl
    rw [hand.tokensOf_append, hbetween.tokensOf_append]
    simp
  | isIn hne =>
    have hin : Separates mark " IN (" :=
      h.separates ['I', 'N', ' '] (by decide) (by decide) (by decide) rfl
    rw [h.closing.tokensOf_concat, hin.tokensOf_append, h.comma.tokensOf_intercalate]
  | size hop =>
    rw [tokensOf_comparison h, tokensOf_call h]
    simp

/-- In a group there are the tokens of its parts. -/
theorem tokensOf_joinParts (h : IsMark mark) (connective : Connective) (parts : List String) :
    tokensOf mark (joinParts connective parts) = parts.flatMap (tokensOf mark) := by
  have hand : Separates mark " AND " := h.connective .and
  have hnot : Separates mark "(NOT " :=
    h.separates ['N', 'O', 'T'] (by decide) (by decide) (by decide) rfl
  have hnots : Separates mark "(NOT (" :=
    h.separates ['N', 'O', 'T', ' '] (by decide) (by decide) (by decide) rfl
  have hend : Separates mark "))" :=
    h.separates [] (by decide) (by decide) (by decide) rfl
  have hjoin : ∀ c : Connective,
      tokensOf mark ("(" ++ (" " ++ c.keyword ++ " ").intercalate parts ++ ")") =
        parts.flatMap (tokensOf mark) := by
    intro c
    rw [h.closing.tokensOf_concat, h.opening.tokensOf_cons,
      (h.connective c).tokensOf_intercalate]
  cases connective with
  | and => exact hjoin .and
  | or => exact hjoin .or
  | not =>
    -- a negation has brackets inside only if it has several parts
    unfold joinParts
    split
    · rw [h.closing.tokensOf_concat, hnot.tokensOf_cons, List.flatMap_singleton]
    · rw [hend.tokensOf_concat, hnots.tokensOf_cons, hand.tokensOf_intercalate]
    · contradiction

end Conditions

end ItemStore
