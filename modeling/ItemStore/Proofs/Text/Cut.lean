import ItemStore.Text.Blank
import ItemStore.Text.Split
import Mathlib.Data.List.Basic

/-
Where a text is cut.

A reader that looks for a mark takes its first occurrence, wherever it is. So to know where a text
is cut it is not enough to know that the mark was put in: nothing in front of it may happen to
spell the mark as well. For most marks that is settled by a single character, which the mark has
and the text in front has not (`cut?_of_notMem`). A mark that is a word and a blank needs more,
because a text may have any number of blanks: what counts then is how the words in front of them
end (`passes_word`). `Passes` is what such words have in common, and texts that are put together
of passing pieces pass.

The second half is about pieces with a separator between them. They are found again if no piece
has the comma of the separator in it, and blanks around a piece do not matter.
-/
set_option autoImplicit false

namespace ItemStore.Text

/-! ## The first occurrence of a mark -/

theorem cut?_eq_none_iff {mark cs : List Char} : cut? mark cs = none ↔ ¬ mark <:+: cs := by
  induction cs with
  | nil =>
    cases mark with
    | nil => simp [cut?, after?]
    | cons m mark => simp [cut?, after?]
  | cons c cs ih =>
    rw [List.infix_cons_iff, not_or, ← ih, cut?]
    -- the mark is at the front, or else it is looked for behind the first character
    cases hafter : after? mark (c :: cs) with
    | some rest =>
      have hlead : mark <+: c :: cs := ⟨rest, (after?_eq_some_iff.1 hafter).symm⟩
      simp [hlead]
    | none =>
      have hlead : ¬ mark <+: c :: cs := by
        rintro ⟨rest, hrest⟩
        rw [after?_eq_some_iff.2 hrest.symm] at hafter
        cases hafter
      simp [hlead]

/-- A text without one of the characters of the mark is not cut. -/
theorem cut?_eq_none_of_notMem {mark cs : List Char} {c : Char} (hmark : c ∈ mark)
    (h : c ∉ cs) : cut? mark cs = none := by
  rw [cut?_eq_none_iff]
  intro hinside
  exact h (hinside.subset hmark)

theorem cut?_eq_none_of_append {mark cs ds : List Char} (h : cut? mark (cs ++ ds) = none) :
    cut? mark cs = none := by
  rw [cut?_eq_none_iff] at h ⊢
  intro hinside
  exact h (hinside.trans (List.prefix_append cs ds).isInfix)

/-- A mark at the front is found there. -/
theorem cut?_append_self (mark rest : List Char) : cut? mark (mark ++ rest) = some ([], rest) := by
  have hafter : after? mark (mark ++ rest) = some rest := after?_eq_some_iff.2 rfl
  cases htext : mark ++ rest with
  | nil =>
    rw [htext] at hafter
    rw [cut?, hafter, Option.map_some]
  | cons c cs =>
    rw [htext] at hafter
    rw [cut?, hafter]

/-- A character that does not begin the mark is passed over. -/
theorem cut?_cons_of_after?_eq_none {mark cs : List Char} {c : Char}
    (h : after? mark (c :: cs) = none) :
    cut? mark (c :: cs) = (cut? mark cs).map fun p => (c :: p.1, p.2) := by
  rw [cut?, h]

/-- **A mark that begins with a new character.** Where that character does not stand in front of
the mark, the text is cut at the mark. It serves wherever the mark begins with a blank or a comma.
-/
theorem cut?_of_notMem {c : Char} {mark before : List Char} (h : c ∉ before)
    (rest : List Char) :
    cut? (c :: mark) (before ++ ((c :: mark) ++ rest)) = some (before, rest) := by
  induction before with
  | nil => exact cut?_append_self (c :: mark) rest
  | cons b before ih =>
    obtain ⟨hb, hbefore⟩ := not_or.1 (fun hmem => h (List.mem_cons.2 hmem))
    have hafter : after? (c :: mark) (b :: (before ++ ((c :: mark) ++ rest))) = none := by
      rw [after?, if_neg hb]
    rw [List.cons_append, cut?_cons_of_after?_eq_none hafter, ih hbefore, Option.map_some]

/-- **A mark that begins with a character of its own.** Such a mark does not overlap itself, so
the text is cut at the mark unless the text in front of it has the whole mark in it. The mark is
asked for as a whole, so parts of it may stand in front. -/
theorem cut?_of_not_inside {c : Char} {mark before : List Char} (hc : c ∉ mark)
    (h : ¬ c :: mark <:+: before) (rest : List Char) :
    cut? (c :: mark) (before ++ ((c :: mark) ++ rest)) = some (before, rest) := by
  induction before with
  | nil => exact cut?_append_self (c :: mark) rest
  | cons b before ih =>
    rw [List.infix_cons_iff, not_or] at h
    have hafter : after? (c :: mark) (b :: (before ++ ((c :: mark) ++ rest))) = none := by
      rw [Option.eq_none_iff_forall_ne_some]
      intro rest' hrest'
      have htext : b :: before ++ (c :: (mark ++ rest)) = (c :: mark) ++ rest' :=
        after?_eq_some_iff.1 hrest'
      rcases List.append_eq_append_iff.1 htext with ⟨tail, hmark, htail⟩ | ⟨tail, hbefore, -⟩
      · -- the mark would begin once more inside the mark, or right behind it
        cases tail with
        | nil =>
          rw [List.append_nil] at hmark
          exact h.1 (hmark ▸ List.prefix_rfl)
        | cons t tail =>
          obtain ⟨rfl, -⟩ := List.cons.inj htail
          have hinside : mark = before ++ c :: tail := (List.cons.inj hmark).2
          exact hc (hinside ▸ List.mem_append_right before List.mem_cons_self)
      · exact h.1 ⟨tail, hbefore.symm⟩
    rw [List.cons_append, cut?_cons_of_after?_eq_none hafter, ih h.2, Option.map_some]

/-! ## Marks that are a word and a blank -/

/-- The mark neither occurs in the text nor begins at its end: whatever follows, the search goes
on behind the text. It is closed under putting texts one behind the other. -/
def Passes (mark cs : List Char) : Prop :=
  ∀ rest, cut? mark (cs ++ rest) = (cut? mark rest).map fun p => (cs ++ p.1, p.2)

theorem Passes.nil (mark : List Char) : Passes mark [] := by
  intro rest
  simp

theorem Passes.append {mark cs ds : List Char} (hc : Passes mark cs) (hd : Passes mark ds) :
    Passes mark (cs ++ ds) := by
  intro rest
  rw [List.append_assoc, hc, hd, Option.map_map]
  simp [Function.comp_def]

/-- Behind a text that passes, the mark is found at once. -/
theorem Passes.cut?_append {mark cs : List Char} (h : Passes mark cs) (rest : List Char) :
    cut? mark (cs ++ (mark ++ rest)) = some (cs, rest) := by
  rw [h, cut?_append_self, Option.map_some, List.append_nil]

theorem Passes.cut?_eq_none {mark cs : List Char} (hne : mark ≠ []) (h : Passes mark cs) :
    cut? mark cs = none := by
  have hnil : cut? mark [] = none := by
    rw [cut?_eq_none_iff, List.infix_nil]
    exact hne
  have hcut := h []
  rwa [List.append_nil, hnil, Option.map_none] at hcut

section Word

variable {lead : List Char} {b : Char}

/-- Two texts that are equal are equal up to their first blank. -/
theorem eq_of_append_cons_eq {xs ys rest rest' : List Char} (hxs : b ∉ xs) (hys : b ∉ ys)
    (h : xs ++ b :: rest = ys ++ b :: rest') : xs = ys := by
  have htake : ∀ zs tail : List Char, b ∉ zs → (zs ++ b :: tail).takeWhile (· != b) = zs := by
    intro zs tail hzs
    have hall : ∀ c ∈ zs, (c != b) = true := by
      intro c hc
      simp only [bne_iff_ne]
      exact fun he => hzs (he ▸ hc)
    rw [List.takeWhile_append_of_pos hall, List.takeWhile_cons_of_neg (by simp), List.append_nil]
  rw [← htake xs rest hxs, h, htake ys rest' hys]

/-- The word up to the first blank is all that decides whether the mark stands there. -/
theorem after?_word (hlead : b ∉ lead) {word : List Char} (hword : b ∉ word) (h : word ≠ lead)
    (rest : List Char) : after? (lead ++ [b]) (word ++ b :: rest) = none := by
  rw [Option.eq_none_iff_forall_ne_some]
  intro after hafter
  have htext := after?_eq_some_iff.1 hafter
  rw [List.append_assoc, List.singleton_append] at htext
  exact h (eq_of_append_cons_eq hword hlead htext)

/-- **A word passes unless it ends with the lead of the mark.** The word is one of an expression,
with the blank that follows it. -/
theorem passes_word (hlead : b ∉ lead) {word : List Char} (hword : b ∉ word)
    (h : ¬ lead <:+ word) : Passes (lead ++ [b]) (word ++ [b]) := by
  intro rest
  rw [List.append_assoc, List.singleton_append]
  induction word with
  | nil =>
    have hne : [] ≠ lead := fun he => h (he ▸ List.suffix_refl _)
    have hafter := after?_word hlead hword hne rest
    rw [List.nil_append] at hafter ⊢
    rw [cut?_cons_of_after?_eq_none hafter]
    rfl
  | cons w word ih =>
    have hne : w :: word ≠ lead := fun he => h (he ▸ List.suffix_refl _)
    have hafter := after?_word hlead hword hne rest
    rw [List.cons_append] at hafter ⊢
    -- what is left of the word ends as the word does
    have hrest := ih (fun hmem => hword (List.mem_cons_of_mem w hmem))
      (fun hsuffix => h (hsuffix.trans (List.suffix_cons w word)))
    rw [cut?_cons_of_after?_eq_none hafter, hrest, Option.map_map]
    rfl

/-- A word that ends with the lead is cut there. -/
theorem cut?_stem (hlead : b ∉ lead) {stem : List Char} (hstem : b ∉ stem) (rest : List Char) :
    cut? (lead ++ [b]) (stem ++ (lead ++ b :: rest)) = some (stem, rest) := by
  induction stem with
  | nil =>
    have hcut := cut?_append_self (lead ++ [b]) rest
    rwa [List.append_assoc, List.singleton_append] at hcut
  | cons s stem ih =>
    have hword : b ∉ s :: stem ++ lead := by
      rw [List.mem_append, not_or]
      exact ⟨hstem, hlead⟩
    have hne : s :: stem ++ lead ≠ lead := by
      intro he
      have hlength := congrArg List.length he
      rw [List.length_append, List.length_cons] at hlength
      omega
    have hafter := after?_word hlead hword hne rest
    rw [List.append_assoc, List.cons_append] at hafter
    rw [List.cons_append, cut?_cons_of_after?_eq_none hafter,
      ih fun hmem => hstem (List.mem_cons_of_mem s hmem), Option.map_some]

end Word

/-! ## Blanks around a text -/

/-- The text begins and ends with characters that are not blank. A text with nothing in it is not
among these. -/
def IsTrimmed (cs : List Char) : Prop :=
  ∃ first last, cs.head? = some first ∧ cs.getLast? = some last ∧ isBlank first = false ∧
    isBlank last = false

theorem isTrimmed_of_forall {cs : List Char} (hne : cs ≠ [])
    (h : ∀ c ∈ cs, isBlank c = false) : IsTrimmed cs :=
  ⟨cs.head hne, cs.getLast hne, List.head?_eq_some_head hne, List.getLast?_eq_some_getLast hne,
    h _ (List.head_mem hne), h _ (List.getLast_mem hne)⟩

theorem dropWhile_isBlank_append {blanks cs : List Char} (hblanks : ∀ c ∈ blanks, isBlank c = true)
    {first : Char} (hfirst : cs.head? = some first) (hhard : isBlank first = false)
    (rest : List Char) : (blanks ++ (cs ++ rest)).dropWhile isBlank = cs ++ rest := by
  rw [List.dropWhile_append_of_pos hblanks]
  cases cs with
  | nil => cases hfirst
  | cons c cs =>
    cases hfirst
    rw [List.cons_append, List.dropWhile_cons_of_neg (by simp [hhard])]

/-- **Blanks around a text are taken off**, and nothing else is. It is stated with blanks on both
sides, as the store trims clauses that were cut out of a longer text. -/
theorem trim_padded {before cs after : List Char} (hbefore : ∀ c ∈ before, isBlank c = true)
    (hafter : ∀ c ∈ after, isBlank c = true) (h : IsTrimmed cs) :
    trim (before ++ (cs ++ after)) = cs := by
  obtain ⟨first, last, hfirst, hlast, hfirst', hlast'⟩ := h
  rw [trim, dropWhile_isBlank_append hbefore hfirst hfirst', List.reverse_append]
  have hreverse : cs.reverse.head? = some last := by rw [List.head?_reverse, hlast]
  have hblanks : ∀ c ∈ after.reverse, isBlank c = true := fun c hc => hafter c (by simpa using hc)
  have hdrop := dropWhile_isBlank_append hblanks hreverse hlast' []
  rw [List.append_nil] at hdrop
  rw [hdrop, List.reverse_reverse]

theorem trim_of_isTrimmed {cs : List Char} (h : IsTrimmed cs) : trim cs = cs := by
  have htrim : trim ([] ++ (cs ++ [])) = cs := trim_padded (by simp) (by simp) h
  rwa [List.nil_append, List.append_nil] at htrim

/-! ## Pieces with separators between them -/

theorem joinWith_cons_cons (sep piece next : List Char) (pieces : List (List Char)) :
    joinWith sep (piece :: next :: pieces) = piece ++ (sep ++ joinWith sep (next :: pieces)) := by
  rw [joinWith, List.append_assoc]
  exact List.cons_ne_nil next pieces

theorem joinWith_append_cons (sep : List Char) (before : List (List Char)) (piece : List Char)
    (after : List (List Char)) : joinWith sep (before ++ piece :: after) =
      before.flatMap (fun p => p ++ sep) ++ joinWith sep (piece :: after) := by
  induction before with
  | nil => rfl
  | cons p before ih =>
    rw [List.flatMap_cons, List.append_assoc, List.append_assoc, ← ih]
    cases before with
    | nil => exact joinWith_cons_cons sep p piece after
    | cons q before => exact joinWith_cons_cons sep p q (before ++ piece :: after)

theorem mem_joinWith {sep : List Char} {pieces : List (List Char)} {c : Char}
    (h : c ∈ joinWith sep pieces) : c ∈ sep ∨ ∃ piece ∈ pieces, c ∈ piece := by
  induction pieces with
  | nil => cases h
  | cons piece pieces ih =>
    cases pieces with
    | nil => exact .inr ⟨piece, List.mem_cons_self, h⟩
    | cons next pieces =>
      rw [joinWith_cons_cons, List.mem_append, List.mem_append] at h
      rcases h with h | h | h
      · exact .inr ⟨piece, List.mem_cons_self, h⟩
      · exact .inl h
      · apply (ih h).imp_right
        rintro ⟨p, hp, hc⟩
        exact ⟨p, List.mem_cons_of_mem piece hp, hc⟩

/-- A text that is put together is joined character by character. -/
theorem toList_intercalate (sep : String) (parts : List String) :
    (sep.intercalate parts).toList = joinWith sep.toList (parts.map String.toList) := by
  induction parts with
  | nil => rfl
  | cons part parts ih =>
    cases parts with
    | nil => simp [joinWith]
    | cons next parts =>
      rw [String.intercalate_cons_cons, String.toList_append, String.toList_append, ih]
      simp only [List.map_cons, joinWith_cons_cons, List.append_assoc]

/-- A text without the separator is one piece. -/
theorem splitOn_of_notMem {sep : Char} {cs : List Char} (h : sep ∉ cs) : splitOn sep cs = [cs] := by
  induction cs with
  | nil => rfl
  | cons c cs ih =>
    obtain ⟨hc, hcs⟩ := not_or.1 (fun hmem => h (List.mem_cons.2 hmem))
    rw [splitOn, if_neg (Ne.symm hc), ih hcs, consPiece]

/-- No piece has the separator in it. -/
theorem notMem_of_mem_splitOn {sep : Char} {cs piece : List Char} (h : piece ∈ splitOn sep cs) :
    sep ∉ piece := by
  induction cs generalizing piece with
  | nil =>
    rw [List.mem_singleton.1 h]
    exact List.not_mem_nil
  | cons c cs ih =>
    rw [splitOn] at h
    split at h
    · rcases List.mem_cons.1 h with rfl | h
      · exact List.not_mem_nil
      · exact ih h
    · next hc =>
      obtain ⟨first, rest, hsplit⟩ := List.exists_cons_of_ne_nil (splitOn_ne_nil sep cs)
      rw [hsplit, consPiece] at h
      rcases List.mem_cons.1 h with rfl | h
      · -- the character in front of the first piece is not the separator
        intro hmem
        rcases List.mem_cons.1 hmem with he | hmem
        · exact hc he.symm
        · exact ih (hsplit ▸ List.mem_cons_self) hmem
      · exact ih (hsplit ▸ List.mem_cons_of_mem first h)

/-- A text is cut at a separator into the pieces before it and the pieces after it. -/
theorem splitOn_append_cons (sep : Char) (cs rest : List Char) :
    splitOn sep (cs ++ sep :: rest) = splitOn sep cs ++ splitOn sep rest := by
  induction cs with
  | nil => simp [splitOn]
  | cons c cs ih =>
    rw [List.cons_append, splitOn, splitOn, ih]
    by_cases hc : c = sep
    · rw [if_pos hc, if_pos hc, List.cons_append]
    · rw [if_neg hc, if_neg hc]
      -- the character goes to the first piece, and there is one before the separator
      obtain ⟨first, pieces, hsplit⟩ := List.exists_cons_of_ne_nil (splitOn_ne_nil sep cs)
      rw [hsplit]
      rfl

/-- **Pieces that were joined are cut apart again** if none of them has the separator in it. There
has to be a piece, because cutting always gives one. -/
theorem splitOn_joinWith {sep : Char} {pieces : List (List Char)} (hne : pieces ≠ [])
    (h : ∀ piece ∈ pieces, sep ∉ piece) : splitOn sep (joinWith [sep] pieces) = pieces := by
  induction pieces with
  | nil => exact absurd rfl hne
  | cons piece pieces ih =>
    have hpiece := splitOn_of_notMem (h piece List.mem_cons_self)
    cases pieces with
    | nil => exact hpiece
    | cons next pieces =>
      have hrest := ih (by simp) fun p hp => h p (List.mem_cons_of_mem piece hp)
      rw [joinWith_cons_cons, List.singleton_append, splitOn_append_cons, hpiece, hrest,
        List.singleton_append]

/-- A piece of a list without a comma in it is taken off whole. -/
theorem splitList_append_cons {piece : List Char} (h : ',' ∉ piece) (rest : List Char) :
    splitList (piece ++ (',' :: ' ' :: rest)) = piece :: splitList rest := by
  induction piece with
  | nil => rw [List.nil_append, splitList]
  | cons c piece ih =>
    obtain ⟨hc, hpiece⟩ := not_or.1 (fun hmem => h (List.mem_cons.2 hmem))
    have hstep : splitList (c :: (piece ++ (',' :: ' ' :: rest))) =
        consPiece c (splitList (piece ++ (',' :: ' ' :: rest))) := by
      rw [splitList]
      intro cs he
      exact absurd he.symm hc
    rw [List.cons_append, hstep, ih hpiece, consPiece]

theorem splitList_of_notMem {piece : List Char} (h : ',' ∉ piece) : splitList piece = [piece] := by
  induction piece with
  | nil => rw [splitList]
  | cons c piece ih =>
    obtain ⟨hc, hpiece⟩ := not_or.1 (fun hmem => h (List.mem_cons.2 hmem))
    have hstep : splitList (c :: piece) = consPiece c (splitList piece) := by
      rw [splitList]
      intro cs he
      exact absurd he.symm hc
    rw [hstep, ih hpiece, consPiece]

/-- **A list is cut back to its pieces** if none of them has a comma in it. The blank behind a
comma belongs to the separator, so nothing has to be trimmed. -/
theorem splitList_joinWith {pieces : List (List Char)} (hne : pieces ≠ [])
    (h : ∀ piece ∈ pieces, ',' ∉ piece) : splitList (joinWith [',', ' '] pieces) = pieces := by
  induction pieces with
  | nil => exact absurd rfl hne
  | cons piece pieces ih =>
    have hpiece := h piece List.mem_cons_self
    cases pieces with
    | nil => exact splitList_of_notMem hpiece
    | cons next pieces =>
      rw [joinWith_cons_cons]
      have hrest := ih (by simp) fun p hp => h p (List.mem_cons_of_mem piece hp)
      rw [List.cons_append, List.cons_append, List.nil_append, splitList_append_cons hpiece, hrest]

end ItemStore.Text
