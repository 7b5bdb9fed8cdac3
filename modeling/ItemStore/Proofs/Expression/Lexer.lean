import ItemStore.Proofs.Expression.Occurrence

/-
Expressions as rows of lexemes.

The store reads an expression from left to right and always takes the longest lexeme that
fits. Blanks only keep lexemes apart. A row of lexemes is therefore a function of the
text, and what has to be shown of a text that is put together from pieces is that the
longest lexeme never reaches from one piece into the next one. Two kinds of pieces are
enough for that: those that are complete whatever follows, such as an opening bracket or a
keyword between blanks, and those that are complete if something follows that cannot go on
a word or a comparator, such as a token.
-/
set_option autoImplicit false

namespace ItemStore

/-- The smallest parts of an expression. Keywords, operators written in letters and names of
functions are all words here, so what a word means is left to the grammar. -/
inductive Lexeme where
  | opening
  | closing
  | comma
  | dot
  /-- A name token with its mark. -/
  | name (token : String)
  /-- A value token with its mark. -/
  | value (token : String)
  | comparator (operator : Operator)
  /-- A keyword or the name of a function. -/
  | word (text : String)
  deriving DecidableEq, Repr

/-! ## Reading from left to right -/

/-- A character of which comparators are made. -/
def isComparatorChar (c : Char) : Bool := c = '<' || c = '>' || c = '='

/-- The first lexeme of a text, if there is one before a blank, and the rest of the text. -/
def lexStep (c : Char) (cs : List Char) : Option (Option Lexeme × List Char) :=
  let word := cs.takeWhile Path.isTokenChar
  let rest := cs.dropWhile Path.isTokenChar
  if c = ' ' then some (none, cs)
  else if c = '(' then some (some .opening, cs)
  else if c = ')' then some (some .closing, cs)
  else if c = ',' then some (some .comma, cs)
  else if c = '.' then some (some .dot, cs)
  else if c = '#' then
    if word = [] then none else some (some (.name (String.ofList (c :: word))), rest)
  else if c = ':' then
    if word = [] then none else some (some (.value (String.ofList (c :: word))), rest)
  else if Path.isTokenChar c then some (some (.word (String.ofList (c :: word))), rest)
  else if isComparatorChar c then
    match Operator.ofText? (String.ofList (c :: cs.takeWhile isComparatorChar)) with
    | some operator => some (some (.comparator operator), cs.dropWhile isComparatorChar)
    | none => none
  else none

theorem length_dropWhile_le {α : Type} (p : α → Bool) (xs : List α) :
    (xs.dropWhile p).length ≤ xs.length := (List.dropWhile_suffix p).length_le

/-- A step never gives text back. -/
theorem length_le_of_lexStep {c : Char} {cs rest : List Char} {l : Option Lexeme}
    (h : lexStep c cs = some (l, rest)) : rest.length ≤ cs.length := by
  have hword := length_dropWhile_le Path.isTokenChar cs
  have hcomparator := length_dropWhile_le isComparatorChar cs
  -- a step drops a character, a word or a comparator
  unfold lexStep at h
  grind

/-- The lexemes of a text, if it has no other characters in it. The recursion is on the length of
the rest, since a lexeme takes as many characters as belong to it. -/
def lex : List Char → Option (List Lexeme)
  | [] => some []
  | c :: cs =>
    match h : lexStep c cs with
    | none => none
    | some (l, rest) =>
      have : rest.length ≤ cs.length := length_le_of_lexStep h
      (lex rest).map fun ls => l.toList ++ ls
  termination_by cs => cs.length
  decreasing_by exact Nat.lt_succ_of_le this

theorem lex_nil : lex [] = some [] := by rw [lex]

theorem lex_cons {c : Char} {cs rest : List Char} {l : Option Lexeme}
    (h : lexStep c cs = some (l, rest)) :
    lex (c :: cs) = (lex rest).map fun ls => l.toList ++ ls := by
  rw [lex]
  split
  · next hnone => simp [h] at hnone
  · next l' rest' hsome =>
    rw [h] at hsome
    cases hsome
    rfl

/-! ## Complete pieces -/

/-- The piece is read as some lexemes, whatever follows. A piece with this property can be looked
at by itself, whatever text it ends up in. -/
def Seals (piece : List Char) (ls : List Lexeme) : Prop :=
  ∀ ds, lex (piece ++ ds) = (lex ds).map fun ls' => ls ++ ls'

/-- Nothing that could go on a word or a comparator. The end of the text is one. -/
def IsBreak (ds : List Char) : Prop :=
  ∀ c ∈ ds.head?, Path.isTokenChar c = false ∧ isComparatorChar c = false

/-- The piece is read as some lexemes if a break follows. Tokens and comparators have this
property and not the stronger one, because another character would make a longer token of them. -/
def LexesTo (piece : List Char) (ls : List Lexeme) : Prop :=
  ∀ ds, IsBreak ds → lex (piece ++ ds) = (lex ds).map fun ls' => ls ++ ls'

theorem isBreak_nil : IsBreak [] := by
  intro c h
  cases h

theorem isBreak_cons {c : Char} (h : Path.isTokenChar c = false ∧ isComparatorChar c = false)
    (ds : List Char) : IsBreak (c :: ds) := by
  intro d hd
  cases hd
  exact h

theorem Seals.lexesTo {piece : List Char} {ls : List Lexeme} (h : Seals piece ls) :
    LexesTo piece ls := fun ds _ => h ds

/-- The lexemes of a whole text. -/
theorem LexesTo.lex_eq {piece : List Char} {ls : List Lexeme} (h : LexesTo piece ls) :
    lex piece = some ls := by
  have hend := h [] isBreak_nil
  rw [List.append_nil, lex_nil] at hend
  simpa using hend

/-- After a sealed piece anything may come. -/
theorem Seals.append {a b : List Char} {la lb : List Lexeme} (ha : Seals a la)
    (hb : Seals b lb) : Seals (a ++ b) (la ++ lb) := by
  intro ds
  rw [List.append_assoc, ha, hb, Option.map_map]
  simp [Function.comp_def, List.append_assoc]

theorem Seals.append_lexesTo {a b : List Char} {la lb : List Lexeme} (ha : Seals a la)
    (hb : LexesTo b lb) : LexesTo (a ++ b) (la ++ lb) := by
  intro ds hds
  rw [List.append_assoc, ha, hb ds hds, Option.map_map]
  simp [Function.comp_def, List.append_assoc]

/-- A break seals the piece before it. -/
theorem LexesTo.append_seals {a b : List Char} {la lb : List Lexeme} (ha : LexesTo a la)
    (hb : Seals b lb) (hne : b ≠ []) (hbreak : IsBreak b) : Seals (a ++ b) (la ++ lb) := by
  intro ds
  -- the break is the first character of `b`, and that is there
  have hds : IsBreak (b ++ ds) := by
    obtain ⟨c, b, rfl⟩ := List.exists_cons_of_ne_nil hne
    exact isBreak_cons (hbreak c rfl) (b ++ ds)
  rw [List.append_assoc, ha _ hds, hb, Option.map_map]
  simp [Function.comp_def, List.append_assoc]

/-! ## Single lexemes -/

/-- A step that does not look at what follows. -/
theorem seals_of_lexStep {c : Char} {l : Option Lexeme}
    (h : ∀ ds, lexStep c ds = some (l, ds)) : Seals [c] l.toList := by
  intro ds
  exact lex_cons (h ds)

theorem seals_blank : Seals [' '] [] :=
  seals_of_lexStep (l := none) fun ds => by simp [lexStep]

theorem seals_opening : Seals ['('] [.opening] :=
  seals_of_lexStep (l := some .opening) fun ds => by simp [lexStep]

theorem seals_closing : Seals [')'] [.closing] :=
  seals_of_lexStep (l := some .closing) fun ds => by simp [lexStep]

theorem seals_comma : Seals [','] [.comma] :=
  seals_of_lexStep (l := some .comma) fun ds => by simp [lexStep]

theorem seals_dot : Seals ['.'] [.dot] :=
  seals_of_lexStep (l := some .dot) fun ds => by simp [lexStep]

/-- A run of characters of one kind ends at a break. -/
theorem span_append_isBreak {p : Char → Bool} {run ds : List Char} (hrun : ∀ c ∈ run, p c = true)
    (hds : ∀ c ∈ ds.head?, p c = false) :
    (run ++ ds).takeWhile p = run ∧ (run ++ ds).dropWhile p = ds := by
  -- along the run; at its end the next character, if there is one, is of another kind
  induction run with
  | nil =>
    cases ds with
    | nil => exact ⟨rfl, rfl⟩
    | cons d ds => simp [hds d rfl]
  | cons c run ih =>
    obtain ⟨htake, hdrop⟩ := ih fun d hd => hrun d (List.mem_cons_of_mem c hd)
    have hc := hrun c (List.mem_cons_self ..)
    simp [hc, htake, hdrop]

theorem lexesTo_name {token : String} (h : IsToken '#' token) :
    LexesTo token.toList [.name token] := by
  obtain ⟨word, hne, hword, htoken⟩ := h
  intro ds hds
  obtain ⟨htake, hdrop⟩ := span_append_isBreak hword fun c hc => (hds c hc).1
  -- the whole word is taken, because a break follows it
  have hstep : lexStep '#' (word ++ ds) = some (some (.name token), ds) := by
    simp [lexStep, htake, hdrop, hne, ← htoken]
  rw [htoken]
  exact lex_cons hstep

theorem lexesTo_value {token : String} (h : IsToken ':' token) :
    LexesTo token.toList [.value token] := by
  obtain ⟨word, hne, hword, htoken⟩ := h
  intro ds hds
  obtain ⟨htake, hdrop⟩ := span_append_isBreak hword fun c hc => (hds c hc).1
  have hstep : lexStep ':' (word ++ ds) = some (some (.value token), ds) := by
    simp [lexStep, htake, hdrop, hne, ← htoken]
  rw [htoken]
  exact lex_cons hstep

/-- The characters that mean something by themselves are not part of a word. -/
theorem lexStep_of_isTokenChar {c : Char} (hc : Path.isTokenChar c = true) (cs : List Char) :
    lexStep c cs = some (some (.word (String.ofList (c :: cs.takeWhile Path.isTokenChar))),
      cs.dropWhile Path.isTokenChar) := by
  have hne : ∀ d, Path.isTokenChar d = false → c ≠ d := by
    rintro d hd rfl
    rw [hc] at hd
    cases hd
  simp [lexStep, hc, hne ' ' (by decide), hne '(' (by decide), hne ')' (by decide),
    hne ',' (by decide), hne '.' (by decide), hne '#' (by decide), hne ':' (by decide)]

theorem lexesTo_word {text : String} (h : IsWord text.toList) (hne : text ≠ "") :
    LexesTo text.toList [.word text] := by
  have hlist : text.toList ≠ [] := by simpa using hne
  obtain ⟨c, word, htext⟩ := List.exists_cons_of_ne_nil hlist
  rw [htext] at h
  obtain ⟨hc, hword⟩ := isWord_cons.1 h
  intro ds hds
  obtain ⟨htake, hdrop⟩ := span_append_isBreak hword fun d hd => (hds d hd).1
  have hstep : lexStep c (word ++ ds) = some (some (.word text), ds) := by
    rw [lexStep_of_isTokenChar hc, htake, hdrop, ← htext, String.ofList_toList]
  rw [htext]
  exact lex_cons hstep

/-- Operators with different spellings are different. -/
theorem Operator.ofText?_text (operator : Operator) :
    Operator.ofText? operator.text = some operator := by
  cases operator <;> decide

theorem lexesTo_comparator {operator : Operator} (h : operator.isComparator = true) :
    LexesTo operator.text.toList [.comparator operator] := by
  -- a comparator is one character or two, and all of one kind
  have hchars : ∃ c run, operator.text.toList = c :: run ∧ isComparatorChar c = true ∧
      run.all isComparatorChar = true := by
    cases operator with
    | eq => exact ⟨'=', [], rfl, by decide, rfl⟩
    | ne => exact ⟨'<', ['>'], rfl, by decide, by decide⟩
    | lt => exact ⟨'<', [], rfl, by decide, rfl⟩
    | le => exact ⟨'<', ['='], rfl, by decide, by decide⟩
    | gt => exact ⟨'>', [], rfl, by decide, rfl⟩
    | ge => exact ⟨'>', ['='], rfl, by decide, by decide⟩
    | _ => cases h
  obtain ⟨c, run, htext, hc, hall⟩ := hchars
  have hrun : ∀ d ∈ run, isComparatorChar d = true := List.all_eq_true.1 hall
  intro ds hds
  obtain ⟨htake, hdrop⟩ := span_append_isBreak hrun fun d hd => (hds d hd).2
  -- a character of comparators is none of those that are looked for first
  have hne : ∀ d, isComparatorChar d = false → c ≠ d := by
    rintro d hd rfl
    rw [hc] at hd
    cases hd
  have hword : Path.isTokenChar c = false := by
    simp only [isComparatorChar, Bool.or_eq_true, decide_eq_true_eq] at hc
    rcases hc with (rfl | rfl) | rfl <;> decide
  have hstep : lexStep c (run ++ ds) = some (some (.comparator operator), ds) := by
    simp [lexStep, hc, hword, htake, hdrop, ← htext, Operator.ofText?_text,
      hne ' ' (by decide), hne '(' (by decide), hne ')' (by decide), hne ',' (by decide),
      hne '.' (by decide), hne '#' (by decide), hne ':' (by decide)]
  rw [htext]
  exact lex_cons hstep

/-! ## Keywords and separators -/

/-- A piece between two blanks is sealed. -/
theorem LexesTo.seals_between_blanks {piece : List Char} {ls : List Lexeme}
    (h : LexesTo piece ls) : Seals (' ' :: (piece ++ [' '])) ls := by
  have hblank : IsBreak [' '] := isBreak_cons (by decide) []
  have hend : Seals (piece ++ [' ']) (ls ++ []) :=
    h.append_seals seals_blank (by decide) hblank
  rw [List.append_nil] at hend
  exact seals_blank.append hend

end ItemStore
