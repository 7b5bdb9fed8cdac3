import ItemStore.Memory.Update
import ItemStore.Proofs.Expression.Clauses
import ItemStore.Proofs.Text.Cut

/-
An update expression as a store reads it.

A store cuts the text at marks: at the word `REMOVE` with a blank behind it, at commas outside
parentheses, at ` = `. What it finds is what was written as long as no mark is found too early.
Names and tokens have no blanks, commas or parentheses in them, so only one mark is dangerous: a
name that ends with `REMOVE`, as the token of a field called `DO_REMOVE` does, has the mark at its
end when it is assigned to, because a blank follows. Where no assigned name is of this kind, the
store finds exactly the clauses (`ofExpression_joined`). Where one is, the assignments found are
those before it and one more, which has lost its right side (`assignments_of_stem`); it can never
be carried out, so whatever the store takes for removals does not matter.

The cuts are those of `apply_update` and `split_clauses`.
-/
set_option autoImplicit false

namespace ItemStore.Memory

open Text

/-! ## Characters of names and tokens -/

/-- A character that may stand in the form of a path or in a token. No mark of the store is among
them. -/
def isPlain (c : Char) : Bool := Path.isTokenChar c || c = '#' || c = ':' || c = '.'

/-- A text of such characters. It holds of every path form and every token, and it is all that is
asked of names and tokens here. -/
def IsPlain (cs : List Char) : Prop := ∀ c ∈ cs, isPlain c = true

theorem IsPlain.notMem {cs : List Char} (h : IsPlain cs) {c : Char} (hc : isPlain c = false) :
    c ∉ cs := by
  intro hmem
  rw [h c hmem] at hc
  cases hc

theorem IsPlain.of_append_left {cs ds : List Char} (h : IsPlain (cs ++ ds)) : IsPlain cs :=
  fun c hmem => h c (List.mem_append_left ds hmem)

theorem isBlank_of_isPlain {c : Char} (h : isPlain c = true) : isBlank c = false := by
  -- all these characters lie between the blank and the end of the first hundred and twenty-eight
  have hrange : 0x21 ≤ c.toNat ∧ c.toNat ≤ 0x7E := by
    have hupper : c.isUpper = decide (c.val ≥ 'A'.val ∧ c.val ≤ 'Z'.val) := rfl
    have hlower : c.isLower = (decide (c.val ≥ 'a'.val) && decide (c.val ≤ 'z'.val)) := rfl
    have halpha : c.isAlpha = (c.isUpper || c.isLower) := rfl
    simp only [isPlain, Path.isTokenChar, Char.isAlphanum, halpha, hupper, hlower, Char.isDigit,
      Bool.or_eq_true, Bool.and_eq_true, decide_eq_true_eq, UInt32.le_iff_toNat_le,
      ge_iff_le] at h
    rcases h with (((((⟨h, h'⟩ | ⟨h, h'⟩) | ⟨h, h'⟩) | h) | h) | h) | h
    · exact ⟨Nat.le_trans (by decide) h, Nat.le_trans h' (by decide)⟩
    · exact ⟨Nat.le_trans (by decide) h, Nat.le_trans h' (by decide)⟩
    · exact ⟨Nat.le_trans (by decide) h, Nat.le_trans h' (by decide)⟩
    · subst h
      decide
    · subst h
      decide
    · subst h
      decide
    · subst h
      decide
  simp only [isBlank]
  simp
  omega

theorem IsPlain.isTrimmed {cs : List Char} (h : IsPlain cs) (hne : cs ≠ []) : IsTrimmed cs :=
  isTrimmed_of_forall hne fun c hc => isBlank_of_isPlain (h c hc)

theorem isPlain_of_isToken {mark : Char} {token : String} (hmark : isPlain mark = true)
    (h : IsToken mark token) : IsPlain token.toList := by
  obtain ⟨word, -, hword, htoken⟩ := h
  rw [htoken]
  intro c hc
  rcases List.mem_cons.1 hc with rfl | hc
  · exact hmark
  · simp [isPlain, hword c hc]

/-! ## The end of a word -/

/-- The word that begins the removals. It is looked for with a blank behind it. -/
def keyword : List Char := "REMOVE".toList

/-- Where the store looks for the removals. -/
theorem toList_mark : "REMOVE ".toList = keyword ++ [' '] := rfl

theorem not_suffix_of_getLast? {lead cs : List Char} (hlead : lead ≠ [])
    (h : cs.getLast? ≠ lead.getLast?) : ¬ lead <:+ cs := by
  rintro ⟨before, rfl⟩
  rw [List.getLast?_append_of_ne_nil before hlead] at h
  exact h rfl

/-- A word with another character at its end does not end with the keyword. -/
theorem not_keyword_suffix_append {cs : List Char} {c : Char} (hc : c ≠ 'E') :
    ¬ keyword <:+ cs ++ [c] := by
  apply not_suffix_of_getLast? (by decide)
  rw [List.getLast?_append_of_ne_nil cs (List.cons_ne_nil c [])]
  intro he
  exact hc (Option.some.inj he)

/-- A word that does not make up the mark together with a blank behind it. A blank inside would
separate it into two words, and these are looked at one by one. -/
def Harmless (word : List Char) : Prop := ' ' ∉ word ∧ ¬ keyword <:+ word

theorem harmless_append {word : List Char} (hblank : ' ' ∉ word) {c : Char} (hc : c ≠ ' ')
    (hend : c ≠ 'E') : Harmless (word ++ [c]) := by
  refine ⟨?_, not_keyword_suffix_append hend⟩
  simp [hblank, Ne.symm hc]

theorem harmless_singleton {c : Char} (hc : c ≠ ' ') (hend : c ≠ 'E') : Harmless [c] :=
  harmless_append (List.not_mem_nil) hc hend

/-- Harmless words with a blank behind each pass. -/
theorem passes_words {words : List (List Char)} (h : ∀ w ∈ words, Harmless w) :
    Passes (keyword ++ [' ']) (words.flatMap fun w => w ++ [' ']) := by
  induction words with
  | nil => exact Passes.nil _
  | cons w words ih =>
    obtain ⟨hblank, hend⟩ := h w List.mem_cons_self
    rw [List.flatMap_cons]
    exact (passes_word (by decide) hblank hend).append
      (ih fun v hv => h v (List.mem_cons_of_mem w hv))

/-! ## Commas outside parentheses -/

theorem foldr_consPiece (cs piece : List Char) (pieces : List (List Char)) :
    cs.foldr consPiece (piece :: pieces) = (cs ++ piece) :: pieces := by
  induction cs with
  | nil => rfl
  | cons c cs ih => rw [List.foldr_cons, ih, consPiece, List.cons_append]

/-- A text without parentheses of its own that is not cut at the given depth. -/
theorem splitOutside_append {depth : Int} {cs : List Char} (hopen : '(' ∉ cs) (hclose : ')' ∉ cs)
    (hcomma : depth = 0 → ',' ∉ cs) (rest : List Char) :
    splitOutside depth (cs ++ rest) = cs.foldr consPiece (splitOutside depth rest) := by
  induction cs with
  | nil => rfl
  | cons c cs ih =>
    rw [List.mem_cons, not_or] at hopen hclose
    have hcut : ¬ (c = ',' ∧ depth = 0) := by
      rintro ⟨rfl, hdepth⟩
      exact hcomma hdepth List.mem_cons_self
    have hcomma' : depth = 0 → ',' ∉ cs :=
      fun hdepth hmem => hcomma hdepth (List.mem_cons_of_mem c hmem)
    rw [List.cons_append, splitOutside, if_neg (Ne.symm hopen.1), if_neg (Ne.symm hclose.1),
      if_neg hcut, ih hopen.2 hclose.2 hcomma']
    rfl

/-- Nothing in the text is cut, and all parentheses in it are closed. An append has a comma inside
its parentheses, so it is not enough to ask for no comma. -/
def IsClosed (cs : List Char) : Prop :=
  ∀ rest, splitOutside 0 (cs ++ rest) = cs.foldr consPiece (splitOutside 0 rest)

theorem IsClosed.append {cs ds : List Char} (hc : IsClosed cs) (hd : IsClosed ds) :
    IsClosed (cs ++ ds) := by
  intro rest
  rw [List.append_assoc, hc, hd, List.foldr_append]

theorem isClosed_of_notMem {cs : List Char} (hopen : '(' ∉ cs) (hclose : ')' ∉ cs)
    (hcomma : ',' ∉ cs) : IsClosed cs :=
  splitOutside_append hopen hclose fun _ => hcomma

theorem IsPlain.isClosed {cs : List Char} (h : IsPlain cs) : IsClosed cs :=
  isClosed_of_notMem (h.notMem (by decide)) (h.notMem (by decide)) (h.notMem (by decide))

/-- Between parentheses commas do not matter. -/
theorem isClosed_parenthesized {cs : List Char} (hopen : '(' ∉ cs) (hclose : ')' ∉ cs) :
    IsClosed ('(' :: (cs ++ [')'])) := by
  intro rest
  have hinner : splitOutside 1 (cs ++ (')' :: rest)) =
      cs.foldr consPiece (splitOutside 1 (')' :: rest)) :=
    splitOutside_append hopen hclose (fun hdepth => by cases hdepth) _
  have houter : splitOutside 1 (')' :: rest) = consPiece ')' (splitOutside 0 rest) := by
    rw [splitOutside, if_neg (by decide), if_pos rfl]
    rfl
  rw [List.cons_append, List.append_assoc, List.singleton_append, splitOutside, if_pos rfl,
    Int.zero_add, hinner, houter, List.foldr_cons, List.foldr_append]
  rfl

theorem IsClosed.splitOutside_eq {cs : List Char} (h : IsClosed cs) : splitOutside 0 cs = [cs] := by
  have hsplit := h []
  rw [List.append_nil] at hsplit
  rw [hsplit, splitOutside, foldr_consPiece, List.append_nil]

/-- A closed piece is cut off at the comma behind it. -/
theorem IsClosed.splitOutside_append_cons {cs : List Char} (h : IsClosed cs) (rest : List Char) :
    splitOutside 0 (cs ++ (',' :: rest)) = cs :: splitOutside 0 rest := by
  rw [h, splitOutside, if_neg (by decide), if_neg (by decide), if_pos ⟨rfl, rfl⟩, foldr_consPiece,
    List.append_nil]

/-- Closed pieces with commas between them are found again; all but the first have the blank
in front that follows a comma. -/
theorem splitOutside_joinWith {piece : List Char} {pieces : List (List Char)}
    (h : ∀ p ∈ piece :: pieces, IsClosed p) :
    splitOutside 0 (joinWith [',', ' '] (piece :: pieces)) =
      piece :: pieces.map fun p => ' ' :: p := by
  induction pieces generalizing piece with
  | nil => exact (h piece List.mem_cons_self).splitOutside_eq
  | cons next pieces ih =>
    have hrest := ih fun p hp => h p (List.mem_cons_of_mem piece hp)
    have hblank : IsClosed [' '] := isClosed_of_notMem (by decide) (by decide) (by decide)
    have hnext := hblank (joinWith [',', ' '] (next :: pieces))
    rw [List.singleton_append] at hnext
    rw [joinWith_cons_cons, List.cons_append, List.cons_append, List.nil_append,
      (h piece List.mem_cons_self).splitOutside_append_cons, hnext, hrest]
    rfl

/-- **Assignments are found again.** It is an induction on the pieces; that each is closed makes
the first cut fall behind the first piece. -/
theorem assignmentClauses_joinWith {pieces : List (List Char)}
    (h : ∀ p ∈ pieces, IsClosed p ∧ IsTrimmed p) :
    assignmentClauses (joinWith [',', ' '] pieces) = pieces := by
  have htrimmed : ∀ p, IsTrimmed p → (!p.isEmpty) = true := by
    rintro p ⟨first, -, hfirst, -⟩
    cases p with
    | nil => cases hfirst
    | cons c p => rfl
  cases pieces with
  | nil =>
    rw [joinWith, assignmentClauses, splitOutside]
    decide
  | cons piece pieces =>
    have hpadded : ∀ p ∈ pieces, trim (' ' :: p) = p := by
      intro p hp
      have hpad : trim ([' '] ++ (p ++ [])) = p := trim_padded (List.forall_mem_singleton.2 rfl)
        (by simp) (h p (List.mem_cons_of_mem piece hp)).2
      simpa using hpad
    have htrim : (pieces.map fun p => ' ' :: p).map trim = pieces := by
      rw [List.map_map]
      exact (List.map_congr_left hpadded).trans (List.map_id pieces)
    rw [assignmentClauses, splitOutside_joinWith fun p hp => (h p hp).1, List.map_cons,
      trim_of_isTrimmed (h piece List.mem_cons_self).2, htrim, List.filter_eq_self]
    exact fun p hp => htrimmed p (h p hp).2

/-! ## The two parts -/

/-- What a store needs of an assignment to find it again. The right side may be anything with
which cutting and trimming do no harm. -/
structure IsAssignment (piece : List Char) : Prop where
  closed : IsClosed piece
  trimmed : IsTrimmed piece
  /-- The removals are not looked for in it, neither if another clause follows … -/
  passes_comma : Passes (keyword ++ [' ']) (piece ++ [',', ' '])
  /-- … nor if the removals do. -/
  passes_blank : Passes (keyword ++ [' ']) (piece ++ [' '])

/-- A part of an expression; nothing if there is nothing in it. The two parts of an update are
written alike, so what is shown of joining them is shown once. -/
def part (word : List Char) (pieces : List (List Char)) : List (List Char) :=
  if pieces.isEmpty then [] else [word ++ ' ' :: joinWith [',', ' '] pieces]

theorem part_of_ne_nil {word : List Char} {pieces : List (List Char)} (h : pieces ≠ []) :
    part word pieces = [word ++ ' ' :: joinWith [',', ' '] pieces] := by
  rw [part, if_neg (by simp [h])]

theorem passes_setWord : Passes (keyword ++ [' ']) "SET ".toList := by
  have hword : Passes (keyword ++ [' ']) ("SET".toList ++ [' ']) :=
    passes_word (by decide) (by decide) (by decide)
  exact hword

theorem passes_flatMap {mark : List Char} {f : List Char → List Char} {pieces : List (List Char)}
    (h : ∀ p ∈ pieces, Passes mark (f p)) : Passes mark (pieces.flatMap f) := by
  induction pieces with
  | nil => exact Passes.nil mark
  | cons p pieces ih =>
    rw [List.flatMap_cons]
    exact (h p List.mem_cons_self).append (ih fun q hq => h q (List.mem_cons_of_mem p hq))

/-- The assignments with a blank behind them have no mark in them. -/
theorem passes_assignments {pieces : List (List Char)} (hne : pieces ≠ [])
    (h : ∀ p ∈ pieces, IsAssignment p) :
    Passes (keyword ++ [' ']) ("SET ".toList ++ joinWith [',', ' '] pieces ++ [' ']) := by
  obtain ⟨before, piece, rfl⟩ : ∃ before piece, pieces = before ++ [piece] :=
    ⟨pieces.dropLast, pieces.getLast hne, (List.dropLast_append_getLast hne).symm⟩
  have hbefore : Passes (keyword ++ [' ']) (before.flatMap fun p => p ++ [',', ' ']) :=
    passes_flatMap fun p hp => (h p (List.mem_append_left _ hp)).passes_comma
  have hlast := (h piece (by simp)).passes_blank
  have htext : "SET ".toList ++ joinWith [',', ' '] (before ++ [piece]) ++ [' '] =
      "SET ".toList ++ ((before.flatMap fun p => p ++ [',', ' ']) ++ (piece ++ [' '])) := by
    rw [joinWith_append_cons]
    simp only [joinWith, List.append_assoc]
  rw [htext]
  exact passes_setWord.append (hbefore.append hlast)

theorem isTrimmed_joinWith {sep : List Char} {pieces : List (List Char)} (hne : pieces ≠ [])
    (h : ∀ p ∈ pieces, IsTrimmed p) : IsTrimmed (joinWith sep pieces) := by
  induction pieces with
  | nil => exact absurd rfl hne
  | cons piece pieces ih =>
    cases pieces with
    | nil => exact h piece List.mem_cons_self
    | cons next pieces =>
      obtain ⟨first, -, hfirst, -, hhard, -⟩ := h piece List.mem_cons_self
      obtain ⟨-, last, hfirst', hlast, -, hhard'⟩ :=
        ih (by simp) fun p hp => h p (List.mem_cons_of_mem piece hp)
      have hne' : joinWith sep (next :: pieces) ≠ [] := by
        intro hnil
        rw [hnil] at hlast
        cases hlast
      rw [joinWith_cons_cons]
      refine ⟨first, last, ?_, ?_, hhard, hhard'⟩
      · rw [List.head?_append, hfirst]
        rfl
      · rw [← List.append_assoc, List.getLast?_append_of_ne_nil _ hne', hlast]

/-- What stands in front of the removals is taken apart into its assignments. -/
theorem after?_trim_assignments {pieces : List (List Char)} (hne : pieces ≠ [])
    (h : ∀ p ∈ pieces, IsClosed p ∧ IsTrimmed p) (blanks : List Char)
    (hblanks : ∀ c ∈ blanks, isBlank c = true) :
    (after? "SET ".toList
      (trim ("SET ".toList ++ joinWith [',', ' '] pieces ++ blanks))).map assignmentClauses =
      some pieces := by
  have hjoined : IsTrimmed (joinWith [',', ' '] pieces) :=
    isTrimmed_joinWith hne fun p hp => (h p hp).2
  have htrimmed : IsTrimmed ("SET ".toList ++ joinWith [',', ' '] pieces) := by
    obtain ⟨-, last, -, hlast, -, hhard⟩ := hjoined
    have hne' : joinWith [',', ' '] pieces ≠ [] := by
      intro hnil
      rw [hnil] at hlast
      cases hlast
    refine ⟨'S', last, rfl, ?_, by decide, hhard⟩
    rw [List.getLast?_append_of_ne_nil _ hne', hlast]
  have htrim : trim ([] ++ (("SET ".toList ++ joinWith [',', ' '] pieces) ++ blanks)) =
      "SET ".toList ++ joinWith [',', ' '] pieces :=
    trim_padded (by simp) hblanks htrimmed
  rw [List.nil_append] at htrim
  rw [htrim, after?_eq_some_iff.2 rfl, Option.map_some, assignmentClauses_joinWith h]

theorem map_trim_splitList {names : List (List Char)} (hne : names ≠ [])
    (h : ∀ n ∈ names, IsPlain n ∧ n ≠ []) :
    (splitList (joinWith [',', ' '] names)).map trim = names := by
  rw [splitList_joinWith hne fun n hn => (h n hn).1.notMem (by decide)]
  exact (List.map_congr_left fun n hn =>
    trim_of_isTrimmed ((h n hn).1.isTrimmed (h n hn).2)).trans (List.map_id names)

/-- **An expression without a mark too early** has the parts it was written with. Both parts may
be absent, and then the text is empty or has one word less in front. -/
theorem ofExpression_joined {pieces names : List (List Char)}
    (hpieces : ∀ p ∈ pieces, IsAssignment p) (hnames : ∀ n ∈ names, IsPlain n ∧ n ≠ []) :
    UpdateText.ofExpression (joinWith [' '] (part "SET".toList pieces ++ part keyword names)) =
      { assignments := pieces, removals := names } := by
  have hclosed : ∀ p ∈ pieces, IsClosed p ∧ IsTrimmed p :=
    fun p hp => ⟨(hpieces p hp).closed, (hpieces p hp).trimmed⟩
  rw [UpdateText.ofExpression, toList_mark]
  by_cases hp : pieces = []
  · by_cases hn : names = []
    · subst hp hn
      rfl
    · -- the expression begins with the mark
      have htext : joinWith [' '] (part "SET".toList pieces ++ part keyword names) =
          (keyword ++ [' ']) ++ joinWith [',', ' '] names := by
        rw [hp, part_of_ne_nil hn, List.append_assoc]
        rfl
      rw [htext, cut?_append_self]
      simp only [map_trim_splitList hn hnames, hp]
      rfl
  · by_cases hn : names = []
    · -- there is no mark at all
      have htext : joinWith [' '] (part "SET".toList pieces ++ part keyword names) =
          "SET ".toList ++ joinWith [',', ' '] pieces := by
        rw [hn, part_of_ne_nil hp]
        rfl
      have hnone : cut? (keyword ++ [' ']) ("SET ".toList ++ joinWith [',', ' '] pieces) = none :=
        cut?_eq_none_of_append ((passes_assignments hp hpieces).cut?_eq_none (by decide))
      have hafter := after?_trim_assignments hp hclosed [] (by simp)
      rw [List.append_nil] at hafter
      rw [htext, hnone, hn]
      obtain ⟨cs, hcs, rfl⟩ := Option.map_eq_some_iff.1 hafter
      simp only [hcs]
    · have htext : joinWith [' '] (part "SET".toList pieces ++ part keyword names) =
          ("SET ".toList ++ joinWith [',', ' '] pieces ++ [' ']) ++
            ((keyword ++ [' ']) ++ joinWith [',', ' '] names) := by
        rw [part_of_ne_nil hp, part_of_ne_nil hn, List.singleton_append, joinWith_cons_cons]
        simp [joinWith]
      have hafter := after?_trim_assignments hp hclosed [' '] (List.forall_mem_singleton.2 rfl)
      rw [htext, (passes_assignments hp hpieces).cut?_append]
      obtain ⟨cs, hcs, rfl⟩ := Option.map_eq_some_iff.1 hafter
      simp only [hcs, map_trim_splitList hn hnames]

/-- A joined text begins with its first piece. -/
theorem exists_joinWith_cons (sep piece : List Char) (pieces : List (List Char)) :
    ∃ tail, joinWith sep (piece :: pieces) = piece ++ tail := by
  cases pieces with
  | nil => exact ⟨[], (List.append_nil piece).symm⟩
  | cons next pieces => exact ⟨_, joinWith_cons_cons sep piece next pieces⟩

/-- **An expression with a mark too early.** An assignment to a name that ends with the keyword
loses the keyword and everything behind it. The removals are left out, because nothing that is
read behind the cut is of use to anyone. -/
theorem assignments_of_stem {before : List (List Char)} {stem : List Char}
    (hbefore : ∀ p ∈ before, IsAssignment p) (hstem : IsPlain stem) (hne : stem ≠ [])
    (more : List Char) (after parts : List (List Char)) :
    (UpdateText.ofExpression (joinWith [' ']
      (part "SET".toList (before ++ (stem ++ (keyword ++ ' ' :: more)) :: after) ++
        parts))).assignments = before ++ [stem] := by
  have hpasses : Passes (keyword ++ [' '])
      ("SET ".toList ++ before.flatMap fun p => p ++ [',', ' ']) :=
    passes_setWord.append (passes_flatMap fun p hp => (hbefore p hp).passes_comma)
  -- the text is cut in the name, whatever stands behind it
  obtain ⟨rest, htext⟩ : ∃ rest, joinWith [' ']
      (part "SET".toList (before ++ (stem ++ (keyword ++ ' ' :: more)) :: after) ++ parts) =
      ("SET ".toList ++ before.flatMap fun p => p ++ [',', ' ']) ++
        (stem ++ (keyword ++ ' ' :: rest)) := by
    obtain ⟨tail, htail⟩ := exists_joinWith_cons [',', ' '] (stem ++ (keyword ++ ' ' :: more)) after
    have hset : joinWith [',', ' '] (before ++ (stem ++ (keyword ++ ' ' :: more)) :: after) =
        (before.flatMap fun p => p ++ [',', ' ']) ++
          (stem ++ (keyword ++ ' ' :: (more ++ tail))) := by
      rw [joinWith_append_cons, htail]
      simp only [List.append_assoc, List.cons_append]
    rw [part_of_ne_nil (by simp), hset, List.singleton_append]
    obtain ⟨tail', htail'⟩ := exists_joinWith_cons [' '] ("SET".toList ++ ' ' ::
      ((before.flatMap fun p => p ++ [',', ' ']) ++
        (stem ++ (keyword ++ ' ' :: (more ++ tail))))) parts
    refine ⟨more ++ tail ++ tail', ?_⟩
    rw [htail']
    simp [List.append_assoc]
  have hcut : cut? (keyword ++ [' ']) (("SET ".toList ++ before.flatMap fun p => p ++ [',', ' ']) ++
      (stem ++ (keyword ++ ' ' :: rest))) =
      some (("SET ".toList ++ before.flatMap fun p => p ++ [',', ' ']) ++ stem, rest) := by
    rw [hpasses, cut?_stem (by decide) (hstem.notMem (by decide)), Option.map_some]
  have hjoined : ("SET ".toList ++ before.flatMap fun p => p ++ [',', ' ']) ++ stem =
      "SET ".toList ++ joinWith [',', ' '] (before ++ [stem]) ++ [] := by
    rw [joinWith_append_cons, joinWith, List.append_assoc, List.append_nil]
  have hpieces : ∀ p ∈ before ++ [stem], IsClosed p ∧ IsTrimmed p := by
    intro p hp
    rcases List.mem_append.1 hp with hp | hp
    · exact ⟨(hbefore p hp).closed, (hbefore p hp).trimmed⟩
    · rw [List.mem_singleton.1 hp]
      exact ⟨hstem.isClosed, hstem.isTrimmed hne⟩
  have hafter := after?_trim_assignments (by simp) hpieces [] (by simp)
  rw [UpdateText.ofExpression, toList_mark, htext, hcut, hjoined]
  obtain ⟨cs, hcs, he⟩ := Option.map_eq_some_iff.1 hafter
  simp only [hcs, he]

end ItemStore.Memory
