import ItemStore.Proofs.Expression.Lexer

/-
The grammar of conditions, and why a condition has one reading at most.

A test binds tighter than `NOT`, `NOT` tighter than `AND`, `AND` tighter than `OR`, and
brackets put any condition in the place of a test. `Reads` has one level for each of
these. The `AND` of `BETWEEN` is no exception to the levels: it stands inside a test, and
the level above sees the test as a whole.

A reading is unique because of what can come after it. A path could only go on with a dot,
a row of conditions under `AND` only with another `AND`, and so on; if what follows is none
of these, two readings that start at the same place end at the same place. That is proved
for each kind of phrase by going along one of the two readings.

The grammar is written down without regard to what `render` makes use of, so it has readings for
many texts that are never compiled.
-/
set_option autoImplicit false

namespace ItemStore

/-! ## What can be read -/

/-- An operand, with tokens for names and values. -/
inductive Term where
  /-- The attribute at a path. -/
  | path (tokens : List String)
  /-- The size of the attribute at a path. -/
  | size (tokens : List String)
  | value (token : String)
  deriving DecidableEq, Repr

/-- What a test says of its first operand. -/
inductive Relation where
  | compares (operator : Operator) (right : Term)
  | between (low high : Term)
  | among (candidates : List Term)
  deriving DecidableEq, Repr

/-- A test, with tokens for names and values. -/
inductive Predicate where
  | relation (left : Term) (r : Relation)
  | function (operator : Operator) (arguments : List Term)
  deriving DecidableEq, Repr

/-- A condition on tests of any kind. The tests are a parameter, because they are predicates with
tokens at first and predicates with paths and values after looking up. -/
inductive Formula (α : Type) where
  | test (a : α)
  | not (f : Formula α)
  | all (fs : List (Formula α))
  | any (fs : List (Formula α))
  deriving Repr

/-- How many arguments a function has. -/
def Operator.arity? : Operator → Option Nat
  | .exists | .notExists => some 1
  | .beginsWith | .contains | .hasType => some 2
  | _ => none

/-! ## The grammar -/

/-- Name tokens with dots between them. -/
inductive ReadsPath : List Lexeme → List String → Prop where
  | last (token : String) : ReadsPath [.name token] [token]
  | step {ls : List Lexeme} {tokens : List String} (token : String)
      (h : ReadsPath ls tokens) : ReadsPath (.name token :: .dot :: ls) (token :: tokens)

/-- An operand. -/
inductive ReadsTerm : List Lexeme → Term → Prop where
  | path {ls : List Lexeme} {tokens : List String} (h : ReadsPath ls tokens) :
      ReadsTerm ls (.path tokens)
  | size {ls : List Lexeme} {tokens : List String} (h : ReadsPath ls tokens) :
      ReadsTerm (.word "size" :: .opening :: (ls ++ [.closing])) (.size tokens)
  | value (token : String) : ReadsTerm [.value token] (.value token)

/-- Operands with commas between them. -/
inductive ReadsTerms : List Lexeme → List Term → Prop where
  | last {ls : List Lexeme} {t : Term} (h : ReadsTerm ls t) : ReadsTerms ls [t]
  | step {ls ls' : List Lexeme} {t : Term} {ts : List Term} (h : ReadsTerm ls t)
      (h' : ReadsTerms ls' ts) : ReadsTerms (ls ++ .comma :: ls') (t :: ts)

/-- What comes after the first operand of a test. -/
inductive ReadsRelation : List Lexeme → Relation → Prop where
  | compares {ls : List Lexeme} {right : Term} (operator : Operator) (h : ReadsTerm ls right) :
      ReadsRelation (.comparator operator :: ls) (.compares operator right)
  | between {ls ls' : List Lexeme} {low high : Term} (h : ReadsTerm ls low)
      (h' : ReadsTerm ls' high) :
      ReadsRelation (.word "BETWEEN" :: (ls ++ .word "AND" :: ls')) (.between low high)
  | among {ls : List Lexeme} {candidates : List Term} (h : ReadsTerms ls candidates) :
      ReadsRelation (.word "IN" :: .opening :: (ls ++ [.closing])) (.among candidates)

/-- A test. -/
inductive ReadsPredicate : List Lexeme → Predicate → Prop where
  | relation {ls ls' : List Lexeme} {left : Term} {r : Relation} (h : ReadsTerm ls left)
      (h' : ReadsRelation ls' r) : ReadsPredicate (ls ++ ls') (.relation left r)
  | function {ls : List Lexeme} {arguments : List Term} (operator : Operator)
      (hop : operator.arity? = some arguments.length) (h : ReadsTerms ls arguments) :
      ReadsPredicate (.word operator.text :: .opening :: (ls ++ [.closing]))
        (.function operator arguments)

/-- How tightly a phrase binds. -/
inductive Level where
  /-- A test, or a condition in brackets. -/
  | primary
  /-- Any number of negations of a primary phrase. -/
  | negation
  /-- Negations with `AND` between them. -/
  | conjunction
  /-- Conjunctions with `OR` between them. -/
  | disjunction
  deriving DecidableEq

/-- A phrase of some level, and the conditions it is a row of. On the first two levels that is one
condition. A row of conditions stands under one level as a list, so `a AND b AND c` has one
reading and not two. -/
inductive Reads : Level → List Lexeme → List (Formula Predicate) → Prop where
  | test {ls : List Lexeme} {a : Predicate} (h : ReadsPredicate ls a) :
      Reads .primary ls [.test a]
  | brackets {ls : List Lexeme} {fs : List (Formula Predicate)} (h : Reads .disjunction ls fs) :
      Reads .primary (.opening :: (ls ++ [.closing])) [.any fs]
  | positive {ls : List Lexeme} {fs : List (Formula Predicate)} (h : Reads .primary ls fs) :
      Reads .negation ls fs
  | not {ls : List Lexeme} {f : Formula Predicate} (h : Reads .negation ls [f]) :
      Reads .negation (.word "NOT" :: ls) [.not f]
  | conjunct {ls : List Lexeme} {f : Formula Predicate} (h : Reads .negation ls [f]) :
      Reads .conjunction ls [f]
  | and {ls ls' : List Lexeme} {f : Formula Predicate} {fs : List (Formula Predicate)}
      (h : Reads .negation ls [f]) (h' : Reads .conjunction ls' fs) :
      Reads .conjunction (ls ++ .word "AND" :: ls') (f :: fs)
  | disjunct {ls : List Lexeme} {fs : List (Formula Predicate)}
      (h : Reads .conjunction ls fs) : Reads .disjunction ls [.all fs]
  | or {ls ls' : List Lexeme} {fs gs : List (Formula Predicate)}
      (h : Reads .conjunction ls fs) (h' : Reads .disjunction ls' gs) :
      Reads .disjunction (ls ++ .word "OR" :: ls') (.all fs :: gs)

/-- A text can be read as a condition. The whole text has to be read, and at the loosest level. -/
def IsReading (text : String) (f : Formula Predicate) : Prop :=
  ∃ ls fs, lex text.toList = some ls ∧ Reads .disjunction ls fs ∧ f = .any fs

/-! ## Readings end where they end -/

/-- Something other than the given lexeme comes next, if anything does. The end of the row counts
as something else. -/
def NotNext (l : Lexeme) (rest : List Lexeme) : Prop := rest.head? ≠ some l

theorem notNext_nil (l : Lexeme) : NotNext l [] := by simp [NotNext]

theorem notNext_cons {l l' : Lexeme} (h : l' ≠ l) (rest : List Lexeme) :
    NotNext l (l' :: rest) := by simpa [NotNext] using h

theorem ReadsPath.exists_cons {ls : List Lexeme} {tokens : List String}
    (h : ReadsPath ls tokens) : ∃ token ls', ls = .name token :: ls' := by
  cases h with
  | last token => exact ⟨token, [], rfl⟩
  | step token h => exact ⟨token, _, rfl⟩

/-- A path ends where no dot follows. -/
theorem ReadsPath.unique {ls ls' rest rest' : List Lexeme} {tokens tokens' : List String}
    (h : ReadsPath ls tokens) (h' : ReadsPath ls' tokens') (he : ls ++ rest = ls' ++ rest')
    (hrest : NotNext .dot rest) (hrest' : NotNext .dot rest') :
    ls = ls' ∧ tokens = tokens' := by
  -- along the first path; where one ends and the other goes on there is a dot
  induction h generalizing ls' tokens' with
  | last token =>
    cases h' with
    | last token' =>
      obtain ⟨hname, -⟩ := List.cons.inj he
      cases hname
      exact ⟨rfl, rfl⟩
    | step token' h' =>
      have hdot : rest = .dot :: _ := (List.cons.inj he).2
      simp [NotNext, hdot] at hrest
  | step token h ih =>
    cases h' with
    | last token' =>
      have hdot : .dot :: _ = rest' := (List.cons.inj he).2
      simp [NotNext, ← hdot] at hrest'
    | step token' h' =>
      obtain ⟨hname, htail⟩ := List.cons.inj he
      obtain ⟨-, htail⟩ := List.cons.inj htail
      cases hname
      obtain ⟨rfl, rfl⟩ := ih h' htail
      exact ⟨rfl, rfl⟩

/-- What an operand begins with. -/
theorem ReadsTerm.exists_cons {ls : List Lexeme} {t : Term} (h : ReadsTerm ls t) :
    ∃ l ls', ls = l :: ls' ∧
      ((∃ token, l = .name token) ∨ (∃ token, l = .value token) ∨ l = .word "size") := by
  cases h with
  | path h =>
    obtain ⟨token, ls', rfl⟩ := h.exists_cons
    exact ⟨_, ls', rfl, .inl ⟨token, rfl⟩⟩
  | size h => exact ⟨_, _, rfl, .inr (.inr rfl)⟩
  | value token => exact ⟨_, [], rfl, .inr (.inl ⟨token, rfl⟩)⟩

/-- An operand ends where no dot follows. -/
theorem ReadsTerm.unique {ls ls' rest rest' : List Lexeme} {t t' : Term}
    (h : ReadsTerm ls t) (h' : ReadsTerm ls' t') (he : ls ++ rest = ls' ++ rest')
    (hrest : NotNext .dot rest) (hrest' : NotNext .dot rest') : ls = ls' ∧ t = t' := by
  -- two operands of different kinds begin with different lexemes
  cases h with
  | path h =>
    cases h' with
    | path h' =>
      obtain ⟨rfl, rfl⟩ := h.unique h' he hrest hrest'
      exact ⟨rfl, rfl⟩
    | size h' =>
      obtain ⟨token, ls₁, rfl⟩ := h.exists_cons
      cases he
    | value token' =>
      obtain ⟨token, ls₁, rfl⟩ := h.exists_cons
      cases he
  | size h =>
    cases h' with
    | path h' =>
      obtain ⟨token, ls₁, rfl⟩ := h'.exists_cons
      cases he
    | size h' =>
      simp only [List.cons_append, List.append_assoc, List.cons.injEq, true_and,
        List.nil_append] at he
      have hclosing : ∀ rest, NotNext .dot (.closing :: rest) :=
        notNext_cons (by decide)
      obtain ⟨rfl, rfl⟩ := h.unique h' he (hclosing _) (hclosing _)
      exact ⟨rfl, rfl⟩
    | value token' => cases he
  | value token =>
    cases h' with
    | path h' =>
      obtain ⟨token', ls₁, rfl⟩ := h'.exists_cons
      cases he
    | size h' => cases he
    | value token' =>
      obtain ⟨hvalue, -⟩ := List.cons.inj he
      cases hvalue
      exact ⟨rfl, rfl⟩

/-- A row of operands ends at a bracket. -/
theorem ReadsTerms.unique {ls ls' rest rest' : List Lexeme} {ts ts' : List Term}
    (h : ReadsTerms ls ts) (h' : ReadsTerms ls' ts')
    (he : ls ++ .closing :: rest = ls' ++ .closing :: rest') : ls = ls' ∧ ts = ts' := by
  have hclosing : ∀ rest, NotNext .dot (.closing :: rest) := notNext_cons (by decide)
  have hcomma : ∀ rest, NotNext .dot (.comma :: rest) := notNext_cons (by decide)
  -- along the first row; an operand is followed by a comma or by the bracket
  induction h generalizing ls' ts' with
  | last h =>
    cases h' with
    | last h' =>
      obtain ⟨rfl, rfl⟩ := h.unique h' he (hclosing _) (hclosing _)
      exact ⟨rfl, rfl⟩
    | step h' h'' =>
      rw [List.append_assoc] at he
      obtain ⟨rfl, -⟩ := h.unique h' he (hclosing _) (hcomma _)
      rw [List.append_cancel_left_eq] at he
      cases he
  | step h hs ih =>
    rw [List.append_assoc] at he
    cases h' with
    | last h' =>
      obtain ⟨rfl, -⟩ := h.unique h' he (hcomma _) (hclosing _)
      rw [List.append_cancel_left_eq] at he
      cases he
    | step h' h'' =>
      rw [List.append_assoc] at he
      obtain ⟨rfl, rfl⟩ := h.unique h' he (hcomma _) (hcomma _)
      rw [List.append_cancel_left_eq] at he
      obtain ⟨-, htail⟩ := List.cons.inj he
      obtain ⟨rfl, rfl⟩ := ih h'' htail
      exact ⟨rfl, rfl⟩

/-! ## Tests -/

theorem Operator.text_injective {operator operator' : Operator}
    (h : operator.text = operator'.text) : operator = operator' := by
  have hof := Operator.ofText?_text operator
  rw [h, Operator.ofText?_text] at hof
  exact (Option.some.inj hof).symm

/-- What comes after an operand does not go on the operand. -/
theorem ReadsRelation.notNext_dot {ls : List Lexeme} {r : Relation} (h : ReadsRelation ls r)
    (rest : List Lexeme) : NotNext .dot (ls ++ rest) := by
  cases h with
  | compares operator h => exact notNext_cons (by simp) _
  | between h h' => exact notNext_cons (by simp) _
  | among h => exact notNext_cons (by simp) _

theorem ReadsRelation.unique {ls ls' rest rest' : List Lexeme} {r r' : Relation}
    (h : ReadsRelation ls r) (h' : ReadsRelation ls' r') (he : ls ++ rest = ls' ++ rest')
    (hrest : NotNext .dot rest) (hrest' : NotNext .dot rest') : ls = ls' ∧ r = r' := by
  cases h with
  | compares operator h =>
    cases h' with
    | compares operator' h' =>
      obtain ⟨hop, htail⟩ := List.cons.inj he
      cases hop
      obtain ⟨rfl, rfl⟩ := h.unique h' htail hrest hrest'
      exact ⟨rfl, rfl⟩
    | between h' h'' => cases he
    | among h' => cases he
  | between h₁ h₂ =>
    cases h' with
    | compares operator h' => cases he
    | between h₁' h₂' =>
      -- the low bound ends at the `AND`, which does not go on an operand
      have hand : ∀ rest, NotNext .dot (.word "AND" :: rest) := notNext_cons (by simp)
      simp only [List.cons_append, List.append_assoc, List.cons.injEq, true_and] at he
      obtain ⟨rfl, rfl⟩ := h₁.unique h₁' he (hand _) (hand _)
      rw [List.append_cancel_left_eq] at he
      obtain ⟨rfl, rfl⟩ := h₂.unique h₂' (List.cons.inj he).2 hrest hrest'
      exact ⟨rfl, rfl⟩
    | among h' => simp at he
  | among h =>
    cases h' with
    | compares operator h' => cases he
    | between h' h'' => simp at he
    | among h' =>
      simp only [List.cons_append, List.append_assoc, List.cons.injEq, true_and,
        List.nil_append] at he
      obtain ⟨rfl, rfl⟩ := h.unique h' he
      exact ⟨rfl, rfl⟩

/-- An operand is not a function call. -/
theorem ReadsTerm.ne_function {ls rest rest' : List Lexeme} {t : Term} {operator : Operator}
    {n : Nat} (h : ReadsTerm ls t) (hop : operator.arity? = some n) :
    ls ++ rest ≠ .word operator.text :: rest' := by
  obtain ⟨l, ls', rfl, hl⟩ := h.exists_cons
  intro he
  obtain ⟨rfl, -⟩ := List.cons.inj he
  rcases hl with ⟨token, hl⟩ | ⟨token, hl⟩ | hl
  · cases hl
  · cases hl
  · -- only one operator is spelled like the function that makes an operand
    have hsize : operator = .size := Operator.text_injective (Lexeme.word.inj hl)
    rw [hsize] at hop
    cases hop

/-- A test ends where no dot follows. -/
theorem ReadsPredicate.unique {ls ls' rest rest' : List Lexeme} {a a' : Predicate}
    (h : ReadsPredicate ls a) (h' : ReadsPredicate ls' a') (he : ls ++ rest = ls' ++ rest')
    (hrest : NotNext .dot rest) (hrest' : NotNext .dot rest') : ls = ls' ∧ a = a' := by
  cases h with
  | relation h₁ h₂ =>
    rw [List.append_assoc] at he
    cases h' with
    | relation h₁' h₂' =>
      rw [List.append_assoc] at he
      obtain ⟨rfl, rfl⟩ := h₁.unique h₁' he (h₂.notNext_dot _) (h₂'.notNext_dot _)
      rw [List.append_cancel_left_eq] at he
      obtain ⟨rfl, rfl⟩ := h₂.unique h₂' he hrest hrest'
      exact ⟨rfl, rfl⟩
    | function operator' hop' h' =>
      -- an operand and a function call never begin alike
      exact absurd he (h₁.ne_function hop')
  | function operator hop h =>
    cases h' with
    | relation h₁' h₂' =>
      rw [List.append_assoc] at he
      exact absurd he.symm (h₁'.ne_function hop)
    | function operator' hop' h' =>
      simp only [List.cons_append, List.cons.injEq, Lexeme.word.injEq, true_and,
        List.append_assoc, List.nil_append] at he
      obtain ⟨htext, he⟩ := he
      obtain ⟨rfl, rfl⟩ := h.unique h' he
      rw [Operator.text_injective htext]
      exact ⟨rfl, rfl⟩

/-- What a test begins with: an operand or the name of a function. -/
theorem ReadsPredicate.exists_cons {ls : List Lexeme} {a : Predicate} (h : ReadsPredicate ls a) :
    ∃ l ls', ls = l :: ls' ∧ l ≠ .opening ∧ l ≠ .word "NOT" := by
  cases h with
  | relation h h' =>
    obtain ⟨l, ls', rfl, hl⟩ := h.exists_cons
    refine ⟨l, _, List.cons_append, ?_⟩
    rcases hl with ⟨token, rfl⟩ | ⟨token, rfl⟩ | rfl <;> simp
  | function operator hop h =>
    refine ⟨_, _, rfl, by simp, ?_⟩
    intro hl
    have htext : operator.text ≠ "NOT" := by cases operator <;> decide
    exact htext (Lexeme.word.inj hl)

/-! ## Conditions -/

/-- Nothing comes next that could go on a phrase of some level. -/
def Level.Ends : Level → List Lexeme → Prop
  | .primary, rest => NotNext .dot rest
  | .negation, rest => NotNext .dot rest
  | .conjunction, rest => NotNext .dot rest ∧ NotNext (.word "AND") rest
  | .disjunction, rest =>
    NotNext .dot rest ∧ NotNext (.word "AND") rest ∧ NotNext (.word "OR") rest

theorem Level.ends_nil (level : Level) : level.Ends [] := by
  have hnil := notNext_nil
  cases level with
  | primary => exact hnil _
  | negation => exact hnil _
  | conjunction => exact ⟨hnil _, hnil _⟩
  | disjunction => exact ⟨hnil _, hnil _, hnil _⟩

/-- A primary phrase is not a negation. -/
theorem Reads.exists_cons_of_primary {ls : List Lexeme} {fs : List (Formula Predicate)}
    (h : Reads .primary ls fs) : ∃ l ls', ls = l :: ls' ∧ l ≠ .word "NOT" := by
  cases h with
  | test h =>
    obtain ⟨l, ls', rfl, -, hne⟩ := h.exists_cons
    exact ⟨l, ls', rfl, hne⟩
  | brackets h => exact ⟨_, _, rfl, by simp⟩

/-- **No phrase has two readings.** Two readings that begin at the same place, and are both
followed by nothing that could go on, end at the same place and are the same. It does not ask that
the text was compiled. What may follow is left open up to what could go on the phrase, because a
phrase inside brackets is followed by more. -/
theorem Reads.unique {level : Level} {ls ls' rest rest' : List Lexeme}
    {fs fs' : List (Formula Predicate)} (h : Reads level ls fs) (h' : Reads level ls' fs')
    (he : ls ++ rest = ls' ++ rest') (hrest : level.Ends rest) (hrest' : level.Ends rest') :
    ls = ls' ∧ fs = fs' := by
  -- along the first reading; at each level the second one has the two forms of that level, and
  -- one form is excluded by what the phrase begins with or by what comes after it
  induction h generalizing ls' fs' rest rest' with
  | test h =>
    cases h' with
    | test h' =>
      obtain ⟨rfl, rfl⟩ := h.unique h' he hrest hrest'
      exact ⟨rfl, rfl⟩
    | brackets h' =>
      obtain ⟨l, ls₁, rfl, hne, -⟩ := h.exists_cons
      exact absurd (List.cons.inj he).1 hne
  | brackets h ih =>
    cases h' with
    | test h' =>
      obtain ⟨l, ls₁, rfl, hne, -⟩ := h'.exists_cons
      exact absurd (List.cons.inj he).1.symm hne
    | brackets h' =>
      -- inside brackets a condition ends at the closing one
      have hclosing : ∀ rest, Level.disjunction.Ends (.closing :: rest) := fun rest =>
        ⟨notNext_cons (by simp) _, notNext_cons (by simp) _, notNext_cons (by simp) _⟩
      simp only [List.cons_append, List.append_assoc, List.cons.injEq, true_and,
        List.nil_append] at he
      obtain ⟨rfl, rfl⟩ := ih h' he (hclosing _) (hclosing _)
      exact ⟨rfl, rfl⟩
  | positive h ih =>
    cases h' with
    | positive h' => exact ih h' he hrest hrest'
    | not h' =>
      obtain ⟨l, ls₁, rfl, hne⟩ := h.exists_cons_of_primary
      exact absurd (List.cons.inj he).1 hne
  | not h ih =>
    cases h' with
    | positive h' =>
      obtain ⟨l, ls₁, rfl, hne⟩ := h'.exists_cons_of_primary
      exact absurd (List.cons.inj he).1.symm hne
    | not h' =>
      obtain ⟨rfl, hf⟩ := ih h' (List.cons.inj he).2 hrest hrest'
      cases hf
      exact ⟨rfl, rfl⟩
  | conjunct h ih =>
    cases h' with
    | conjunct h' => exact ih h' he hrest.1 hrest'.1
    | and h' h'' =>
      rw [List.append_assoc] at he
      -- the first part is the same, and then only one of the two goes on with `AND`
      obtain ⟨rfl, -⟩ := ih h' he hrest.1 (notNext_cons (by simp) _)
      rw [List.append_cancel_left_eq] at he
      simp [Level.Ends, NotNext, he] at hrest
  | and h h₂ ih ih₂ =>
    rw [List.append_assoc] at he
    cases h' with
    | conjunct h' =>
      obtain ⟨rfl, -⟩ := ih h' he (notNext_cons (by simp) _) hrest'.1
      rw [List.append_cancel_left_eq] at he
      simp [Level.Ends, NotNext, ← he] at hrest'
    | and h' h'' =>
      rw [List.append_assoc] at he
      obtain ⟨rfl, hf⟩ := ih h' he (notNext_cons (by simp) _) (notNext_cons (by simp) _)
      rw [List.append_cancel_left_eq] at he
      obtain ⟨rfl, rfl⟩ := ih₂ h'' (List.cons.inj he).2 hrest hrest'
      cases hf
      exact ⟨rfl, rfl⟩
  | disjunct h ih =>
    cases h' with
    | disjunct h' =>
      obtain ⟨rfl, rfl⟩ := ih h' he ⟨hrest.1, hrest.2.1⟩ ⟨hrest'.1, hrest'.2.1⟩
      exact ⟨rfl, rfl⟩
    | or h' h'' =>
      rw [List.append_assoc] at he
      -- the same with `OR`
      obtain ⟨rfl, -⟩ := ih h' he ⟨hrest.1, hrest.2.1⟩
        ⟨notNext_cons (by simp) _, notNext_cons (by simp) _⟩
      rw [List.append_cancel_left_eq] at he
      simp [Level.Ends, NotNext, he] at hrest
  | or h h₂ ih ih₂ =>
    have hor : ∀ rest, Level.conjunction.Ends (.word "OR" :: rest) := fun rest =>
      ⟨notNext_cons (by simp) _, notNext_cons (by simp) _⟩
    rw [List.append_assoc] at he
    cases h' with
    | disjunct h' =>
      obtain ⟨rfl, -⟩ := ih h' he (hor _) ⟨hrest'.1, hrest'.2.1⟩
      rw [List.append_cancel_left_eq] at he
      simp [Level.Ends, NotNext, ← he] at hrest'
    | or h' h'' =>
      rw [List.append_assoc] at he
      obtain ⟨rfl, rfl⟩ := ih h' he (hor _) (hor _)
      rw [List.append_cancel_left_eq] at he
      obtain ⟨rfl, rfl⟩ := ih₂ h'' (List.cons.inj he).2 hrest hrest'
      exact ⟨rfl, rfl⟩

/-- A text has one reading at most. -/
theorem IsReading.unique {text : String} {f g : Formula Predicate} (hf : IsReading text f)
    (hg : IsReading text g) : f = g := by
  obtain ⟨ls, fs, hlex, hfs, rfl⟩ := hf
  obtain ⟨ls', gs, hlex', hgs, rfl⟩ := hg
  rw [hlex] at hlex'
  cases hlex'
  -- nothing comes after a whole text
  obtain ⟨-, rfl⟩ := hfs.unique hgs rfl (Level.ends_nil _) (Level.ends_nil _)
  rfl

end ItemStore
