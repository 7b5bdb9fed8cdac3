import ItemStore.Proofs.Expression.Fresh
import ItemStore.Proofs.Expression.Grammar

/-
A compiled condition reads back as the condition.

Compiling is correct if the store, which sees a text and two tables and nothing else, gets
the condition back. `Condition.formula` says what there is to get: the same tree with
paths as they were written and values as they are encoded, where a connective over a
single condition is that condition and a negation of several is that of their conjunction.
On the way back the text is read by the grammar and the tokens are looked up.

The text comes out right whatever the tables are. The look-ups need the tables of the end,
not those of the moment, because a condition to the right binds more; that is why the main
lemma is stated for all tables that have grown out of those that a condition left behind.
-/
set_option autoImplicit false

namespace ItemStore

open Entries Bindings

/-! ## Looking tokens up -/

/-- A test as it is meant: the path as written, the values as encoded. There are no tokens left in
it, so two tests that are written with different tokens can be compared. -/
structure ResolvedTest where
  path : String
  operator : Operator
  /-- What a size is compared with. -/
  comparator : Option Operator
  values : List Descriptor

namespace Relation

def operator : Relation → Operator
  | compares operator _ => operator
  | between _ _ => .between
  | among _ => .isIn

def operands : Relation → List Term
  | compares _ right => [right]
  | between low high => [low, high]
  | among candidates => candidates

end Relation

/-- The path a test is about, its operator, the comparator of its size and its operands. -/
def Predicate.parts? : Predicate → Option (List String × Operator × Option Operator × List Term)
  | relation (.path tokens) r => some (tokens, r.operator, none, r.operands)
  | relation (.size tokens) (.compares comparator right) =>
    some (tokens, .size, some comparator, [right])
  | function operator (.path tokens :: arguments) => some (tokens, operator, none, arguments)
  | _ => none

namespace Bindings

/-- The path that name tokens stand for. It is nothing if one of the tokens is not bound. -/
def path? (b : Bindings) (tokens : List String) : Option String :=
  (tokens.mapM fun token => get? token b.names).map fun segments => ".".intercalate segments

/-- The value that an operand stands for. -/
def value? (b : Bindings) : Term → Option Descriptor
  | .value token => get? token b.values
  | _ => none

end Bindings

/-- A test with its tokens looked up. -/
def Predicate.resolve? (b : Bindings) (a : Predicate) : Option ResolvedTest := do
  let (tokens, operator, comparator, operands) ← a.parts?
  let path ← b.path? tokens
  let values ← operands.mapM b.value?
  some { path, operator, comparator, values }

namespace Formula

variable {α β : Type}

/-- A conjunction; one of a single formula is that formula. -/
def conj : List (Formula α) → Formula α
  | [f] => f
  | fs => .all fs

/-- A disjunction; one of a single formula is that formula. -/
def disj : List (Formula α) → Formula α
  | [f] => f
  | fs => .any fs

mutual

/-- Resolves every test, and drops connectives over a single formula. Connectives over a single
formula are dropped because the text of such a group has brackets and nothing else to tell it from
its member. -/
def resolve? (resolve : α → Option β) : Formula α → Option (Formula β)
  | test a => (resolve a).map .test
  | not f => (f.resolve? resolve).map .not
  | all fs => (resolveAll? resolve fs).map conj
  | any fs => (resolveAll? resolve fs).map disj

/-- The same for several formulas. -/
def resolveAll? (resolve : α → Option β) : List (Formula α) → Option (List (Formula β))
  | [] => some []
  | f :: fs => do
    let g ← f.resolve? resolve
    let gs ← resolveAll? resolve fs
    some (g :: gs)

end

end Formula

/-! ## The condition itself -/

/-- Formulas under a connective. -/
def Connective.combine {α : Type} : Connective → List (Formula α) → Formula α
  | .and, fs => .conj fs
  | .or, fs => .disj fs
  | .not, fs => .not (.conj fs)

namespace Condition

mutual

/-- The condition as it is meant for items of the given schema. It is defined from the condition
and the schema and without the compiler, so it is an independent account of what a text should
mean. -/
def formula (schema : Schema) : Condition → Except Error (Formula ResolvedTest)
  | test path operator operand => do
    let node ← schema.resolve path
    let values ← operand.values.mapM (node.operandNode operator).encode
    .ok (.test { path := path.text, operator, comparator := operand.comparator?, values })
  | group connective conditions => do
    let fs ← formulas schema conditions
    .ok (connective.combine fs)

/-- Several conditions as they are meant. -/
def formulas (schema : Schema) : List Condition → Except Error (List (Formula ResolvedTest))
  | [] => .ok []
  | c :: cs => do
    let f ← c.formula schema
    let fs ← formulas schema cs
    .ok (f :: fs)

end

end Condition

/-! ## Lexemes of compiled texts -/

theorem isWord_of_all {cs : List Char} (h : cs.all Path.isTokenChar = true) : IsWord cs :=
  List.all_eq_true.1 h

/-- A keyword between blanks. -/
theorem seals_keyword {keyword piece : String} (hword : keyword.toList.all Path.isTokenChar = true)
    (hne : keyword ≠ "") (hpiece : piece.toList = ' ' :: (keyword.toList ++ [' '])) :
    Seals piece.toList [.word keyword] := by
  rw [hpiece]
  exact (lexesTo_word (isWord_of_all hword) hne).seals_between_blanks

theorem seals_separator : Seals ", ".toList [.comma] := seals_comma.append seals_blank

/-- A piece that begins with a character that ends words and comparators. -/
theorem isBreak_of_head {c : Char} {cs : List Char}
    (h : (!Path.isTokenChar c && !isComparatorChar c) = true) : IsBreak (c :: cs) := by
  simp only [Bool.and_eq_true, Bool.not_eq_true'] at h
  exact isBreak_cons h cs

/-- Two texts with a sealed one between them. -/
theorem LexesTo.join {a b : List Char} {s : String} {la ls lb : List Lexeme} (ha : LexesTo a la)
    (hs : Seals s.toList ls) (hne : s.toList ≠ []) (hbreak : IsBreak s.toList)
    (hb : LexesTo b lb) : LexesTo (a ++ s.toList ++ b) (la ++ ls ++ lb) :=
  (ha.append_seals hs hne hbreak).append_lexesTo hb

/-- **Rows.** Texts that can be read one by one can be read as a row of them, with a separator in
between that is a lexeme of its own. What the row makes of one of them is `wrap`. It serves rows
of operands, of conjuncts and of disjuncts alike, which is why both kinds of reading are
parameters. -/
theorem exists_reads_row {α β : Type} {reads : List Lexeme → α → Prop}
    {readsRow : List Lexeme → List β → Prop} (wrap : α → β) {sep : String} {l : Lexeme}
    (hlast : ∀ {ls a}, reads ls a → readsRow ls [wrap a])
    (hstep : ∀ {ls ls' a bs}, reads ls a → readsRow ls' bs →
      readsRow (ls ++ l :: ls') (wrap a :: bs))
    (hsep : Seals sep.toList [l]) (hsep' : sep.toList ≠ []) (hbreak : IsBreak sep.toList)
    {texts : List String} {as : List α} (hne : texts ≠ [])
    (h : List.Forall₂ (fun text a => ∃ ls, LexesTo text.toList ls ∧ reads ls a) texts as) :
    ∃ ls, LexesTo (sep.intercalate texts).toList ls ∧ readsRow ls (as.map wrap) := by
  induction h with
  | nil => exact absurd rfl hne
  | @cons text a texts as hfirst hrest ih =>
    obtain ⟨ls, hls, hreads⟩ := hfirst
    -- no separator stands behind the last text
    cases hrest with
    | nil => exact ⟨ls, by simpa using hls, hlast hreads⟩
    | @cons text' a' texts as hsecond hrest =>
      obtain ⟨ls', hls', hreads'⟩ := ih (by simp)
      refine ⟨ls ++ l :: ls', ?_, hstep hreads hreads'⟩
      have hjoin := hls.join hsep hsep' hbreak hls'
      rw [String.intercalate_cons_cons]
      simpa [String.toList_append] using hjoin

theorem exists_reads_dotted {tokens : List String} (hne : tokens ≠ [])
    (h : ∀ t ∈ tokens, IsToken '#' t) :
    ∃ ls, LexesTo (dotted tokens).toList ls ∧ ReadsPath ls tokens := by
  have hnames : List.Forall₂ (fun text t => ∃ ls, LexesTo text.toList ls ∧ ls = [.name t])
      tokens tokens := by
    rw [List.forall₂_same]
    intro t ht
    exact ⟨[.name t], lexesTo_name (h t ht), rfl⟩
  have hdot : Seals ".".toList [.dot] := seals_dot
  have hrow : ∃ ls, LexesTo (dotted tokens).toList ls ∧ ReadsPath ls (tokens.map id) := by
    refine exists_reads_row id ?_ ?_ hdot (by decide) (isBreak_of_head (by decide)) hne hnames
    · rintro ls t rfl
      exact .last t
    · rintro ls ls' t ts rfl hpath
      exact .step t hpath
  rw [List.map_id] at hrow
  exact hrow

/-- A text that reads as an operand. -/
def ReadsOperand (text : String) (t : Term) : Prop :=
  ∃ ls, LexesTo text.toList ls ∧ ReadsTerm ls t

theorem readsOperand_value {token : String} (h : IsToken ':' token) :
    ReadsOperand token (.value token) := ⟨_, lexesTo_value h, .value token⟩

theorem exists_reads_terms {texts : List String} {ts : List Term} (hne : texts ≠ [])
    (h : List.Forall₂ ReadsOperand texts ts) :
    ∃ ls, LexesTo (", ".intercalate texts).toList ls ∧ ReadsTerms ls ts := by
  have hrow : ∃ ls, LexesTo (", ".intercalate texts).toList ls ∧ ReadsTerms ls (ts.map id) :=
    exists_reads_row id .last .step seals_separator (by decide) (isBreak_of_head (by decide))
      hne h
  rw [List.map_id] at hrow
  exact hrow

/-- A text in brackets. -/
theorem LexesTo.brackets {a : List Char} {ls : List Lexeme} (h : LexesTo a ls) :
    Seals ('(' :: (a ++ [')'])) (.opening :: (ls ++ [.closing])) :=
  seals_opening.append (h.append_seals seals_closing (by decide) (isBreak_of_head (by decide)))

/-- A function call. -/
theorem lexesTo_call {operator : Operator} {texts : List String} {ls : List Lexeme}
    (hword : operator.text.toList.all Path.isTokenChar = true) (hne : operator.text ≠ "")
    (h : LexesTo (", ".intercalate texts).toList ls) :
    LexesTo (call operator.text texts).toList
      (.word operator.text :: .opening :: (ls ++ [.closing])) := by
  have hcall := (lexesTo_word (isWord_of_all hword) hne).append_seals h.brackets (by simp)
    (isBreak_of_head (by decide))
  -- the text of the call as a word and a text in brackets
  have hform : (call operator.text texts).toList =
      operator.text.toList ++ '(' :: ((", ".intercalate texts).toList ++ [')']) := by
    simp [call, String.toList_append]
  rw [hform]
  exact hcall.lexesTo

/-- A comparison. -/
theorem lexesTo_comparison {left right : String} {operator : Operator} {ls ls' : List Lexeme}
    (hop : operator.isComparator = true) (h : LexesTo left.toList ls)
    (h' : LexesTo right.toList ls') :
    LexesTo (comparison left operator right).toList (ls ++ .comparator operator :: ls') := by
  have hseals := (lexesTo_comparator hop).seals_between_blanks
  have hjoin := (h.append_seals hseals (by simp) (isBreak_of_head (by decide))).append_lexesTo h'
  have hform : (comparison left operator right).toList =
      left.toList ++ ' ' :: (operator.text.toList ++ [' ']) ++ right.toList := by
    simp [comparison, String.toList_append]
  rw [hform]
  simpa using hjoin

/-! ## Tests -/

/-- **A test reads back**: its text is a test about the same path, with the same operator
and the tokens of its values as operands. -/
theorem exists_reads_renders {names values : List String} {operator : Operator}
    {operand : Operand} {text : String} (hne : names ≠ []) (hnames : ∀ t ∈ names, IsToken '#' t)
    (hvalues : ∀ t ∈ values, IsToken ':' t)
    (h : RendersTest (dotted names) operator operand values text) :
    ∃ ls a, LexesTo text.toList ls ∧ ReadsPredicate ls a ∧
      a.parts? = some (names, operator, operand.comparator?, values.map .value) := by
  obtain ⟨ln, hln, hpath⟩ := exists_reads_dotted hne hnames
  have hname : ReadsOperand (dotted names) (.path names) := ⟨ln, hln, .path hpath⟩
  cases h with
  | @comparison _ v token hop =>
    have htoken := lexesTo_value (hvalues token (by simp))
    exact ⟨_, _, lexesTo_comparison hop hln htoken,
      .relation (.path hpath) (.compares operator (.value token)), rfl⟩
  | @function _ v token hop =>
    -- the path is the first argument and the value the second one
    have htoken : ReadsOperand token (.value token) := readsOperand_value (hvalues token (by simp))
    obtain ⟨ls, hls, hreads⟩ := exists_reads_terms (by simp) (.cons hname (.cons htoken .nil))
    refine ⟨_, .function operator [.path names, .value token], lexesTo_call ?_ ?_ hls,
      .function operator ?_ hreads, rfl⟩
    · rcases hop with rfl | rfl | rfl <;> decide
    · rcases hop with rfl | rfl | rfl <;> decide
    · rcases hop with rfl | rfl | rfl <;> rfl
  | presence hop =>
    obtain ⟨ls, hls, hreads⟩ := exists_reads_terms (by simp) (.cons hname .nil)
    refine ⟨_, .function operator [.path names], lexesTo_call ?_ ?_ hls,
      .function operator ?_ hreads, rfl⟩
    · rcases hop with rfl | rfl <;> decide
    · rcases hop with rfl | rfl <;> decide
    · rcases hop with rfl | rfl <;> rfl
  | @between v w low high =>
    have hlow := lexesTo_value (hvalues low (by simp))
    have hhigh := lexesTo_value (hvalues high (by simp))
    have hbetween : Seals " BETWEEN ".toList [.word "BETWEEN"] :=
      seals_keyword (by decide) (by decide) rfl
    have hand : Seals " AND ".toList [.word "AND"] := seals_keyword (by decide) (by decide) rfl
    -- the pieces are put together from the right: the two bounds, then the path
    have hbounds := hlow.join hand (by decide) (isBreak_of_head (by decide)) hhigh
    have hall := hln.join hbetween (by decide) (isBreak_of_head (by decide)) hbounds
    refine ⟨_, .relation (.path names) (.between (.value low) (.value high)), ?_,
      .relation (.path hpath) (.between (.value low) (.value high)), rfl⟩
    simpa [String.toList_append] using hall
  | @isIn vs tokens hne' =>
    -- every token in the list is an operand of its own
    have hoperands : List.Forall₂ ReadsOperand values (values.map .value) := by
      rw [List.forall₂_map_right_iff, List.forall₂_same]
      exact fun t ht => readsOperand_value (hvalues t ht)
    obtain ⟨ls, hls, hreads⟩ := exists_reads_terms hne' hoperands
    have hin : Seals " IN ".toList [.word "IN"] := seals_keyword (by decide) (by decide) rfl
    have hall := hln.join hin (by decide) (isBreak_of_head (by decide)) hls.brackets.lexesTo
    refine ⟨_, .relation (.path names) (.among (values.map .value)), ?_,
      .relation (.path hpath) (.among hreads), rfl⟩
    simpa [String.toList_append] using hall
  | @size comparator v token hop =>
    have htoken := lexesTo_value (hvalues token (by simp))
    have hargument : LexesTo (", ".intercalate [dotted names]).toList ln := by simpa using hln
    have hcall : LexesTo (call Operator.size.text [dotted names]).toList _ :=
      lexesTo_call (by decide) (by decide) hargument
    exact ⟨_, _, lexesTo_comparison hop hcall htoken,
      .relation (.size hpath) (.compares comparator (.value token)), rfl⟩

/-- The tokens of a path stand for the path. -/
theorem path?_eq_some {b : Bindings} {tokens : List String} {p : Path}
    (h : List.Forall₂ (fun token segment => get? token b.names = some segment) tokens p.segments) :
    b.path? tokens = some p.text := by
  have hsegments : tokens.mapM (fun token => get? token b.names) = some p.segments := by
    generalize p.segments = segments at h
    induction h with
    | nil => rfl
    | cons hfirst hrest ih => simp [List.mapM_cons, hfirst, ih]
  -- joining texts is joining their characters, and that undoes the splitting
  have hjoin : ∀ pieces : List (List Char), (".".intercalate (pieces.map String.ofList)).toList =
      Text.joinWith ['.'] pieces := by
    intro pieces
    induction pieces with
    | nil => rfl
    | cons piece pieces ih =>
      cases pieces with
      | nil => simp [Text.joinWith]
      | cons piece' pieces =>
        rw [List.map_cons, List.map_cons, String.intercalate_cons_cons, String.toList_append,
          String.toList_append, ← List.map_cons, ih, String.toList_ofList]
        rfl
  have htext : ".".intercalate p.segments = p.text := by
    rw [← String.toList_inj, Path.segments, hjoin, Text.joinWith_splitOn]
  rw [Bindings.path?, hsegments, Option.map_some, htext]

/-- The tokens of values stand for the values. -/
theorem mapM_value?_eq_some {b : Bindings} {tokens : List String} {ds : List Descriptor}
    (h : List.Forall₂ (fun token d => get? token b.values = some d) tokens ds) :
    (tokens.map Term.value).mapM b.value? = some ds := by
  induction h with
  | nil => rfl
  | cons hfirst hrest ih => simp [List.mapM_cons, Bindings.value?, hfirst, ih]

/-- Values that are encoded one by one are encoded in a row. -/
theorem mapM_encode_eq_ok {node : Schema} {vs : List Value} {ds : List Descriptor}
    (h : List.Forall₂ (fun v d => node.encode v = .ok d) vs ds) :
    vs.mapM node.encode = .ok ds := by
  induction h with
  | nil => rfl
  | cons hfirst hrest ih =>
    rw [List.mapM_cons]
    exact bind_eq_ok.2 ⟨_, hfirst, bind_eq_ok.2 ⟨_, ih, rfl⟩⟩

/-- A text that reads as a phrase of some level. -/
def ReadsText (level : Level) (text : String) (fs : List (Formula Predicate)) : Prop :=
  ∃ ls, LexesTo text.toList ls ∧ Reads level ls fs

/-- What a compiled test reads back as, in all later tables. -/
theorem CompiledTest.exists_reads {schema : Schema} {leaf : Leaf} {progress progress' : Progress}
    {node : Schema} {values : List Descriptor} {text : String}
    (h : CompiledTest schema leaf progress node values text progress')
    (hb : progress.bindings.From (ValueOrigin.Before progress.position)) :
    ∃ a, ReadsText .primary text [.test a] ∧ ∀ b, Bindings.Grows progress'.bindings b →
      a.resolve? b =
        some ⟨leaf.path.text, leaf.operator, leaf.operand.comparator?, values⟩ := by
  obtain ⟨hnames, htokens⟩ := leaf.isToken_tokens progress
  obtain ⟨ls, a, hls, hreads, hparts⟩ :=
    exists_reads_renders (pathTokens_ne_nil _ _ _) hnames htokens h.renders
  -- the reading is fixed here, before any tables are named
  refine ⟨a, ⟨ls, hls, .test hreads⟩, fun b hgrows => ?_⟩
  have hpath : b.path? (progress.bindings.pathTokens leaf.path (leaf.site progress).nameSuffix) =
      some leaf.path.text := by
    -- what the test has bound is still there in the later tables
    refine path?_eq_some ((get?_namesWith _ _ _).imp fun token segment hbound => ?_)
    exact hgrows.names _ _ (h.names ▸ hbound)
  have hvalues : ((leaf.tokens progress).map Term.value).mapM b.value? = some values := by
    refine mapM_value?_eq_some ((h.get?_tokens hb).imp fun token d hbound => ?_)
    exact hgrows.values _ _ hbound
  simp [Predicate.resolve?, hparts, hpath, hvalues]

/-! ## Trees -/

/-- Brackets make any condition a primary phrase. -/
theorem ReadsText.brackets {text : String} {fs : List (Formula Predicate)}
    (h : ReadsText .disjunction text fs) : ReadsText .primary ("(" ++ text ++ ")") [.any fs] := by
  obtain ⟨ls, hls, hreads⟩ := h
  have hform : ("(" ++ text ++ ")").toList = '(' :: (text.toList ++ [')']) := by
    simp [String.toList_append]
  refine ⟨_, ?_, .brackets hreads⟩
  rw [hform]
  exact hls.brackets.lexesTo

/-- Conditions with `AND` between them. -/
theorem exists_reads_conjunction {parts : List String} {fs : List (Formula Predicate)}
    (hne : parts ≠ []) (h : List.Forall₂ (fun part f => ReadsText .primary part [f]) parts fs) :
    ReadsText .conjunction (" AND ".intercalate parts) fs := by
  have hand : Seals " AND ".toList [.word "AND"] := seals_keyword (by decide) (by decide) rfl
  have hrow : ReadsText .conjunction (" AND ".intercalate parts) (fs.map id) :=
    exists_reads_row id (fun hf => .conjunct (.positive hf))
      (fun hf hfs => .and (.positive hf) hfs) hand (by decide) (isBreak_of_head (by decide)) hne h
  rw [List.map_id] at hrow
  exact hrow

/-- Conditions with `OR` between them. -/
theorem exists_reads_disjunction {parts : List String} {fs : List (Formula Predicate)}
    (hne : parts ≠ []) (h : List.Forall₂ (fun part f => ReadsText .primary part [f]) parts fs) :
    ReadsText .disjunction (" OR ".intercalate parts) (fs.map fun f => .all [f]) := by
  have hor : Seals " OR ".toList [.word "OR"] := seals_keyword (by decide) (by decide) rfl
  exact exists_reads_row (fun f => Formula.all [f]) (fun hf => .disjunct (.conjunct (.positive hf)))
    (fun hf hfs => .or (.conjunct (.positive hf)) hfs) hor (by decide)
    (isBreak_of_head (by decide)) hne h

/-- A negation in brackets. -/
theorem ReadsText.not {text : String} {f : Formula Predicate} (h : ReadsText .primary text [f]) :
    ReadsText .primary ("(NOT " ++ text ++ ")") [.any [.all [.not f]]] := by
  obtain ⟨ls, hls, hreads⟩ := h
  have hnot : Seals ("NOT".toList ++ [' ']) ([.word "NOT"] ++ []) :=
    (lexesTo_word (isWord_of_all (by decide)) (by decide)).append_seals seals_blank (by decide)
      (isBreak_of_head (by decide))
  -- no brackets are needed around a primary phrase
  have hinside : ReadsText .disjunction ("NOT " ++ text) [.all [.not f]] := by
    refine ⟨_, ?_, .disjunct (.conjunct (.not (.positive hreads)))⟩
    have hform : ("NOT " ++ text).toList = ("NOT".toList ++ [' ']) ++ text.toList := by
      simp [String.toList_append]
    rw [hform]
    exact hnot.append_lexesTo hls
  have hform : "(NOT " ++ text ++ ")" = "(" ++ ("NOT " ++ text) ++ ")" := by
    simp [← String.toList_inj]
  rw [hform]
  exact hinside.brackets

theorem ReadsText.disjunct {text : String} {fs : List (Formula Predicate)}
    (h : ReadsText .conjunction text fs) : ReadsText .disjunction text [.all fs] := by
  obtain ⟨ls, hls, hreads⟩ := h
  exact ⟨ls, hls, .disjunct hreads⟩

namespace Formula

variable {α β : Type} {resolve : α → Option β}

theorem resolveAll?_cons (f : Formula α) (fs : List (Formula α)) :
    resolveAll? resolve (f :: fs) = (f.resolve? resolve).bind fun g =>
      (resolveAll? resolve fs).bind fun gs => some (g :: gs) := by
  rw [resolveAll?]
  rfl

theorem resolveAll?_singleton (f : Formula α) :
    resolveAll? resolve [f] = (f.resolve? resolve).map fun g => [g] := by
  rw [resolveAll?_cons, resolveAll?]
  cases f.resolve? resolve <;> rfl

/-- A connective over a single formula adds nothing. -/
theorem resolve?_all_singleton (f : Formula α) :
    (all [f]).resolve? resolve = f.resolve? resolve := by
  rw [resolve?, resolveAll?_singleton, Option.map_map]
  cases f.resolve? resolve <;> rfl

theorem resolve?_any_singleton (f : Formula α) :
    (any [f]).resolve? resolve = f.resolve? resolve := by
  rw [resolve?, resolveAll?_singleton, Option.map_map]
  cases f.resolve? resolve <;> rfl

theorem resolveAll?_map_all (fs : List (Formula α)) :
    resolveAll? resolve (fs.map fun f => all [f]) = resolveAll? resolve fs := by
  induction fs with
  | nil => rfl
  | cons f fs ih =>
    rw [List.map_cons, resolveAll?_cons, resolve?_all_singleton, ih, resolveAll?_cons]

end Formula

/-- **A group reads back** as its parts under its connective. -/
theorem exists_reads_joinParts {parts : List String} {fs : List (Formula Predicate)}
    (connective : Connective) (hne : parts ≠ [])
    (h : List.Forall₂ (fun part f => ReadsText .primary part [f]) parts fs) :
    ∃ f, ReadsText .primary (joinParts connective parts) [f] ∧
      ∀ (resolve : Predicate → Option ResolvedTest) (gs : List (Formula ResolvedTest)),
        Formula.resolveAll? resolve fs = some gs →
        f.resolve? resolve = some (connective.combine gs) := by
  -- the parts under `AND` are needed twice: for a conjunction and inside a negation
  have hall : ReadsText .disjunction (" AND ".intercalate parts) [.all fs] :=
    (exists_reads_conjunction hne h).disjunct
  cases connective with
  | and =>
    -- the brackets read as a disjunction of one formula, which is dropped again
    refine ⟨_, hall.brackets, fun resolve gs hgs => ?_⟩
    rw [Formula.resolve?_any_singleton, Formula.resolve?, hgs]
    rfl
  | or =>
    -- every part reads as a conjunction of one formula, which is dropped again
    refine ⟨_, (exists_reads_disjunction hne h).brackets, fun resolve gs hgs => ?_⟩
    rw [Formula.resolve?, Formula.resolveAll?_map_all, hgs]
    rfl
  | not =>
    -- a single condition stands there by itself, several are put in brackets of their own
    cases h with
    | nil => exact absurd rfl hne
    | @cons part f parts fs hfirst hrest =>
      cases hrest with
      | nil =>
        refine ⟨_, hfirst.not, fun resolve gs hgs => ?_⟩
        rw [Formula.resolveAll?_singleton] at hgs
        obtain ⟨g, hg, rfl⟩ := Option.map_eq_some_iff.1 hgs
        rw [Formula.resolve?_any_singleton, Formula.resolve?_all_singleton, Formula.resolve?, hg]
        rfl
      | @cons part' f' parts fs hsecond hrest =>
        have hform : joinParts .not (part :: part' :: parts) =
            "(NOT " ++ ("(" ++ " AND ".intercalate (part :: part' :: parts) ++ ")") ++ ")" := by
          simp [joinParts, ← String.toList_inj]
        rw [hform]
        refine ⟨_, hall.brackets.not, fun resolve gs hgs => ?_⟩
        rw [Formula.resolve?_any_singleton, Formula.resolve?_all_singleton, Formula.resolve?,
          Formula.resolve?_any_singleton, Formula.resolve?, hgs]
        rfl

namespace Condition

mutual

/-- **A compiled condition reads back as it was meant**, in all later tables. The reading is found
from the text and the meaning from the tables, and only the second one needs the later tables. -/
theorem exists_reads_compile {schema : Schema} {progress progress' : Progress} {text : String}
    (c : Condition) (h : c.compile schema progress = .ok (text, progress'))
    (hb : progress.bindings.From (ValueOrigin.Before progress.position)) :
    ∃ f g, ReadsText .primary text [f] ∧ c.formula schema = .ok g ∧
      ∀ b, Bindings.Grows progress'.bindings b → f.resolve? (Predicate.resolve? b) = some g := by
  cases c with
  | test path operator operand =>
    rw [compile] at h
    have hleaf :
        (Leaf.mk path operator operand).compile schema progress = .ok (text, progress') := h
    obtain ⟨node, values, htest⟩ := Leaf.compile_eq_ok hleaf
    obtain ⟨a, hreads, hresolve⟩ := htest.exists_reads hb
    refine ⟨.test a, .test ⟨path.text, operator, operand.comparator?, values⟩, hreads, ?_, ?_⟩
    · rw [formula]
      exact bind_eq_ok.2 ⟨node, htest.resolve,
        bind_eq_ok.2 ⟨values, mapM_encode_eq_ok htest.encode, rfl⟩⟩
    · intro b hgrows
      rw [Formula.resolve?, hresolve b hgrows]
      rfl
  | group connective conditions =>
    rw [compile] at h
    split at h
    · cases h
    · next hne =>
      obtain ⟨⟨parts, p₁⟩, hall, he⟩ := bind_eq_ok.1 h
      cases he
      obtain ⟨fs, gs, hreads, hgs, hresolve⟩ := exists_reads_compileAll conditions hall hb
      -- there is a condition to compile, so there is a part
      have hparts : parts ≠ [] := by
        rintro rfl
        cases conditions with
        | nil => exact hne rfl
        | cons c cs =>
          rw [compileAll] at hall
          obtain ⟨⟨part, p₂⟩, -, hall⟩ := bind_eq_ok.1 hall
          obtain ⟨⟨rest, p₃⟩, -, he⟩ := bind_eq_ok.1 hall
          cases he
      obtain ⟨f, hf, hcombine⟩ := exists_reads_joinParts connective hparts hreads
      refine ⟨f, connective.combine gs, hf, ?_, fun b hgrows => ?_⟩
      · rw [formula]
        exact bind_eq_ok.2 ⟨gs, hgs, rfl⟩
      · exact hcombine _ gs (hresolve b hgrows)

theorem exists_reads_compileAll {schema : Schema} {progress progress' : Progress}
    {parts : List String} (cs : List Condition)
    (h : compileAll schema cs progress = .ok (parts, progress'))
    (hb : progress.bindings.From (ValueOrigin.Before progress.position)) :
    ∃ fs gs, List.Forall₂ (fun part f => ReadsText .primary part [f]) parts fs ∧
      formulas schema cs = .ok gs ∧
      ∀ b, Bindings.Grows progress'.bindings b →
        Formula.resolveAll? (Predicate.resolve? b) fs = some gs := by
  cases cs with
  | nil =>
    cases h
    exact ⟨[], [], .nil, rfl, fun b _ => rfl⟩
  | cons c cs =>
    rw [compileAll] at h
    obtain ⟨⟨part, p₁⟩, hfirst, h⟩ := bind_eq_ok.1 h
    obtain ⟨⟨rest, p₂⟩, hrest, he⟩ := bind_eq_ok.1 h
    cases he
    obtain ⟨texts, hleaves, -⟩ := c.compile_eq_ok hfirst
    obtain ⟨f, g, hf, hg, hresolve⟩ := exists_reads_compile c hfirst hb
    obtain ⟨fs, gs, hfs, hgs, hresolves⟩ :=
      exists_reads_compileAll cs hrest (from_compileLeaves hleaves hb)
    -- what the first condition has bound survives the others
    obtain ⟨texts', hleaves', -⟩ := compileAll_eq_ok cs hrest
    refine ⟨f :: fs, g :: gs, .cons hf hfs, ?_, fun b hgrows => ?_⟩
    · rw [formulas]
      exact bind_eq_ok.2 ⟨g, hg, bind_eq_ok.2 ⟨gs, hgs, rfl⟩⟩
    · rw [Formula.resolveAll?_cons, hresolve b ((grows_compileLeaves hleaves').trans hgrows),
        hresolves b hgrows]
      rfl

end

/-- **One reading, and the right one.** The text of a compiled condition has exactly one reading,
and with its tokens looked up in the compiled tables that is the condition. That there is exactly
one reading rests on the grammar alone (`Reads.unique`), and that it is the right one on the
tables. The hypothesis is no more than that the condition compiles. -/
theorem reads_back {schema : Schema} {c : Condition} {compiled : Compiled}
    (h : c.compileAlone schema = .ok compiled) :
    ∃ reading f, (∀ r, IsReading compiled.expression r ↔ r = reading) ∧
      c.formula schema = .ok f ∧
      reading.resolve? (Predicate.resolve? compiled.bindings) = some f := by
  obtain ⟨⟨compiled, position⟩, hfrom, rfl⟩ := map_eq_ok.1 h
  obtain ⟨⟨text, progress⟩, hcompile, he⟩ := bind_eq_ok.1 hfrom
  cases he
  obtain ⟨f, g, ⟨ls, hls, hreads⟩, hg, hresolve⟩ :=
    exists_reads_compile c hcompile (from_empty _)
  -- a whole text is read as a disjunction, here of one conjunction of one phrase
  have hreading : IsReading text (.any [.all [f]]) :=
    ⟨ls, _, hls.lex_eq, .disjunct (.conjunct (.positive hreads)), rfl⟩
  refine ⟨.any [.all [f]], g, fun r => ⟨fun hr => hr.unique hreading, ?_⟩, hg, ?_⟩
  · rintro rfl
    exact hreading
  · rw [Formula.resolve?_any_singleton, Formula.resolve?_all_singleton]
    exact hresolve _ (.refl _)

end Condition

/-- Two fields that are spelled alike once they are sanitized. -/
def twins : Schema :=
  .map .none [("a-b", .map .none [("x", .ofKind .string)]),
    ("ab", .map .none [("x", .ofKind .string)])]

/-- A negation of two tests, one of them with an `AND` of its own. -/
def twinsDiffer : Condition :=
  .group .not
    [.test ⟨"a-b.x"⟩ .between (.pair (.string "k") (.string "m")),
      .test ⟨"ab.x"⟩ .eq (.single (.string "l"))]

/-- The `AND` of the range and the renamed token do no harm. -/
theorem twinsDiffer_reads_back : ∃ compiled, twinsDiffer.compileAlone twins = .ok compiled ∧
    compiled.expression =
      "(NOT (#ab.#x BETWEEN :ab_x_0_v0 AND :ab_x_0_v1 AND #ab_1.#x = :ab_x_1))" ∧
    ∃ reading f, (∀ r, IsReading compiled.expression r ↔ r = reading) ∧
      twinsDiffer.formula twins = .ok f ∧
      reading.resolve? (Predicate.resolve? compiled.bindings) = some f := by
  have hrun : (twinsDiffer.compileAlone twins).toOption.map Compiled.expression =
      some "(NOT (#ab.#x BETWEEN :ab_x_0_v0 AND :ab_x_0_v1 AND #ab_1.#x = :ab_x_1))" := by
    decide +kernel
  obtain ⟨compiled, hcompiled, htext⟩ := exists_ok_of_toOption_map hrun
  exact ⟨compiled, hcompiled, htext, Condition.reads_back hcompiled⟩

end ItemStore
