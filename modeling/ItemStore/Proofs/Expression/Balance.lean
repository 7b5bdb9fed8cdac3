import ItemStore.Proofs.Expression.Actions
import ItemStore.Proofs.Expression.Leaves
import ItemStore.Expression.Projection

/-
Tables and texts balance.

The store refuses a request with a token that stands for nothing, and just so a request
with a table entry that no expression mentions. Both are one equation between sets of
tokens. It cannot be proved of one compiler alone, because all compilers of an operation
write into the same tables; what each of them keeps is a difference. `Accounts` says that
the tokens a table has gained are the tokens in the texts that were written meanwhile.
Differences add up, and an operation starts from empty tables.

What is balanced are the requests of all six `build` operations.
-/
set_option autoImplicit false

namespace ItemStore

open Entries Bindings

/-- The tokens in the tables after some texts were written are the tokens in these texts and those
that were in the tables before. Both marks are in one statement because every compiler binds names
and values in one go. -/
structure Accounts (texts : List String) (b b' : Bindings) : Prop where
  names : ∀ t, t ∈ keys b'.names ↔ t ∈ texts.flatMap (tokensOf '#') ∨ t ∈ keys b.names
  values : ∀ t, t ∈ keys b'.values ↔ t ∈ texts.flatMap (tokensOf ':') ∨ t ∈ keys b.values

namespace Accounts

theorem refl (b : Bindings) : Accounts [] b b := ⟨by simp, by simp⟩

theorem trans {ts ts' : List String} {b b' b'' : Bindings} (h : Accounts ts b b')
    (h' : Accounts ts' b' b'') : Accounts (ts ++ ts') b b'' := by
  refine ⟨fun t => ?_, fun t => ?_⟩
  -- the tables in the middle drop out
  · rw [h'.names, h.names, List.flatMap_append, List.mem_append]
    tauto
  · rw [h'.values, h.values, List.flatMap_append, List.mem_append]
    tauto

/-- Only the tokens in the texts matter. -/
theorem of_hasTokensOf {text : String} {texts : List String} {b b' : Bindings}
    (h : Accounts texts b b') (ht : HasTokensOf text texts) : Accounts [text] b b' := by
  refine ⟨fun t => ?_, fun t => ?_⟩
  · rw [h.names, List.flatMap_singleton, ht '#' (.inl rfl)]
  · rw [h.values, List.flatMap_singleton, ht ':' (.inr rfl)]

end Accounts

/-! ## Tokens of paths and values -/

/-- In a row of tokens of one mark there are these tokens. -/
theorem flatMap_tokensOf_self {mark : Char} (hmark : IsMark mark) {tokens : List String}
    (h : ∀ t ∈ tokens, IsToken mark t) : tokens.flatMap (tokensOf mark) = tokens := by
  induction tokens with
  | nil => rfl
  | cons t tokens ih =>
    rw [List.flatMap_cons, tokensOf_token hmark.isTokenChar (h t (by simp)),
      ih fun s hs => h s (by simp [hs]), List.singleton_append]

/-- In a row of tokens of one mark there is nothing with another mark. -/
theorem flatMap_tokensOf_of_ne {mark mark' : Char} (hmark : IsMark mark) (hne : mark' ≠ mark)
    {tokens : List String} (h : ∀ t ∈ tokens, IsToken mark' t) :
    tokens.flatMap (tokensOf mark) = [] := by
  rw [List.flatMap_eq_nil_iff]
  intro t ht
  exact tokensOf_token_of_ne hmark.isTokenChar hne (h t ht)

/-- The form of a path has the tokens of the path. -/
theorem tokensOf_dotted {tokens : List String} (h : ∀ t ∈ tokens, IsToken '#' t) :
    tokensOf '#' (dotted tokens) = tokens ∧ tokensOf ':' (dotted tokens) = [] := by
  have hname : IsMark '#' := .inl rfl
  have hvalue : IsMark ':' := .inr rfl
  -- a dot is a separator for both marks
  rw [dotted, hname.dot.tokensOf_intercalate, hvalue.dot.tokensOf_intercalate]
  exact ⟨flatMap_tokensOf_self hname h, flatMap_tokensOf_of_ne hvalue (by decide) h⟩

/-! ## Conditions -/

/-- The name tokens of a test are those of its path. -/
theorem CompiledTest.tokensOf_name {schema : Schema} {leaf : Leaf} {progress progress' : Progress}
    {node : Schema} {values : List Descriptor} {text : String}
    (h : CompiledTest schema leaf progress node values text progress') :
    tokensOf '#' text = progress.bindings.pathTokens leaf.path (leaf.site progress).nameSuffix := by
  obtain ⟨hpath, htokens⟩ := leaf.isToken_tokens progress
  rw [tokensOf_renders (.inl rfl) h.renders, (tokensOf_dotted hpath).1,
    flatMap_tokensOf_of_ne (.inl rfl) (by decide) htokens, List.append_nil]

theorem CompiledTest.accounts {schema : Schema} {leaf : Leaf} {progress progress' : Progress}
    {node : Schema} {values : List Descriptor} {text : String}
    (h : CompiledTest schema leaf progress node values text progress') :
    Accounts [text] progress.bindings progress'.bindings := by
  obtain ⟨hpath, htokens⟩ := leaf.isToken_tokens progress
  obtain ⟨-, hdotted'⟩ := tokensOf_dotted hpath
  refine ⟨fun t => ?_, fun t => ?_⟩
  -- of the two parts of the text only the path has names, and only the operand has values
  · rw [h.mem_keys_names, List.flatMap_singleton, h.tokensOf_name]
  · rw [h.mem_keys_values, List.flatMap_singleton, tokensOf_renders (.inr rfl) h.renders,
      hdotted', flatMap_tokensOf_self (.inr rfl) htokens, List.nil_append]

theorem accounts_compileLeaves {ls : List (Schema × Leaf)} {p p' : Progress}
    {texts : List String} (h : compileLeaves ls p = .ok (texts, p')) :
    Accounts texts p.bindings p'.bindings := by
  induction ls generalizing p texts with
  | nil =>
    cases h
    exact .refl _
  | cons l ls ih =>
    obtain ⟨schema, leaf⟩ := l
    obtain ⟨p₁, text, rest, node, values, rfl, hleaf, hrest⟩ := compileLeaves_cons_eq_ok h
    exact hleaf.accounts.trans (ih hrest)

/-- A condition accounts for what it binds. -/
theorem Condition.accounts_compile {schema : Schema} {c : Condition}
    {progress progress' : Progress} {text : String}
    (h : c.compile schema progress = .ok (text, progress')) :
    Accounts [text] progress.bindings progress'.bindings := by
  obtain ⟨texts, hleaves, htexts⟩ := c.compile_eq_ok h
  exact (accounts_compileLeaves hleaves).of_hasTokensOf htexts

/-! ## Projections -/

/-- A path that is bound on its own accounts for its tokens. -/
theorem accounts_bindPath (b : Bindings) (p : Path) :
    Accounts [dotted (b.pathTokens p "")] b { b with names := b.namesWith p "" } := by
  have hwords : IsWord "".toList := by simpa using isWord_nil
  obtain ⟨hdotted, hdotted'⟩ := tokensOf_dotted (isToken_pathTokens hwords b p)
  refine ⟨fun t => ?_, fun t => ?_⟩
  · rw [mem_keys_namesWith, List.flatMap_singleton, hdotted]
  · simp [hdotted']

/-- A part that is written already adds nothing, neither to the text nor to the tables. -/
theorem accounts_projectPaths {schema : Schema} {paths : List Path} {written parts : List String}
    {b₀ b b' : Bindings} (h : projectPaths schema written paths b = .ok (parts, b'))
    (hw : Accounts written b₀ b) : Accounts parts b₀ b' := by
  -- the invariant is about what is written so far, from the tables of the beginning
  induction paths generalizing written b with
  | nil =>
    cases h
    exact hw
  | cons p paths ih =>
    obtain ⟨node, -, h⟩ := bind_eq_ok.1 h
    rw [bindPath_eq] at h
    refine ih h ?_
    -- the path is bound in any case, so a repeated one must have bound nothing new
    have hboth := hw.trans (accounts_bindPath b p)
    by_cases hmem : dotted (b.pathTokens p "") ∈ written
    · rw [if_pos hmem]
      have hsub : ∀ mark t, t ∈ tokensOf mark (dotted (b.pathTokens p "")) →
          t ∈ written.flatMap (tokensOf mark) :=
        fun mark t ht => List.mem_flatMap.2 ⟨_, hmem, ht⟩
      refine ⟨fun t => ?_, fun t => ?_⟩
      · rw [hboth.names, List.flatMap_append, List.mem_append, List.flatMap_singleton,
          or_iff_left_of_imp (hsub '#' t)]
      · rw [hboth.values, List.flatMap_append, List.mem_append, List.flatMap_singleton,
          or_iff_left_of_imp (hsub ':' t)]
    · rw [if_neg hmem]
      exact hboth

theorem accounts_compileProjection {schema : Schema} {paths : List Path} {text : String}
    {b b' : Bindings} (h : compileProjection schema paths b = .ok (text, b')) :
    Accounts [text] b b' := by
  obtain ⟨⟨parts, b₁⟩, hparts, he⟩ := bind_eq_ok.1 h
  cases he
  refine (accounts_projectPaths hparts (.refl b)).of_hasTokensOf fun mark hmark => ?_
  exact hmark.comma.tokensOf_intercalate parts

/-- A projection leaves the values alone. -/
theorem values_projectPaths {schema : Schema} {paths : List Path} {written parts : List String}
    {b b' : Bindings} (h : projectPaths schema written paths b = .ok (parts, b')) :
    b'.values = b.values := by
  -- a path binds names only
  induction paths generalizing written b with
  | nil =>
    cases h
    rfl
  | cons p paths ih =>
    obtain ⟨node, -, h⟩ := bind_eq_ok.1 h
    rw [bindPath_eq] at h
    rw [ih h]

/-! ## Updates -/

/-- In an assignment there are the tokens of the path, of the value, and once more of the
path where the old value counts. -/
theorem mem_tokensOf_assignment {mark : Char} (hmark : IsMark mark) {name token : String}
    {change : Change} (hchange : change ≠ .remove) (t : String) :
    t ∈ tokensOf mark (name ++ " = " ++ change.source name token) ↔
      t ∈ tokensOf mark name ∨ t ∈ tokensOf mark token := by
  have heq : Separates mark " = " :=
    hmark.separates ['='] (by decide) (by decide) (by decide) rfl
  have hplus : Separates mark " + " :=
    hmark.separates ['+'] (by decide) (by decide) (by decide) rfl
  have hminus : Separates mark " - " :=
    hmark.separates ['-'] (by decide) (by decide) (by decide) rfl
  rw [heq.tokensOf_append, List.mem_append]
  cases change with
  | set v => rfl
  | increment amount =>
    -- the path is on both sides, which is once too often for a list but not for a set
    rw [Change.source, hplus.tokensOf_append, List.mem_append]
    tauto
  | decrement amount =>
    rw [Change.source, hminus.tokensOf_append, List.mem_append]
    tauto
  | append values =>
    have hword : tokensOf mark "list_append" = [] := by
      refine occurrences_eq_nil ?_
      rcases hmark with rfl | rfl <;> decide
    have hform : "list_append(" ++ name ++ ", " ++ token ++ ")" =
        "list_append" ++ "(" ++ (name ++ ", " ++ token) ++ ")" := by
      simp [String.append_assoc]
    rw [Change.source, hform, hmark.closing.tokensOf_concat, hmark.opening.tokensOf_append,
      hword, hmark.comma.tokensOf_append, List.nil_append, List.mem_append]
    tauto
  | remove => exact absurd rfl hchange

/-- An action accounts for the tokens of its clause. -/
theorem AddedAction.accounts {k : Nat} {action : Action} {node : Schema}
    {clauses clauses' : UpdateClauses} {b₀ : Bindings}
    (h : AddedAction k action node clauses clauses')
    (hw : Accounts (clauses.sets ++ clauses.removes) b₀ clauses.bindings) :
    Accounts (clauses'.sets ++ clauses'.removes) b₀ clauses'.bindings := by
  have hwords : IsWord "".toList := by simpa using isWord_nil
  have hpath := isToken_pathTokens hwords clauses.bindings action.path
  obtain ⟨hdotted, hdotted'⟩ := tokensOf_dotted hpath
  cases h with
  | @assigned d b hsent hbind =>
    have hchange : action.change ≠ .remove := by
      intro hc
      rw [hc] at hsent
      cases hsent
    obtain ⟨hnames, hvalues⟩ := bindValue_eq_ok hbind
    have htoken : IsToken ':' (action.token k) := ValueOrigin.isToken_token _ _
    refine ⟨fun t => ?_, fun t => ?_⟩
    · have hassign : t ∈ tokensOf '#' (clauses.nameOf action ++ " = " ++
          action.change.source (clauses.nameOf action) (action.token k)) ↔
          t ∈ clauses.bindings.pathTokens action.path "" := by
        rw [mem_tokensOf_assignment (.inl rfl) hchange, UpdateClauses.nameOf, hdotted,
          tokensOf_token_of_ne (by decide) (by decide) htoken, or_iff_left List.not_mem_nil]
      -- the assignment stands before the removals, so the parts have to be put in order
      have hold := hw.names t
      simp only [List.flatMap_append, List.mem_append, List.flatMap_singleton] at hold ⊢
      rw [hnames, UpdateClauses.withPath, mem_keys_namesWith, hold, hassign]
      simp only [or_assoc]
      exact or_left_comm
    · have hassign : t ∈ tokensOf ':' (clauses.nameOf action ++ " = " ++
          action.change.source (clauses.nameOf action) (action.token k)) ↔
          t = action.token k := by
        rw [mem_tokensOf_assignment (.inr rfl) hchange, UpdateClauses.nameOf, hdotted',
          tokensOf_token (by decide) htoken, or_iff_right List.not_mem_nil, List.mem_singleton]
      have hold := hw.values t
      simp only [List.flatMap_append, List.mem_append, List.flatMap_singleton] at hold ⊢
      rw [mem_keys_bindIn hvalues, UpdateClauses.withPath, hold, hassign]
      simp only [or_assoc]
      exact or_left_comm
  | removed hc =>
    -- a removal is written behind all the others, where the clauses end
    have hboth := hw.trans (accounts_bindPath clauses.bindings action.path)
    rw [List.append_assoc] at hboth
    exact hboth

theorem accounts_addAll {schema : Schema} {actions : List Action} {k : Nat} {seen : List Path}
    {clauses clauses' : UpdateClauses} {b₀ : Bindings}
    (h : clauses.addAll schema k seen actions = .ok clauses')
    (hw : Accounts (clauses.sets ++ clauses.removes) b₀ clauses.bindings) :
    Accounts (clauses'.sets ++ clauses'.removes) b₀ clauses'.bindings := by
  -- the invariant is about the clauses so far, whatever their number
  induction actions generalizing k seen clauses with
  | nil =>
    cases h
    exact hw
  | cons action actions ih =>
    obtain ⟨clauses₁, hfirst, hrest⟩ := bind_eq_ok.1 h
    obtain ⟨node, -, hadded⟩ := UpdateClauses.add_eq_ok hfirst
    exact ih hrest (hadded.accounts hw)

/-- A keyword and its parts have the tokens of the parts. -/
theorem flatMap_tokensOf_updateClause {mark : Char} (hmark : IsMark mark) {keyword : String}
    (hkeyword : mark ∉ keyword.toList) (parts : List String) :
    (updateClause keyword parts).flatMap (tokensOf mark) = parts.flatMap (tokensOf mark) := by
  unfold updateClause
  split
  · next hnil =>
    rw [List.isEmpty_iff.1 hnil]
  · have hword : tokensOf mark keyword = [] := occurrences_eq_nil hkeyword
    rw [List.flatMap_singleton, hmark.blank.tokensOf_append, hmark.comma.tokensOf_intercalate,
      hword, List.nil_append]

theorem hasTokensOf_updateExpression (clauses : UpdateClauses) :
    HasTokensOf clauses.expression (clauses.sets ++ clauses.removes) := by
  intro mark hmark
  have hset : mark ∉ "SET".toList := by rcases hmark with rfl | rfl <;> decide
  have hremove : mark ∉ "REMOVE".toList := by rcases hmark with rfl | rfl <;> decide
  rw [UpdateClauses.expression, hmark.blank.tokensOf_intercalate, List.flatMap_append,
    flatMap_tokensOf_updateClause hmark hset, flatMap_tokensOf_updateClause hmark hremove,
    List.flatMap_append]

/-- An update accounts for everything in its tables. -/
theorem accounts_compileUpdate {schema : Schema} {actions : List Action} {update : Compiled}
    (h : compileUpdate schema actions = .ok update) :
    Accounts [update.expression] .empty update.bindings := by
  obtain ⟨clauses, hclauses, rfl⟩ := compileUpdate_eq_ok h
  -- an update begins with empty clauses and empty tables
  refine (accounts_addAll hclauses (.refl _)).of_hasTokensOf ?_
  exact hasTokensOf_updateExpression clauses

end ItemStore
