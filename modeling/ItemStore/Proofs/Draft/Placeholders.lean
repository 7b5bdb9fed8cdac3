import ItemStore.Draft.Build
import ItemStore.Memory.Shop
import ItemStore.Proofs.Expression.Balance
import ItemStore.Proofs.Expression.History

/-
A request has exactly the tables that its expressions need.

Each of the six kinds of requests is made by compiling some of its parts into tables that
start out empty: an update, then conditions, then a projection. Every compiler accounts
for what it adds, a part that is absent adds nothing, and accounts add up. So there is
nothing left to prove of a kind of request but that it lists the texts of all its parts.
A request to get has no table of values; it does not need one, because a projection
binds no value.

The requests are those of the six `compile` methods; their tables are made by `Placeholders`.
-/
set_option autoImplicit false

namespace ItemStore

open Entries

namespace Operation

/-- All expressions of a request. Together they are what one pair of tables has to serve. -/
def expressions : Operation → List String
  | put r => r.condition.toList
  | get r => r.projection.toList
  | delete r => r.condition.toList
  | update r => r.update :: r.condition.toList
  | query r => r.keyCondition :: (r.filter.toList ++ r.projection.toList)
  | scan r => r.filter.toList ++ r.projection.toList

/-- The tables that are sent with the expressions. Where a request has one of the tables only, the
other one is empty. -/
def tables : Operation → Bindings
  | put r => r.bindings
  | get r => { names := r.names, values := [] }
  | delete r => r.bindings
  | update r => r.bindings
  | query r => r.bindings
  | scan r => r.bindings

/-- Every token in the expressions is bound, and every bound token is in an expression. It is
about a request and does not mention the draft, so it could be checked of any request that is
sent. -/
structure Balanced (op : Operation) : Prop where
  names : ∀ t, t ∈ op.expressions.flatMap (tokensOf '#') ↔ t ∈ keys op.tables.names
  values : ∀ t, t ∈ op.expressions.flatMap (tokensOf ':') ↔ t ∈ keys op.tables.values

/-- Tables that started out empty contain nothing else. -/
theorem balanced_of_accounts {op : Operation}
    (h : Accounts op.expressions .empty op.tables) : op.Balanced := by
  refine ⟨fun t => ?_, fun t => ?_⟩
  · rw [h.names]
    simp [Bindings.empty, keys]
  · rw [h.values]
    simp [Bindings.empty, keys]

end Operation

/-! ## Parts that may be absent -/

/-- A condition that may be absent is compiled, or nothing happens. -/
theorem compileOptional_eq_ok {schema : Schema} {condition : Option Condition}
    {progress progress' : Progress} {text : Option String}
    (h : compileOptional schema condition progress = .ok (text, progress')) :
    (text = none ∧ progress' = progress) ∨
      ∃ (c : Condition) (written : String), text = some written ∧
        c.compile schema progress = .ok (written, progress') := by
  cases condition with
  | none =>
    cases h
    exact .inl ⟨rfl, rfl⟩
  | some c =>
    obtain ⟨⟨written, p⟩, hc, he⟩ := bind_eq_ok.1 h
    cases he
    exact .inr ⟨c, written, rfl, hc⟩

/-- A projection that may be absent is compiled, or nothing happens. -/
theorem compileSelection_eq_ok {schema : Schema} {paths : List Path} {text : Option String}
    {b b' : Bindings} (h : compileSelection schema paths b = .ok (text, b')) :
    (text = none ∧ b' = b) ∨
      ∃ written, text = some written ∧ compileProjection schema paths b = .ok (written, b') := by
  unfold compileSelection at h
  split at h
  · cases h
    exact .inl ⟨rfl, rfl⟩
  · obtain ⟨⟨written, b₁⟩, hp, he⟩ := bind_eq_ok.1 h
    cases he
    exact .inr ⟨written, rfl, hp⟩

theorem accounts_compileOptional {schema : Schema} {condition : Option Condition}
    {progress progress' : Progress} {text : Option String}
    (h : compileOptional schema condition progress = .ok (text, progress')) :
    Accounts text.toList progress.bindings progress'.bindings := by
  rcases compileOptional_eq_ok h with ⟨rfl, rfl⟩ | ⟨c, written, rfl, hc⟩
  · exact .refl _
  · exact c.accounts_compile hc

theorem accounts_compileSelection {schema : Schema} {paths : List Path} {text : Option String}
    {b b' : Bindings} (h : compileSelection schema paths b = .ok (text, b')) :
    Accounts text.toList b b' := by
  rcases compileSelection_eq_ok h with ⟨rfl, rfl⟩ | ⟨written, rfl, hp⟩
  · exact .refl _
  · exact accounts_compileProjection hp

/-- Parts that may be absent take no binding away. -/
theorem grows_compileOptional {schema : Schema} {condition : Option Condition}
    {progress progress' : Progress} {text : Option String}
    (h : compileOptional schema condition progress = .ok (text, progress')) :
    Bindings.Grows progress.bindings progress'.bindings := by
  rcases compileOptional_eq_ok h with ⟨-, rfl⟩ | ⟨c, written, -, hcompile⟩
  · exact .refl _
  · exact Condition.grows_compile hcompile

theorem grows_compileSelection {schema : Schema} {paths : List Path} {text : Option String}
    {b b' : Bindings} (h : compileSelection schema paths b = .ok (text, b')) :
    Bindings.Grows b b' := by
  rcases compileSelection_eq_ok h with ⟨-, rfl⟩ | ⟨written, -, hp⟩
  · exact .refl _
  · exact grows_compileProjection hp

theorem values_compileSelection {schema : Schema} {paths : List Path} {text : Option String}
    {b b' : Bindings} (h : compileSelection schema paths b = .ok (text, b')) :
    b'.values = b.values := by
  rcases compileSelection_eq_ok h with ⟨-, rfl⟩ | ⟨written, -, hp⟩
  · rfl
  · obtain ⟨⟨parts, b₁⟩, hparts, he⟩ := bind_eq_ok.1 hp
    cases he
    exact values_projectPaths hparts

/-! ## The six kinds of requests -/

theorem PutDraft.balanced_build {t : Table} {d : PutDraft} {r : PutRequest}
    (h : d.build t = .ok r) : (Operation.put r).Balanced := by
  obtain ⟨entity, -, h⟩ := bind_eq_ok.1 h
  obtain ⟨item, -, h⟩ := bind_eq_ok.1 h
  obtain ⟨condition, -, h⟩ := bind_eq_ok.1 h
  obtain ⟨⟨text, progress⟩, hcondition, he⟩ := bind_eq_ok.1 h
  cases he
  exact Operation.balanced_of_accounts (accounts_compileOptional hcondition)

theorem DeleteDraft.balanced_build {t : Table} {d : DeleteDraft} {r : DeleteRequest}
    (h : d.build t = .ok r) : (Operation.delete r).Balanced := by
  obtain ⟨entity, -, h⟩ := bind_eq_ok.1 h
  obtain ⟨key, -, h⟩ := bind_eq_ok.1 h
  obtain ⟨⟨text, progress⟩, hcondition, he⟩ := bind_eq_ok.1 h
  cases he
  exact Operation.balanced_of_accounts (accounts_compileOptional hcondition)

theorem UpdateDraft.balanced_build {t : Table} {d : UpdateDraft} {r : UpdateRequest}
    (h : d.build t = .ok r) : (Operation.update r).Balanced := by
  obtain ⟨entity, -, h⟩ := bind_eq_ok.1 h
  obtain ⟨key, -, h⟩ := bind_eq_ok.1 h
  obtain ⟨update, hupdate, h⟩ := bind_eq_ok.1 h
  obtain ⟨⟨text, progress⟩, hcondition, he⟩ := bind_eq_ok.1 h
  cases he
  -- the tables of the update are those that the condition starts from
  refine Operation.balanced_of_accounts ?_
  exact (accounts_compileUpdate hupdate).trans (accounts_compileOptional hcondition)

theorem GetDraft.balanced_build {t : Table} {d : GetDraft} {r : GetRequest}
    (h : d.build t = .ok r) : (Operation.get r).Balanced := by
  obtain ⟨entity, -, h⟩ := bind_eq_ok.1 h
  obtain ⟨key, -, h⟩ := bind_eq_ok.1 h
  obtain ⟨⟨text, b⟩, hselection, he⟩ := bind_eq_ok.1 h
  cases he
  -- the table of values that is left out of the request was empty
  have hvalues : b.values = [] := values_compileSelection hselection
  have hb : { names := b.names, values := [] } = b := by rw [← hvalues]
  refine Operation.balanced_of_accounts ?_
  rw [Operation.tables, hb]
  exact accounts_compileSelection hselection

theorem QueryDraft.balanced_build {t : Table} {d : QueryDraft} {r : QueryRequest}
    (h : d.build t = .ok r) : (Operation.query r).Balanced := by
  obtain ⟨schema, -, h⟩ := bind_eq_ok.1 h
  split at h
  · cases h
  · obtain ⟨-, -, h⟩ := bind_eq_ok.1 h
    obtain ⟨⟨key, p₁⟩, hkey, h⟩ := bind_eq_ok.1 h
    obtain ⟨⟨filter, p₂⟩, hfilter, h⟩ := bind_eq_ok.1 h
    obtain ⟨⟨selection, b⟩, hselection, he⟩ := bind_eq_ok.1 h
    cases he
    refine Operation.balanced_of_accounts ?_
    -- key condition, filter and projection in the order in which they are compiled
    have hconditions := (Condition.accounts_compile hkey).trans (accounts_compileOptional hfilter)
    exact hconditions.trans (accounts_compileSelection hselection)

theorem ScanDraft.balanced_build {t : Table} {d : ScanDraft} {r : ScanRequest}
    (h : d.build t = .ok r) : (Operation.scan r).Balanced := by
  obtain ⟨schema, -, h⟩ := bind_eq_ok.1 h
  obtain ⟨⟨filter, progress⟩, hfilter, h⟩ := bind_eq_ok.1 h
  obtain ⟨⟨selection, b⟩, hselection, he⟩ := bind_eq_ok.1 h
  cases he
  refine Operation.balanced_of_accounts ?_
  exact (accounts_compileOptional hfilter).trans (accounts_compileSelection hselection)

theorem Draft.balanced_build {t : Table} {d : Draft} {op : Operation}
    (h : d.build t = .ok op) : op.Balanced := by
  cases d with
  | put d =>
    obtain ⟨r, hr, rfl⟩ := map_eq_ok.1 h
    exact d.balanced_build hr
  | get d =>
    obtain ⟨r, hr, rfl⟩ := map_eq_ok.1 h
    exact d.balanced_build hr
  | delete d =>
    obtain ⟨r, hr, rfl⟩ := map_eq_ok.1 h
    exact d.balanced_build hr
  | update d =>
    obtain ⟨r, hr, rfl⟩ := map_eq_ok.1 h
    exact d.balanced_build hr
  | query d =>
    obtain ⟨r, hr, rfl⟩ := map_eq_ok.1 h
    exact d.balanced_build hr
  | scan d =>
    obtain ⟨r, hr, rfl⟩ := map_eq_ok.1 h
    exact d.balanced_build hr

/-- **Tables and expressions match.** In a request that is made of any draft for any table, the
tokens in all its expressions together are the keys of its tables: none is missing from a table
and none is there for nothing. It says so of both kinds of tokens, and in both directions: left to
right nothing is unbound, right to left nothing is left over. Tokens are found as the store would
find them, by the longest match in the text, and not as the compiler wrote them. -/
theorem Draft.mem_tokens_iff_mem_keys {t : Table} {d : Draft} {op : Operation}
    (h : d.build t = .ok op) :
    (∀ token, token ∈ op.expressions.flatMap (tokensOf '#') ↔ token ∈ keys op.tables.names) ∧
      (∀ token, token ∈ op.expressions.flatMap (tokensOf ':') ↔
        token ∈ keys op.tables.values) :=
  ⟨(Draft.balanced_build h).names, (Draft.balanced_build h).values⟩

/-- An update of a user: one assignment, one removal, and a condition of two tests. -/
def Shop.moveToRome : Draft :=
  .update
    { UpdateDraft.start "users" with
      key := some (.map [("pk", .string "u"), ("sk", .string "profile")])
      actions := [⟨⟨"address.city"⟩, .set (.string "Rome")⟩, ⟨⟨"nickname"⟩, .remove⟩]
      condition := some (.group .not
        [.test ⟨"name"⟩ .eq (.single (.string "Ada")),
          .test ⟨"roles"⟩ .contains (.single (.string "admin"))]) }

/-- The removal's value token is not bound, and the condition shares the tables. -/
theorem Shop.moveToRome_tokens : ∃ t op, Shop.table .strict = .ok t ∧
    Shop.moveToRome.build t = .ok op ∧
    op.expressions = ["SET #address.#city = :address_city_u0 REMOVE #nickname",
      "(NOT (#name_0 = :name_0 AND contains(#roles_1, :roles_1)))"] ∧
    (∀ token, token ∈ op.expressions.flatMap (tokensOf '#') ↔ token ∈ keys op.tables.names) ∧
    (∀ token, token ∈ op.expressions.flatMap (tokensOf ':') ↔
      token ∈ keys op.tables.values) := by
  have hrun : ((Shop.table .strict >>= fun t => Shop.moveToRome.build t).toOption.map
      Operation.expressions) =
      some ["SET #address.#city = :address_city_u0 REMOVE #nickname",
        "(NOT (#name_0 = :name_0 AND contains(#roles_1, :roles_1)))"] := by
    decide +kernel
  obtain ⟨op, hbuild, htexts⟩ := exists_ok_of_toOption_map hrun
  obtain ⟨t, ht, hop⟩ := bind_eq_ok.1 hbuild
  exact ⟨t, op, ht, hop, htexts, Draft.mem_tokens_iff_mem_keys hop⟩

end ItemStore
