import ItemStore.Proofs.Draft.Placeholders
import ItemStore.Proofs.Expression.Conflict

/-
Values of one operation never meet.

The conditions of an operation are compiled one after the other. They share their count
and their tables, and in an update the tables hold the values of the actions already. All
of that is one row of tests with one invariant, from which three things follow for the
whole operation: every value gets a token to itself, the token stands for the encoding of
that very value to the end, and a request is never refused over a token.

The row of tests is what one `CompileContext` sees in the course of an operation.
-/
set_option autoImplicit false

namespace ItemStore

open Entries Bindings

/-! ## Conditions in turn -/

/-- Compiles conditions one after the other, each with its schema. This is `compile_with` again
and again on one context. -/
def compileInTurn :
    List (Schema × Condition) → Progress → Except Error (List String × Progress)
  | [], progress => .ok ([], progress)
  | (schema, c) :: conditions, progress => do
    let (text, progress) ← c.compile schema progress
    let (texts, progress) ← compileInTurn conditions progress
    .ok (text :: texts, progress)

/-- The tests of conditions in turn, each with its schema. Each takes its schema along because an
operation may have conditions for different ones. -/
def testsInTurn (conditions : List (Schema × Condition)) : List (Schema × Leaf) :=
  conditions.flatMap fun (schema, c) => c.leavesWith schema

theorem map_path_testsInTurn (conditions : List (Schema × Condition)) :
    (testsInTurn conditions).map (fun (_, leaf) => leaf.path) =
      conditions.flatMap fun (_, c) => c.paths := by
  -- one condition first; its schema stands beside every leaf and does not matter
  have hpaths : ∀ (schema : Schema) (c : Condition),
      (c.leavesWith schema).map (fun (_, leaf) => leaf.path) = c.paths := by
    intro schema c
    rw [← c.map_path_leaves, Condition.leavesWith, List.map_map]
    rfl
  induction conditions with
  | nil => rfl
  | cons condition conditions ih =>
    obtain ⟨schema, c⟩ := condition
    rw [testsInTurn, List.flatMap_cons, List.map_append, List.flatMap_cons, hpaths]
    exact congrArg _ ih

/-- Conditions in turn are their tests in a row. -/
theorem compileInTurn_eq_ok {conditions : List (Schema × Condition)} {p p' : Progress}
    {texts : List String} (h : compileInTurn conditions p = .ok (texts, p')) :
    ∃ texts', compileLeaves (testsInTurn conditions) p = .ok (texts', p') := by
  -- each condition is its leaves, and rows of leaves are put one behind the other
  induction conditions generalizing p texts with
  | nil =>
    cases h
    exact ⟨[], rfl⟩
  | cons condition conditions ih =>
    obtain ⟨schema, c⟩ := condition
    obtain ⟨⟨text, p₁⟩, hfirst, h⟩ := bind_eq_ok.1 h
    obtain ⟨⟨rest, p₂⟩, hrest, he⟩ := bind_eq_ok.1 h
    cases he
    obtain ⟨texts₁, hleaves, -⟩ := c.compile_eq_ok hfirst
    obtain ⟨texts₂, hleaves'⟩ := ih hrest
    exact ⟨texts₁ ++ texts₂, compileLeaves_append hleaves hleaves'⟩

theorem avoids_compileInTurn {conditions : List (Schema × Condition)} {p : Progress}
    (hb : p.bindings.From (ValueOrigin.Before p.position)) :
    Avoids Error.IsConflict (compileInTurn conditions p) := by
  induction conditions generalizing p with
  | nil => exact .ok _ _
  | cons condition conditions ih =>
    obtain ⟨schema, c⟩ := condition
    refine (c.avoids_compile hb).bind fun r hr => ?_
    obtain ⟨text, p₁⟩ := r
    exact (ih (c.from_compile hr hb)).bind fun _ _ => .ok _ _

/-! ## Where an operation starts -/

/-- The tables that the conditions of an operation find: empty ones, or those of an update with
its actions. It gives the actions as well, since their tokens must not meet those of the
conditions. -/
inductive Opening (entity : Schema) : List Action → Bindings → Prop where
  | empty : Opening entity [] .empty
  | update {actions : List Action} {update : Compiled}
      (h : compileUpdate entity actions = .ok update) : Opening entity actions update.bindings

namespace Opening

variable {entity : Schema} {actions : List Action} {b : Bindings}

theorem from_before (h : Opening entity actions b) (n : Nat) : b.From (ValueOrigin.Before n) := by
  -- the values of actions belong to no test, so they come before all of them
  cases h with
  | empty => exact from_empty _
  | update h => exact (boundIn_compileUpdate h).1.mono fun o ho => ho.before n

theorem boundIn (h : Opening entity actions b) {k : Nat} {action : Action}
    (hk : actions[k]? = some action) : action.BoundIn entity k b := by
  cases h with
  | empty => cases hk
  | update h => exact (boundIn_compileUpdate h).2 k action hk

end Opening

/-! ## Requests -/

theorem avoids_encodeNamed (entity : Schema) (entries : List (String × Value))
    (names : List String) : Avoids Error.IsConflict (entity.encodeNamed entries names) := by
  induction names with
  | nil => exact .ok _ _
  | cons name names ih =>
    unfold Schema.encodeNamed
    split
    · exact .error id
    · split
      · exact .error id
      · exact (Schema.avoids_encode _ _).bind fun first _ => ih.bind fun rest _ => .ok _ _

theorem avoids_keyNames (entity : Schema) :
    Avoids Error.IsConflict (KeyNames.ofSchema entity) := by
  unfold KeyNames.ofSchema
  split
  · exact .ok _ _
  · exact .error id

theorem avoids_encodeDraftKey (entity : Schema) (key : Option Value) :
    Avoids Error.IsConflict (encodeDraftKey entity key) := by
  unfold encodeDraftKey
  split
  · unfold Schema.encodeKey
    split
    · refine (avoids_keyNames entity).bind fun keys _ => ?_
      split
      · exact .error id
      · exact avoids_encodeNamed _ _ _
    · exact .error id
  · exact .error id

theorem avoids_encodeItem (entity : Schema) (v : Value) :
    Avoids Error.IsConflict (entity.encodeItem v) := by
  refine (entity.avoids_encode v).bind fun d _ => ?_
  split
  · exact .ok _ _
  · exact .error id

theorem avoids_entity (t : Table) (name : String) :
    Avoids Error.IsConflict (t.entity name) := by
  unfold Table.entity TableSchema.entity
  split
  · exact .ok _ _
  · exact .error id

theorem avoids_combined (t : Table) (index : Option String) :
    Avoids Error.IsConflict (t.combined index) := by
  unfold Table.combined
  split
  · refine Avoids.map _ ?_
    unfold TableSchema.index
    split
    · exact .ok _ _
    · exact .error id
  · exact .ok _ _

theorem avoids_differs (v : Value) (name : String) :
    Avoids Error.IsConflict (differs v name) := by
  unfold differs
  split
  · exact .ok _ _
  · exact .error id

theorem avoids_effective (d : PutDraft) (entity : Schema) (v : Value) :
    Avoids Error.IsConflict (d.effective entity v) := by
  -- one test for each key attribute
  have htests : ∀ names : List String,
      Avoids Error.IsConflict (names.mapM (differs v)) := by
    intro names
    induction names with
    | nil => exact .ok _ _
    | cons name names ih =>
      rw [List.mapM_cons]
      exact (avoids_differs v name).bind fun first _ => ih.bind fun rest _ => .ok _ _
  unfold PutDraft.effective
  split
  · split
    · exact .error id
    · refine Avoids.map _ ?_
      refine (avoids_keyNames entity).bind fun keys _ => (htests _).bind fun tests _ => ?_
      split
      · exact .ok _ _
      · exact .ok _ _
  · exact .ok _ _

theorem avoids_checkQueryPaths (schema : Schema) (keyCondition : Condition)
    (filter : Option Condition) :
    Avoids Error.IsConflict (checkQueryPaths schema keyCondition filter) := by
  refine (avoids_keyNames schema).bind fun keys _ => ?_
  split
  · exact .error id
  · split
    · exact .error id
    · exact .ok _ _

theorem avoids_compileOptional {schema : Schema} {condition : Option Condition}
    {progress : Progress}
    (hb : progress.bindings.From (ValueOrigin.Before progress.position)) :
    Avoids Error.IsConflict (compileOptional schema condition progress) := by
  cases condition with
  | none => exact .ok _ _
  | some c => exact (c.avoids_compile hb).bind fun _ _ => .ok _ _

theorem avoids_compileSelection (schema : Schema) (paths : List Path) (b : Bindings) :
    Avoids Error.IsConflict (compileSelection schema paths b) := by
  unfold compileSelection
  split
  · exact .ok _ _
  · exact (avoids_compileProjection schema paths b).bind fun _ _ => .ok _ _

/-- The count starts on empty tables. -/
theorem from_start : Progress.start.bindings.From (ValueOrigin.Before Progress.start.position) :=
  from_empty _

/-- Making a request never ends in a conflict of tokens. -/
theorem Draft.avoids_build (t : Table) (d : Draft) : Avoids Error.IsConflict (d.build t) := by
  cases d with
  | put d =>
    refine Avoids.map _ ((avoids_entity t _).bind fun entity _ => ?_)
    refine (avoids_encodeItem entity _).bind fun item _ => ?_
    refine (avoids_effective d entity _).bind fun condition _ => ?_
    exact (avoids_compileOptional from_start).bind fun _ _ => .ok _ _
  | get d =>
    refine Avoids.map _ ((avoids_entity t _).bind fun entity _ => ?_)
    refine (avoids_encodeDraftKey entity _).bind fun key _ => ?_
    exact (avoids_compileSelection entity _ _).bind fun _ _ => .ok _ _
  | delete d =>
    refine Avoids.map _ ((avoids_entity t _).bind fun entity _ => ?_)
    refine (avoids_encodeDraftKey entity _).bind fun key _ => ?_
    exact (avoids_compileOptional from_start).bind fun _ _ => .ok _ _
  | update d =>
    refine Avoids.map _ ((avoids_entity t _).bind fun entity _ => ?_)
    refine (avoids_encodeDraftKey entity _).bind fun key _ => ?_
    refine (avoids_compileUpdate entity _).bind fun update hupdate => ?_
    -- the condition of an update finds the actions in its tables
    have hb : update.bindings.From (ValueOrigin.Before 0) := (Opening.update hupdate).from_before 0
    exact (avoids_compileOptional (by exact hb)).bind fun _ _ => .ok _ _
  | query d =>
    refine Avoids.map _ ((avoids_combined t _).bind fun schema _ => ?_)
    split
    · exact .error id
    · next keyCondition _ =>
      refine (avoids_checkQueryPaths schema keyCondition _).bind fun _ _ => ?_
      refine (keyCondition.avoids_compile from_start).bind fun r hr => ?_
      obtain ⟨key, p⟩ := r
      -- the filter goes on with the count of the key condition
      have hp := keyCondition.from_compile hr from_start
      refine (avoids_compileOptional hp).bind fun _ _ => ?_
      exact (avoids_compileSelection schema _ _).bind fun _ _ => .ok _ _
  | scan d =>
    refine Avoids.map _ ((avoids_combined t _).bind fun schema _ => ?_)
    refine (avoids_compileOptional from_start).bind fun _ _ => ?_
    exact (avoids_compileSelection schema _ _).bind fun _ _ => .ok _ _

/-! ## The whole operation -/

/-- What conditions that were compiled in turn, from the count `start` on, into the tables of some
actions have done with their values. It is what callers may rely on when all conditions are
compiled; how far the proof has come in between is not in it. -/
structure PrivateTokens (entity : Schema) (actions : List Action)
    (conditions : List (Schema × Condition)) (start : Nat) (progress : Progress) : Prop where
  /-- The tests are those of the paths, in the same order. -/
  paths : (testsInTurn conditions).map (fun (_, leaf) => leaf.path) =
    conditions.flatMap fun (_, c) => c.paths
  /-- Every test counts once. -/
  position : progress.position = start + (conditions.flatMap fun (_, c) => c.paths).length
  /-- No two values share a token. -/
  nodup : (operandTokens start ((testsInTurn conditions).map Prod.snd) ++
    actionTokens 0 actions).Nodup
  /-- The values of the `j`-th test are bound, under the number `start + j`, to their own
  encodings. -/
  tests : ∀ (j : Nat) (schema : Schema) (leaf : Leaf),
    (testsInTurn conditions)[j]? = some (schema, leaf) →
      leaf.BoundIn schema (start + j) progress.bindings
  /-- So are still the values of the actions. -/
  actions : ∀ (k : Nat) (action : Action), actions[k]? = some action →
    action.BoundIn entity k progress.bindings

/-- **Every value has its own token**, and so no row of conditions and no request is ever refused
over a token. It has two parts, for conditions that are compiled by hand and for drafts that are
built. That no conflict of tokens is ever reported is said of failing runs as well, where there
are no tables to speak of. -/
theorem value_tokens_private :
    (∀ (entity : Schema) (actions : List Action) (b : Bindings), Opening entity actions b →
      ∀ (conditions : List (Schema × Condition)) (start : Nat),
        (∀ token, compileInTurn conditions { position := start, bindings := b } ≠
          .error (.placeholderConflict token)) ∧
        ∀ (texts : List String) (progress : Progress),
          compileInTurn conditions { position := start, bindings := b } = .ok (texts, progress) →
          PrivateTokens entity actions conditions start progress) ∧
    ∀ (t : Table) (d : Draft) (token : String),
      d.build t ≠ .error (.placeholderConflict token) := by
  refine ⟨?_, fun t d token h => d.avoids_build t _ h trivial⟩
  intro entity actions b hopening conditions start
  -- the invariant holds at any count the conditions may start from
  have hb : b.From (ValueOrigin.Before start) := hopening.from_before start
  refine ⟨fun token h => avoids_compileInTurn (by exact hb) _ h trivial, ?_⟩
  intro texts progress h
  obtain ⟨texts', hleaves⟩ := compileInTurn_eq_ok h
  have hpaths := map_path_testsInTurn conditions
  refine ⟨hpaths, ?_, nodup_operandTokens_append_actionTokens _ _ _, ?_, ?_⟩
  · rw [position_compileLeaves hleaves, ← hpaths, List.length_map]
  · intro j schema leaf hj
    exact boundIn_compileLeaves hleaves hb hj
  · intro k action hk
    exact (hopening.boundIn hk).grows (grows_compileLeaves hleaves)

/-- Fields that are named like the tokens of one another. -/
def lookalikes : Schema :=
  .map .none [("a", Shop.text), ("a_0", Shop.text), ("a_u0", Shop.text), ("a_0_v1", Shop.text)]

/-- A field named like a tail changes nothing: five values, five tokens. -/
theorem lookalikes_private : ∃ update texts progress,
    compileUpdate lookalikes [⟨⟨"a"⟩, .set (.string "x")⟩] = .ok update ∧
    compileInTurn [(lookalikes, .test ⟨"a_u0"⟩ .eq (.single (.string "x"))),
      (lookalikes, .group .or [.test ⟨"a_0"⟩ .isIn (.list [.string "y", .string "z"]),
        .test ⟨"a_0_v1"⟩ .lt (.single (.string "w"))])]
      { position := 0, bindings := update.bindings } = .ok (texts, progress) ∧
    keys progress.bindings.values =
      [":a_0_1_v0", ":a_0_1_v1", ":a_0_v1_2", ":a_u0", ":a_u0_0"] ∧
    PrivateTokens lookalikes [⟨⟨"a"⟩, .set (.string "x")⟩]
      [(lookalikes, .test ⟨"a_u0"⟩ .eq (.single (.string "x"))),
        (lookalikes, .group .or [.test ⟨"a_0"⟩ .isIn (.list [.string "y", .string "z"]),
          .test ⟨"a_0_v1"⟩ .lt (.single (.string "w"))])] 0 progress := by
  have hrun : ((compileUpdate lookalikes [⟨⟨"a"⟩, .set (.string "x")⟩] >>= fun update =>
      compileInTurn [(lookalikes, .test ⟨"a_u0"⟩ .eq (.single (.string "x"))),
        (lookalikes, .group .or [.test ⟨"a_0"⟩ .isIn (.list [.string "y", .string "z"]),
          .test ⟨"a_0_v1"⟩ .lt (.single (.string "w"))])]
        { position := 0, bindings := update.bindings }).toOption.map
        fun r => keys r.2.bindings.values) =
      some [":a_0_1_v0", ":a_0_1_v1", ":a_0_v1_2", ":a_u0", ":a_u0_0"] := by
    decide +kernel
  obtain ⟨⟨texts, progress⟩, hok, hkeys⟩ := exists_ok_of_toOption_map hrun
  obtain ⟨update, hupdate, hconditions⟩ := bind_eq_ok.1 hok
  refine ⟨update, texts, progress, hupdate, hconditions, hkeys, ?_⟩
  exact (value_tokens_private.1 lookalikes _ _ (.update hupdate) _ 0).2 texts progress hconditions

end ItemStore
