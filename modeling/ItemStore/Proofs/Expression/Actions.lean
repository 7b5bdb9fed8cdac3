import ItemStore.Proofs.Expression.Occurrence

/-
What compiling one action of an update does.

An action binds its path like a nested path of a condition, that is without a number, and
its value, if it sends one, under a token that ends in `u` and the number of the action.
A removal sends nothing, so its token is worked out and thrown away. `AddedAction` is the
whole effect: one more clause among the assignments or among the removals, and tables that
have the tokens of that clause and no others in addition.

The action is one turn of the loop in `compile` of an update.
-/
set_option autoImplicit false

namespace ItemStore

open Entries Bindings

/-! ## One action -/

namespace Change

/-- The value that is sent for the change of an attribute with the given path and node; a removal
sends none. What it holds may still be a failure; that nothing is sent is a different thing from
failing to encode what is. -/
def sent? (path : Path) (node : Schema) : Change → Option (Except Error Descriptor)
  | set v => some (node.encode v)
  | increment amount => some (encodeAmount path node amount)
  | decrement amount => some (encodeAmount path node amount)
  | append values => some (encodeAppended path node values)
  | remove => none

/-- What an attribute is assigned, given its form in expressions and the token of the
value. -/
def source (name token : String) : Change → String
  | set _ => token
  | increment _ => name ++ " + " ++ token
  | decrement _ => name ++ " - " ++ token
  | append _ => "list_append(" ++ name ++ ", " ++ token ++ ")"
  | remove => ""

end Change

/-- The token of the value of the `k`-th action. -/
def Action.token (k : Nat) (action : Action) : String := (ValueOrigin.action k).token action.path

/-- The form of an action's path in the expression. -/
def UpdateClauses.nameOf (clauses : UpdateClauses) (action : Action) : String :=
  dotted (clauses.bindings.pathTokens action.path "")

/-- The tables after the path of an action was bound. -/
def UpdateClauses.withPath (clauses : UpdateClauses) (action : Action) : Bindings :=
  { clauses.bindings with names := clauses.bindings.namesWith action.path "" }

/-- What the `k`-th action adds to the clauses before it. There is a case for what is assigned and
one for what is removed, as there are two lists of clauses. -/
inductive AddedAction (k : Nat) (action : Action) (node : Schema) (clauses : UpdateClauses) :
    UpdateClauses → Prop where
  | assigned {d : Descriptor} {b : Bindings}
      (hsent : action.change.sent? action.path node = some (.ok d))
      (hbind : (clauses.withPath action).bindValue (action.token k) d = .ok b) :
      AddedAction k action node clauses
        { sets := clauses.sets ++ [clauses.nameOf action ++ " = " ++
            action.change.source (clauses.nameOf action) (action.token k)]
          removes := clauses.removes
          bindings := b }
  | removed (h : action.change = .remove) :
      AddedAction k action node clauses
        { sets := clauses.sets
          removes := clauses.removes ++ [clauses.nameOf action]
          bindings := clauses.withPath action }

namespace UpdateClauses

theorem assign_eq_ok {clauses clauses' : UpdateClauses} {name token source : String}
    {d : Descriptor} (h : clauses.assign name token d source = .ok clauses') :
    ∃ b, clauses.bindings.bindValue token d = .ok b ∧
      clauses' =
        { clauses with sets := clauses.sets ++ [name ++ " = " ++ source], bindings := b } := by
  obtain ⟨b, hb, he⟩ := bind_eq_ok.1 h
  cases he
  exact ⟨b, hb, rfl⟩

/-- Compiling an action succeeds in one way only. -/
theorem add_eq_ok {schema : Schema} {k : Nat} {seen : List Path} {action : Action}
    {clauses clauses' : UpdateClauses} (h : clauses.add schema k seen action = .ok clauses') :
    ∃ node, schema.resolve action.path = .ok node ∧ AddedAction k action node clauses clauses' := by
  obtain ⟨path, change⟩ := action
  unfold add at h
  dsimp only at h
  split at h
  · cases h
  · obtain ⟨node, hnode, h⟩ := bind_eq_ok.1 h
    refine ⟨node, hnode, ?_⟩
    split at h
    · cases h
    · rw [bindPath_eq] at h
      -- the four changes with a value differ in how it is encoded and in what is written
      cases change with
      | set v =>
        obtain ⟨d, hd, h⟩ := bind_eq_ok.1 h
        obtain ⟨b, hb, rfl⟩ := assign_eq_ok h
        exact .assigned (congrArg some hd) hb
      | increment amount =>
        obtain ⟨d, hd, h⟩ := bind_eq_ok.1 h
        obtain ⟨b, hb, rfl⟩ := assign_eq_ok h
        exact .assigned (congrArg some hd) hb
      | decrement amount =>
        obtain ⟨d, hd, h⟩ := bind_eq_ok.1 h
        obtain ⟨b, hb, rfl⟩ := assign_eq_ok h
        exact .assigned (congrArg some hd) hb
      | append values =>
        obtain ⟨d, hd, h⟩ := bind_eq_ok.1 h
        obtain ⟨b, hb, rfl⟩ := assign_eq_ok h
        exact .assigned (congrArg some hd) hb
      | remove =>
        -- the check of a removal returns nothing, and its token is not bound
        obtain ⟨-, -, he⟩ := bind_eq_ok.1 h
        cases he
        exact .removed rfl

end UpdateClauses

/-! ## Several actions -/

/-- An update that compiles is its actions compiled from the first one on. -/
theorem compileUpdate_eq_ok {schema : Schema} {actions : List Action} {update : Compiled}
    (h : compileUpdate schema actions = .ok update) :
    ∃ clauses, UpdateClauses.empty.addAll schema 0 [] actions = .ok clauses ∧
      update = { expression := clauses.expression, bindings := clauses.bindings } := by
  unfold compileUpdate at h
  dsimp only at h
  split at h
  · cases h
  · obtain ⟨clauses, hclauses, he⟩ := bind_eq_ok.1 h
    cases he
    exact ⟨clauses, hclauses, rfl⟩

end ItemStore
