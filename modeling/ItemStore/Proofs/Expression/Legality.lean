import ItemStore.Proofs.Expression.Acceptance
import ItemStore.Proofs.Expression.Clauses
import ItemStore.Proofs.Expression.Reading
import ItemStore.Proofs.Schema.Descent

/-
Which updates compile, what is wrong with the others, and what is written for those that do.

An action is legal by itself or it is not: its path has to lead somewhere and not into a key, and
its change has to go with the node that is there. All that an action has to do with the others is
that no path comes twice. An update is refused for the first of its actions that is not in order,
whatever comes after it. As with conditions, the only thing that could come between is a conflict
over a token; there is none in an update, so the proofs let conflicts pass (`FailsBy`) and are about
one action at a time.

For a removal the node around the attribute is looked up by a path of its own, which is put
together again from segments. That this leads to where the attribute was found needs no more than
that segments have no dots.
-/
set_option autoImplicit false

namespace ItemStore

open Entries Bindings

/-! ## Legal actions -/

/-- Whether the attribute at a path may be taken away: an element of a list always, a field of a
map if it is optional. -/
def Schema.isRemovable (schema : Schema) (p : Path) (node : Schema) : Bool :=
  match schema.descend? p.segments.dropLast with
  | some (.list _ _) => true
  | some (.map _ _) => node.isOptional
  | _ => false

/-- The changes that go with an attribute, given its path and its node. It is stated without the
functions of the compiler, apart from `encode`. -/
inductive Change.Legal (schema : Schema) (p : Path) (node : Schema) : Change → Prop where
  | set {v : Value} {d : Descriptor} (h : node.encode v = .ok d) : Legal schema p node (.set v)
  | increment {m : Modifiers} {amount : Value} {d : Descriptor} (hnode : node = .scalar m .number)
      (h : (Schema.ofKind .number).encode amount = .ok d) : Legal schema p node (.increment amount)
  | decrement {m : Modifiers} {amount : Value} {d : Descriptor} (hnode : node = .scalar m .number)
      (h : (Schema.ofKind .number).encode amount = .ok d) : Legal schema p node (.decrement amount)
  | append {m : Modifiers} {element : Schema} {values : List Value} {d : Descriptor}
      (hnode : node = .list m element) (h : node.encode (.list values) = .ok d) :
      Legal schema p node (.append values)
  | remove (h : schema.isRemovable p node = true) : Legal schema p node .remove

/-- An action that is in order by itself. -/
structure Action.Legal (schema : Schema) (action : Action) (node : Schema) : Prop where
  resolve : schema.resolve action.path = .ok node
  root : ∀ field, schema.field? action.path.root = some field → field.isKey = false
  change : action.change.Legal schema action.path node

/-- Actions of which each is in order and no two have the same path. Paths are compared as they
are written, as the compiler does; that two spellings can mean one place is not its concern. -/
structure Action.AllLegal (schema : Schema) (actions : List Action) : Prop where
  nodup : (actions.map fun action => action.path.text).Nodup
  legal : ∀ action ∈ actions, ∃ node, action.Legal schema node

/-! ## Faults -/

/-- What is wrong with adding an amount to an attribute or subtracting it. -/
def amountOffence? (p : Path) (node : Schema) (amount : Value) : Option Error :=
  match node with
  | .scalar _ .number => fault? ((Schema.ofKind .number).encode amount)
  | _ => some (.invalidUpdate (.notANumber p.text))

/-- What is wrong with appending values to an attribute. -/
def appendOffence? (p : Path) (node : Schema) (values : List Value) : Option Error :=
  match node with
  | .list _ _ => fault? (node.encode (.list values))
  | _ => some (.invalidUpdate (.notAList p.text))

/-- What is wrong with a change of an attribute. -/
def Change.offence? (schema : Schema) (p : Path) (node : Schema) : Change → Option Error
  | set v => fault? (node.encode v)
  | increment amount => amountOffence? p node amount
  | decrement amount => amountOffence? p node amount
  | append values => appendOffence? p node values
  | remove =>
    if schema.isRemovable p node then none else some (.invalidUpdate (.required p.text))

/-- What is wrong with an action after actions with the given paths: a path that came before
counts first, then one that leads nowhere, then one into a key, and last the change. The order is
that of the checks in the loop of `compile`. -/
def Action.offence? (schema : Schema) (seen : List Path) (action : Action) : Option Error :=
  if action.path ∈ seen then some (.invalidUpdate (.repeatedPath action.path.text))
  else
    match schema.resolve action.path with
    | .error e => some e
    | .ok node =>
      if ((schema.field? action.path.root).map Schema.isKey).getD false then
        some (.invalidUpdate (.keyAttribute action.path.root))
      else action.change.offence? schema action.path node

/-- What is wrong with the first action that is not in order, after actions with the given
paths. -/
def Action.firstOffence? (schema : Schema) (seen : List Path) : List Action → Option Error
  | [] => none
  | action :: actions =>
    (action.offence? schema seen).or (firstOffence? schema (action.path :: seen) actions)

/-- The update is refused for the first of its actions that is not in order, or because it has no
actions. It is told by what comes before the action in question and does not depend on what comes
behind. -/
def Action.FirstOffence (schema : Schema) (actions : List Action) (e : Error) : Prop :=
  (actions = [] ∧ e = .invalidUpdate .noActions) ∨
    ∃ before action after, actions = before ++ action :: after ∧ AllLegal schema before ∧
      action.offence? schema (before.map Action.path) = some e

/-! ## Without a fault -/

theorem amountOffence?_eq_none_iff {p : Path} {node : Schema} {amount : Value} :
    amountOffence? p node amount = none ↔
      ∃ m d, node = .scalar m .number ∧ (Schema.ofKind .number).encode amount = .ok d := by
  unfold amountOffence?
  split
  · next m =>
    rw [fault?_eq_none_iff]
    constructor
    · rintro ⟨d, hd⟩
      exact ⟨m, d, rfl, hd⟩
    · rintro ⟨-, d, -, hd⟩
      exact ⟨d, hd⟩
  · next hnot =>
    constructor
    · intro h
      cases h
    · rintro ⟨m, -, rfl, -⟩
      exact absurd rfl (hnot m)

theorem appendOffence?_eq_none_iff {p : Path} {node : Schema} {values : List Value} :
    appendOffence? p node values = none ↔
      ∃ m element d, node = .list m element ∧ node.encode (.list values) = .ok d := by
  unfold appendOffence?
  split
  · next m element =>
    rw [fault?_eq_none_iff]
    constructor
    · rintro ⟨d, hd⟩
      exact ⟨m, element, d, rfl, hd⟩
    · rintro ⟨-, -, d, -, hd⟩
      exact ⟨d, hd⟩
  · next hnot =>
    constructor
    · intro h
      cases h
    · rintro ⟨m, element, -, rfl, -⟩
      exact absurd rfl (hnot m element)

/-- A change without a fault is legal, and a legal one has none. -/
theorem Change.offence?_eq_none_iff {schema : Schema} {p : Path} {node : Schema}
    {change : Change} : change.offence? schema p node = none ↔ change.Legal schema p node := by
  cases change with
  | set v =>
    rw [offence?, fault?_eq_none_iff]
    constructor
    · rintro ⟨d, hd⟩
      exact .set hd
    · rintro ⟨hd⟩
      exact ⟨_, hd⟩
  | increment amount =>
    rw [offence?, amountOffence?_eq_none_iff]
    constructor
    · rintro ⟨m, d, hnode, hd⟩
      exact .increment hnode hd
    · intro h
      cases h with
      | increment hnode hd => exact ⟨_, _, hnode, hd⟩
  | decrement amount =>
    rw [offence?, amountOffence?_eq_none_iff]
    constructor
    · rintro ⟨m, d, hnode, hd⟩
      exact .decrement hnode hd
    · intro h
      cases h with
      | decrement hnode hd => exact ⟨_, _, hnode, hd⟩
  | append values =>
    rw [offence?, appendOffence?_eq_none_iff]
    constructor
    · rintro ⟨m, element, d, hnode, hd⟩
      exact .append hnode hd
    · intro h
      cases h with
      | append hnode hd => exact ⟨_, _, _, hnode, hd⟩
  | remove =>
    rw [offence?]
    by_cases hremovable : schema.isRemovable p node = true
    · rw [if_pos hremovable]
      exact ⟨fun _ => .remove hremovable, fun _ => rfl⟩
    · rw [if_neg hremovable]
      constructor
      · intro h
        cases h
      · intro h
        cases h with
        | remove h => exact absurd h hremovable

/-- The first segment of a path is no key attribute. -/
theorem root_spared_iff {schema : Schema} {name : String} :
    ((schema.field? name).map Schema.isKey).getD false = false ↔
      ∀ field, schema.field? name = some field → field.isKey = false := by
  cases hfield : schema.field? name with
  | none => simp
  | some field => simp

theorem Action.offence?_eq_none_iff {schema : Schema} {seen : List Path} {action : Action} :
    action.offence? schema seen = none ↔
      action.path ∉ seen ∧ ∃ node, action.Legal schema node := by
  rw [offence?]
  by_cases hseen : action.path ∈ seen
  · rw [if_pos hseen]
    simp [hseen]
  · rw [if_neg hseen]
    cases hnode : schema.resolve action.path with
    | error e =>
      constructor
      · intro h
        cases h
      · rintro ⟨-, node, hlegal⟩
        rw [hlegal.resolve] at hnode
        cases hnode
    | ok node =>
      dsimp only
      by_cases hroot : ((schema.field? action.path.root).map Schema.isKey).getD false = true
      · rw [if_pos hroot]
        constructor
        · intro h
          cases h
        · rintro ⟨-, node', hlegal⟩
          rw [root_spared_iff.2 hlegal.root] at hroot
          cases hroot
      · rw [if_neg hroot, Change.offence?_eq_none_iff]
        rw [Bool.not_eq_true, root_spared_iff] at hroot
        constructor
        · intro hchange
          exact ⟨hseen, node, hnode, hroot, hchange⟩
        · rintro ⟨-, node', hlegal⟩
          have hsame := hlegal.resolve
          rw [hnode] at hsame
          cases hsame
          exact hlegal.change

/-! ## One action -/

/-- Where a path leads somewhere, so does what is left of it without its last segment, and there
is a map or a list there. -/
theorem Schema.exists_parent {schema node : Schema} {p : Path}
    (h : schema.resolve p = .ok node) : ∃ parent,
      schema.descend? p.segments.dropLast = some parent ∧
        ((∃ m fields, parent = .map m fields) ∨ ∃ m element, parent = .list m element) := by
  have hlast := List.dropLast_append_getLast p.segments_ne_nil
  rw [resolve_eq_ok, resolve?, ← hlast, descend?_append] at h
  obtain ⟨parent, hparent, hstep⟩ := Option.bind_eq_some_iff.1 h
  refine ⟨parent, hparent, ?_⟩
  cases parent with
  | map m fields => exact .inl ⟨m, fields, rfl⟩
  | list m element => exact .inr ⟨m, element, rfl⟩
  | _ => cases hstep

/-- The path of the node around an attribute leads there; where there is no such path, it is the
schema itself. -/
theorem Schema.resolve_parent? {schema parent : Schema} {p : Path}
    (h : schema.descend? p.segments.dropLast = some parent) :
    (p.parent? = none ∧ parent = schema) ∨
      ∃ q, p.parent? = some q ∧ schema.resolve q = .ok parent := by
  rw [Path.parent?]
  cases hsegments : p.segments.dropLast with
  | nil =>
    rw [hsegments] at h
    exact .inl ⟨rfl, (Option.some.inj h).symm⟩
  | cons segment segments =>
    refine .inr ⟨_, rfl, ?_⟩
    have hdots : ∀ s ∈ segment :: segments, '.' ∉ s.toList := by
      intro s hs
      rw [← hsegments] at hs
      exact Path.dot_notMem_of_mem_segments (List.dropLast_subset _ hs)
    rw [resolve_eq_ok, resolve?, Path.segments_intercalate (List.cons_ne_nil _ _) hdots,
      ← hsegments]
    exact h

/-- The check of a removal finds the node around the attribute and asks it whether the attribute
may be missing. -/
theorem fault?_checkRemovable {schema node : Schema} {p : Path}
    (h : schema.resolve p = .ok node) :
    fault? (checkRemovable schema p node) =
      if schema.isRemovable p node then none else some (.invalidUpdate (.required p.text)) := by
  obtain ⟨parent, hparent, hkind⟩ := Schema.exists_parent h
  have hcheck : checkRemovable schema p node =
      if parent.fields?.isSome ∧ node.isOptional = false then
        .error (.invalidUpdate (.required p.text)) else .ok () := by
    rw [checkRemovable]
    rcases Schema.resolve_parent? hparent with ⟨hnone, rfl⟩ | ⟨q, hq, hresolve⟩
    · rw [hnone]
      rfl
    · rw [hq]
      dsimp only
      rw [hresolve]
      rfl
  rw [hcheck, Schema.isRemovable, hparent]
  rcases hkind with ⟨m, fields, rfl⟩ | ⟨m, element, rfl⟩
  · cases hoptional : node.isOptional with
    | false => rfl
    | true => rfl
  · rfl

theorem failsBy_encodeAmount (p : Path) (node : Schema) (amount : Value) :
    FailsBy (amountOffence? p node amount) (encodeAmount p node amount) := by
  cases node with
  | scalar m kind =>
    cases kind with
    | number => exact failsBy_fault? _
    | _ => exact .inl rfl
  | _ => exact .inl rfl

theorem failsBy_encodeAppended (p : Path) (node : Schema) (values : List Value) :
    FailsBy (appendOffence? p node values) (encodeAppended p node values) := by
  cases node with
  | list m element => exact failsBy_fault? _
  | _ => exact .inl rfl

namespace UpdateClauses

/-- Writing an assignment has no fault of its own. -/
theorem failsBy_assign (clauses : UpdateClauses) (name token source : String) (d : Descriptor) :
    FailsBy none (clauses.assign name token d source) :=
  (failsBy_bindValue clauses.bindings token d).andThen

/-- A value that is encoded and assigned meets what is wrong with its encoding. -/
theorem failsBy_encode_assign {expected : Option Error} {encoded : Except Error Descriptor}
    (h : FailsBy expected encoded) (clauses : UpdateClauses) (name token source : String) :
    FailsBy expected (encoded >>= fun value => clauses.assign name token value source) := by
  have hboth := h.bind fun d _ => clauses.failsBy_assign name token source d
  rw [Option.or_none] at hboth
  exact hboth

/-- **One action.** Adding it meets what is wrong with it. The tables play no part in it. -/
theorem failsBy_add (schema : Schema) (k : Nat) (seen : List Path) (action : Action)
    (clauses : UpdateClauses) :
    FailsBy (action.offence? schema seen) (clauses.add schema k seen action) := by
  obtain ⟨path, change⟩ := action
  unfold add Action.offence?
  dsimp only
  by_cases hseen : path ∈ seen
  · rw [if_pos hseen, if_pos hseen]
    exact .inl rfl
  · rw [if_neg hseen, if_neg hseen]
    cases hnode : schema.resolve path with
    | error e => exact .inl rfl
    | ok node =>
      simp only [bind, Except.bind]
      by_cases hroot : ((schema.field? path.root).map Schema.isKey).getD false = true
      · rw [if_pos hroot, if_pos hroot]
        exact .inl rfl
      · rw [if_neg hroot, if_neg hroot]
        cases change with
        | set v => exact failsBy_encode_assign (failsBy_fault? _) _ _ _ _
        | increment amount => exact failsBy_encode_assign (failsBy_encodeAmount _ _ _) _ _ _ _
        | decrement amount => exact failsBy_encode_assign (failsBy_encodeAmount _ _ _) _ _ _ _
        | append values => exact failsBy_encode_assign (failsBy_encodeAppended _ _ _) _ _ _ _
        | remove =>
          rw [Change.offence?, ← fault?_checkRemovable hnode]
          exact (failsBy_fault? _).andThen

/-- Actions in a row meet the first fault among them. -/
theorem failsBy_addAll (schema : Schema) (actions : List Action) (k : Nat) (seen : List Path)
    (clauses : UpdateClauses) :
    FailsBy (Action.firstOffence? schema seen actions) (clauses.addAll schema k seen actions) := by
  induction actions generalizing k seen clauses with
  | nil => rfl
  | cons action actions ih =>
    exact (failsBy_add schema k seen action clauses).bind fun clauses' _ => ih _ _ clauses'

end UpdateClauses

/-! ## Several actions -/

namespace Action

variable {schema : Schema} {actions : List Action}

/-- Which paths came before counts, not in which order. -/
theorem offence?_congr {seen seen' : List Path} {action : Action}
    (h : ∀ p, p ∈ seen ↔ p ∈ seen') :
    action.offence? schema seen = action.offence? schema seen' := by
  simp only [offence?, h]

/-- Actions without a fault are legal, no two have the same path, and none has a path that came
before them. -/
theorem firstOffence?_eq_none_iff {seen : List Path} :
    firstOffence? schema seen actions = none ↔
      (∀ action ∈ actions, action.path ∉ seen) ∧ AllLegal schema actions := by
  induction actions generalizing seen with
  | nil => exact ⟨fun _ => ⟨by simp, by simp, by simp⟩, fun _ => rfl⟩
  | cons action actions ih =>
    rw [firstOffence?, Option.or_eq_none_iff, offence?_eq_none_iff, ih]
    constructor
    · rintro ⟨⟨hfirst, hlegal⟩, hrest, hnodup, hall⟩
      refine ⟨?_, ?_, List.forall_mem_cons.2 ⟨hlegal, hall⟩⟩
      · exact List.forall_mem_cons.2
          ⟨hfirst, fun a ha hmem => hrest a ha (List.mem_cons_of_mem _ hmem)⟩
      · refine List.nodup_cons.2 ⟨?_, hnodup⟩
        intro hmem
        obtain ⟨a, ha, htext⟩ := List.mem_map.1 hmem
        have hpath : a.path = action.path := Path.text_injective htext
        exact hrest a ha (hpath ▸ List.mem_cons_self)
    · rintro ⟨hseen, hnodup, hall⟩
      obtain ⟨hfirst, hrest⟩ := List.forall_mem_cons.1 hseen
      obtain ⟨hnew, hnodup⟩ := List.nodup_cons.1 hnodup
      obtain ⟨hlegal, hall⟩ := List.forall_mem_cons.1 hall
      refine ⟨⟨hfirst, hlegal⟩, ?_, hnodup, hall⟩
      intro a ha hmem
      rcases List.mem_cons.1 hmem with hpath | hmem
      · exact hnew (List.mem_map.2 ⟨a, ha, congrArg Path.text hpath⟩)
      · exact hrest a ha hmem

/-- **Stopping at the first.** What is wrong with actions is what is wrong with one of them, where
nothing is wrong with those before it. It turns a search through a list into a statement about one
action and those before it. -/
theorem firstOffence?_eq_some_iff {seen : List Path} {e : Error} :
    firstOffence? schema seen actions = some e ↔
      ∃ before action after, actions = before ++ action :: after ∧
        firstOffence? schema seen before = none ∧
        action.offence? schema (seen ++ before.map Action.path) = some e := by
  induction actions generalizing seen with
  | nil =>
    constructor
    · intro h
      cases h
    · rintro ⟨before, action, after, hsplit, -, -⟩
      simp at hsplit
  | cons first actions ih =>
    -- the path of the first action is among those that came before, wherever it stands there
    have hsame : ∀ (before : List Action) (action : Action),
        action.offence? schema ((first.path :: seen) ++ before.map Action.path) =
          action.offence? schema (seen ++ (first :: before).map Action.path) := by
      intro before action
      refine offence?_congr fun p => ?_
      simp only [List.map_cons, List.mem_append, List.mem_cons]
      tauto
    rw [firstOffence?]
    constructor
    · intro h
      cases hfirst : first.offence? schema seen with
      | some e' =>
        rw [hfirst, Option.some_or] at h
        exact ⟨[], first, actions, rfl, rfl, by simpa [hfirst] using h⟩
      | none =>
        rw [hfirst, Option.none_or] at h
        obtain ⟨before, action, after, rfl, hbefore, he⟩ := ih.1 h
        refine ⟨first :: before, action, after, rfl, ?_, ?_⟩
        · rw [firstOffence?, hfirst, Option.none_or]
          exact hbefore
        · rw [← hsame]
          exact he
    · rintro ⟨before, action, after, hsplit, hbefore, he⟩
      cases before with
      | nil =>
        obtain ⟨rfl, rfl⟩ := List.cons.inj hsplit
        have hfirst : first.offence? schema seen = some e := by simpa using he
        rw [hfirst, Option.some_or]
      | cons first' before =>
        obtain ⟨rfl, rfl⟩ := List.cons.inj hsplit
        obtain ⟨hfirst, hbefore⟩ := Option.or_eq_none_iff.1 hbefore
        rw [hfirst, Option.none_or]
        refine ih.2 ⟨before, action, after, rfl, hbefore, ?_⟩
        rw [hsame]
        exact he

end Action

/-- An update fails for the first of its actions that is not in order. -/
theorem fault?_compileUpdate (schema : Schema) (actions : List Action) :
    fault? (compileUpdate schema actions) =
      if actions = [] then some (.invalidUpdate .noActions)
      else Action.firstOffence? schema [] actions := by
  by_cases hnil : actions = []
  · rw [hnil]
    rfl
  · have hfails : FailsBy (Action.firstOffence? schema [] actions)
        (compileUpdate schema actions) := by
      unfold compileUpdate
      rw [if_neg (by simp [hnil])]
      exact (UpdateClauses.failsBy_addAll schema actions 0 [] .empty).andThen
    rw [if_neg hnil]
    exact hfails.fault?_eq (avoids_compileUpdate schema actions)

/-- The error of an update is that of its first action that is not in order. -/
theorem compileUpdate_eq_error_iff {schema : Schema} {actions : List Action} {e : Error} :
    compileUpdate schema actions = .error e ↔ Action.FirstOffence schema actions e := by
  rw [← fault?_eq_some_iff, fault?_compileUpdate]
  by_cases hnil : actions = []
  · rw [if_pos hnil, Option.some_inj]
    constructor
    · rintro rfl
      exact .inl ⟨hnil, rfl⟩
    · rintro (⟨-, rfl⟩ | ⟨before, action, after, hsplit, -, -⟩)
      · rfl
      · rw [hnil] at hsplit
        simp at hsplit
  · rw [if_neg hnil, Action.firstOffence?_eq_some_iff]
    constructor
    · rintro ⟨before, action, after, hsplit, hbefore, he⟩
      exact .inr ⟨before, action, after, hsplit, (Action.firstOffence?_eq_none_iff.1 hbefore).2, he⟩
    · rintro (⟨h, -⟩ | ⟨before, action, after, hsplit, hbefore, he⟩)
      · exact absurd h hnil
      · exact ⟨before, action, after, hsplit,
          Action.firstOffence?_eq_none_iff.2 ⟨by simp, hbefore⟩, he⟩

/-- Legal actions, at least one, are what an update consists of. -/
theorem exists_compileUpdate_iff_allLegal {schema : Schema} {actions : List Action} :
    (∃ update, compileUpdate schema actions = .ok update) ↔
      actions ≠ [] ∧ Action.AllLegal schema actions := by
  rw [← fault?_eq_none_iff, fault?_compileUpdate]
  by_cases hnil : actions = []
  · rw [if_pos hnil]
    simp [hnil]
  · rw [if_neg hnil, Action.firstOffence?_eq_none_iff]
    simp [hnil]

/-! ## What is written -/

namespace Clause

/-- Clauses with different numbers have different tokens for their values, whatever their paths
are. -/
theorem nodup_tokens {cs : List Clause} (h : (cs.map number).Nodup) : (cs.map token).Nodup := by
  rw [List.Nodup, List.pairwise_map] at h ⊢
  refine h.imp fun {c c'} hne htoken => hne ?_
  exact ValueOrigin.action.inj (ValueOrigin.token_inj htoken)

theorem token_eq (c : Clause) :
    c.token = ":" ++ c.action.path.word ++ "_u" ++ toString c.number := by
  have hsuffix : (ValueOrigin.action c.number).suffix ≠ "" := ValueOrigin.suffix_ne_empty _
  have htail : "_" ++ (ValueOrigin.action c.number).suffix = "_u" ++ toString c.number := by
    rw [ValueOrigin.suffix, ← String.append_assoc]
    rfl
  rw [token, Action.token, ValueOrigin.token, Path.valueToken, tokenTail, if_neg hsuffix, htail,
    ← String.append_assoc]

end Clause

/-- **Which updates compile and to what.** There has to be an action, and every action has to be
legal and about a path of its own; otherwise the error is that of the first action that is not in
order. The assignments are written in the order of the actions, and so are the removals behind
them. The tokens of a clause stand for the path of its action, and what an action sends is bound
to a token that no other action has. Success, failure and result are three parts because each is
complete by itself: the first two are equivalences, and the third one describes every clause of
the text and every value that is sent. No hypothesis is made about the schema. -/
theorem compileUpdate_spec (schema : Schema) (actions : List Action) :
    ((∃ update, compileUpdate schema actions = .ok update) ↔
      actions ≠ [] ∧ Action.AllLegal schema actions) ∧
    (∀ e, compileUpdate schema actions = .error e ↔ Action.FirstOffence schema actions e) ∧
    ∀ update, compileUpdate schema actions = .ok update →
      ∃ cs : List Clause, cs.map Clause.action = actions ∧
        cs.map Clause.number = List.range actions.length ∧
        update.expression =
          " ".intercalate (updateClause "SET" (cs.filterMap Clause.assignment?) ++
            updateClause "REMOVE" (cs.filterMap Clause.removal?)) ∧
        (cs.map Clause.token).Nodup ∧
        ∀ c ∈ cs, c.action.Legal schema c.node ∧
          update.bindings.path? c.tokens = some c.action.path.text ∧
          c.token = ":" ++ c.action.path.word ++ "_u" ++ toString c.number ∧
          ∀ encoded, c.action.change.sent? c.action.path c.node = some encoded →
            ∃ d, encoded = .ok d ∧ get? c.token update.bindings.values = some d := by
  refine ⟨exists_compileUpdate_iff_allLegal, fun e => compileUpdate_eq_error_iff, ?_⟩
  intro update h
  obtain ⟨cs, hwrite⟩ := exists_clauses_compileUpdate h
  have hlegal := (exists_compileUpdate_iff_allLegal.1 ⟨update, h⟩).2.legal
  have htokens : (cs.map Clause.token).Nodup :=
    Clause.nodup_tokens (hwrite.numbers ▸ List.nodup_range)
  refine ⟨cs, hwrite.actions, hwrite.numbers, hwrite.expression, htokens, fun c hc => ?_⟩
  have hstands := hwrite.stand c hc
  -- the node of the clause is the one that the action is legal at
  obtain ⟨node, hnode⟩ := hlegal c.action (hwrite.action_mem hc)
  rw [← hstands.accepted.node_eq hnode.resolve] at hnode
  exact ⟨hnode, path?_eq_some (hstands.names.imp fun _ _ hname => hname.1), c.token_eq,
    hstands.value⟩

end ItemStore
