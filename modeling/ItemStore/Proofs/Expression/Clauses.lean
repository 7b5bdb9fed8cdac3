import ItemStore.Proofs.Expression.Conflict

/-
Which actions an update accepts, and what stands in its text for each of them.

An action is accepted or refused for reasons of its own: its path leads somewhere and not to a
key, what it sends can be encoded, and what it removes may be missing. The only thing that the
actions have to do with each other is that no two of them have the same path
(`exists_compileUpdate_iff`). So the order in which they are given never decides whether an update
compiles, although it decides about numbers, tokens and clauses.

A `Clause` is an action together with what its compilation made of it: its number, its node and
the tokens of its path. What is written for the action follows from that, and what the tables say
about it is kept when the tables grow, by the actions after it or by a condition.
-/
set_option autoImplicit false

namespace ItemStore

open Entries Bindings

/-! ## Accepted actions -/

/-- What has to hold of an action by itself, its path leading to the given node. Nothing in it
depends on the number of the action or on other actions. -/
structure Action.Accepted (schema : Schema) (action : Action) (node : Schema) : Prop where
  resolve : schema.resolve action.path = .ok node
  root : ((schema.field? action.path.root).map Schema.isKey).getD false = false
  encode : ∀ encoded, action.change.sent? action.path node = some encoded →
    ∃ d, encoded = .ok d
  removable : action.change = .remove → checkRemovable schema action.path node = .ok ()

/-- The path of an accepted action leads to one node. -/
theorem Action.Accepted.node_eq {schema node node' : Schema} {action : Action}
    (h : action.Accepted schema node) (hnode : schema.resolve action.path = .ok node') :
    node = node' := by
  have hresolve := h.resolve
  rw [hnode] at hresolve
  exact (Except.ok.inj hresolve).symm

/-- An accepted action does not reach into a key attribute. -/
theorem Action.Accepted.root_ne_of_isKey {schema node key : Schema} {action : Action}
    {name : String} (h : action.Accepted schema node) (hkey : schema.field? name = some key)
    (hmark : key.isKey = true) : action.path.root ≠ name := by
  rintro rfl
  have hroot := h.root
  rw [hkey, Option.map_some, Option.getD_some, hmark] at hroot
  cases hroot

namespace UpdateClauses

variable {schema : Schema} {k : Nat} {seen : List Path} {action : Action}
  {clauses clauses' : UpdateClauses}

/-- An action that was added is new, and it is accepted. -/
theorem accepted_of_add_eq_ok (h : clauses.add schema k seen action = .ok clauses') :
    action.path ∉ seen ∧ ∃ node, action.Accepted schema node := by
  obtain ⟨path, change⟩ := action
  unfold add at h
  dsimp only at h
  by_cases hseen : path ∈ seen
  · rw [if_pos hseen] at h
    cases h
  · refine ⟨hseen, ?_⟩
    rw [if_neg hseen] at h
    obtain ⟨node, hnode, h⟩ := bind_eq_ok.1 h
    by_cases hroot : ((schema.field? path.root).map Schema.isKey).getD false = true
    · rw [if_pos hroot] at h
      cases h
    · rw [if_neg hroot] at h
      rw [Bool.not_eq_true] at hroot
      -- a value that is sent was encoded, and a removal was checked
      have hsent : ∀ {encoded : Except Error Descriptor} {d : Descriptor}, encoded = .ok d →
          ∀ encoded', some encoded = some encoded' → ∃ d, encoded' = .ok d := by
        intro encoded d hd encoded' he
        exact ⟨d, by rw [← Option.some.inj he, hd]⟩
      refine ⟨node, hnode, hroot, ?_, ?_⟩
      · cases change with
        | set v =>
          obtain ⟨d, hd, -⟩ := bind_eq_ok.1 h
          exact hsent hd
        | increment amount =>
          obtain ⟨d, hd, -⟩ := bind_eq_ok.1 h
          exact hsent hd
        | decrement amount =>
          obtain ⟨d, hd, -⟩ := bind_eq_ok.1 h
          exact hsent hd
        | append values =>
          obtain ⟨d, hd, -⟩ := bind_eq_ok.1 h
          exact hsent hd
        | remove =>
          intro encoded he
          cases he
      · intro hchange
        dsimp only at hchange
        subst hchange
        obtain ⟨u, hcheck, -⟩ := bind_eq_ok.1 h
        exact hcheck

/-- An accepted action can be added if its path is new and its number was not given before. -/
theorem exists_add_eq_ok {node : Schema}
    (hb : clauses.bindings.From (ValueOrigin.ActionBefore k)) (hseen : action.path ∉ seen)
    (haccepted : action.Accepted schema node) :
    ∃ clauses', clauses.add schema k seen action = .ok clauses' := by
  obtain ⟨path, change⟩ := action
  obtain ⟨hnode, hroot, hencode, hremovable⟩ := haccepted
  have hnew : ∀ d, ∃ b, (clauses.withPath ⟨path, change⟩).bindValue
      ((ValueOrigin.action k).token path) d = .ok b := by
    intro d
    refine ⟨_, bindValue_of_get?_eq_none d ?_⟩
    refine From.get?_eq_none (b := clauses.withPath ⟨path, change⟩) hb ?_ path
    rintro ⟨j, hj, he⟩
    cases he
    omega
  -- whatever is encoded is bound and written down
  have hassign : ∀ (encoded : Except Error Descriptor) (source : String),
      change.sent? path node = some encoded →
      ∃ clauses', (encoded >>= fun value =>
        UpdateClauses.assign { clauses with bindings := clauses.withPath ⟨path, change⟩ }
          (clauses.nameOf ⟨path, change⟩) ((ValueOrigin.action k).token path) value source) =
        .ok clauses' := by
    intro encoded source hsent
    obtain ⟨d, rfl⟩ := hencode encoded hsent
    obtain ⟨b, hb⟩ := hnew d
    exact ⟨_, bind_eq_ok.2 ⟨d, rfl, bind_eq_ok.2 ⟨b, hb, rfl⟩⟩⟩
  have hguard : ¬ ((schema.field? path.root).map Schema.isKey).getD false = true := by
    rw [Bool.not_eq_true]
    exact hroot
  unfold add
  dsimp only at hseen hnode ⊢
  rw [if_neg hseen]
  cases change with
  | set v =>
    obtain ⟨clauses', h⟩ := hassign _ ((ValueOrigin.action k).token path) rfl
    refine ⟨clauses', bind_eq_ok.2 ⟨node, hnode, ?_⟩⟩
    rw [if_neg hguard]
    exact h
  | increment amount =>
    obtain ⟨clauses', h⟩ := hassign _ (clauses.nameOf ⟨path, .increment amount⟩ ++ " + " ++
      (ValueOrigin.action k).token path) rfl
    refine ⟨clauses', bind_eq_ok.2 ⟨node, hnode, ?_⟩⟩
    rw [if_neg hguard]
    exact h
  | decrement amount =>
    obtain ⟨clauses', h⟩ := hassign _ (clauses.nameOf ⟨path, .decrement amount⟩ ++ " - " ++
      (ValueOrigin.action k).token path) rfl
    refine ⟨clauses', bind_eq_ok.2 ⟨node, hnode, ?_⟩⟩
    rw [if_neg hguard]
    exact h
  | append values =>
    obtain ⟨clauses', h⟩ := hassign _ ("list_append(" ++
      clauses.nameOf ⟨path, .append values⟩ ++ ", " ++ (ValueOrigin.action k).token path ++
      ")") rfl
    refine ⟨clauses', bind_eq_ok.2 ⟨node, hnode, ?_⟩⟩
    rw [if_neg hguard]
    exact h
  | remove =>
    refine ⟨{ sets := clauses.sets, removes := clauses.removes ++ [clauses.nameOf ⟨path, .remove⟩],
              bindings := clauses.withPath ⟨path, .remove⟩ },
      bind_eq_ok.2 ⟨node, hnode, ?_⟩⟩
    rw [if_neg hguard]
    exact bind_eq_ok.2 ⟨(), hremovable rfl, rfl⟩

/-- Actions in a row are added if each is accepted and no path comes twice. -/
theorem exists_addAll_iff {actions : List Action}
    (hb : clauses.bindings.From (ValueOrigin.ActionBefore k)) :
    (∃ clauses', clauses.addAll schema k seen actions = .ok clauses') ↔
      (∀ action ∈ actions, action.path ∉ seen) ∧ (actions.map Action.path).Nodup ∧
        ∀ action ∈ actions, ∃ node, action.Accepted schema node := by
  induction actions generalizing k seen clauses with
  | nil => simp [addAll]
  | cons action actions ih =>
    rw [List.map_cons, List.nodup_cons]
    constructor
    · rintro ⟨clauses', h⟩
      obtain ⟨clauses₁, hfirst, hrest⟩ := bind_eq_ok.1 h
      obtain ⟨node, -, hadded⟩ := add_eq_ok hfirst
      obtain ⟨hseen, haccepted⟩ := accepted_of_add_eq_ok hfirst
      -- the paths that the others must not have are those before them and this one
      obtain ⟨hlater, hnodup, hall⟩ := (ih (hadded.from_actionBefore hb)).1 ⟨clauses', hrest⟩
      refine ⟨?_, ⟨?_, hnodup⟩, ?_⟩
      · intro a ha
        rcases List.mem_cons.1 ha with rfl | ha
        · exact hseen
        · exact fun hmem => hlater a ha (List.mem_cons_of_mem _ hmem)
      · intro hmem
        obtain ⟨a, ha, he⟩ := List.mem_map.1 hmem
        exact hlater a ha (he ▸ List.mem_cons_self)
      · intro a ha
        rcases List.mem_cons.1 ha with rfl | ha
        · exact haccepted
        · exact hall a ha
    · rintro ⟨hseen, ⟨hnew, hnodup⟩, hall⟩
      obtain ⟨node, haccepted⟩ := hall action List.mem_cons_self
      obtain ⟨clauses₁, hfirst⟩ := exists_add_eq_ok hb (hseen action List.mem_cons_self) haccepted
      obtain ⟨node', -, hadded⟩ := add_eq_ok hfirst
      have hlater : ∀ a ∈ actions, a.path ∉ action.path :: seen := by
        intro a ha hmem
        rcases List.mem_cons.1 hmem with he | hmem
        · exact hnew (List.mem_map.2 ⟨a, ha, he⟩)
        · exact hseen a (List.mem_cons_of_mem _ ha) hmem
      obtain ⟨clauses', hrest⟩ := (ih (hadded.from_actionBefore hb)).2
        ⟨hlater, hnodup, fun a ha => hall a (List.mem_cons_of_mem _ ha)⟩
      exact ⟨clauses', bind_eq_ok.2 ⟨clauses₁, hfirst, hrest⟩⟩

end UpdateClauses

/-- **Which updates compile.** There is an action, no path comes twice, and every action is
accepted by itself. That no conflict of tokens can come between is what makes this an equivalence.
-/
theorem exists_compileUpdate_iff {schema : Schema} {actions : List Action} :
    (∃ update, compileUpdate schema actions = .ok update) ↔
      actions ≠ [] ∧ (actions.map Action.path).Nodup ∧
        ∀ action ∈ actions, ∃ node, action.Accepted schema node := by
  have hadd : (∃ clauses, UpdateClauses.empty.addAll schema 0 [] actions = .ok clauses) ↔
      (∀ action ∈ actions, action.path ∉ []) ∧ (actions.map Action.path).Nodup ∧
        ∀ action ∈ actions, ∃ node, action.Accepted schema node :=
    UpdateClauses.exists_addAll_iff (from_empty _)
  constructor
  · rintro ⟨update, h⟩
    have hne : actions ≠ [] := by
      rintro rfl
      cases h
    obtain ⟨clauses, hclauses, -⟩ := compileUpdate_eq_ok h
    exact ⟨hne, (hadd.1 ⟨clauses, hclauses⟩).2⟩
  · rintro ⟨hne, hnodup, hall⟩
    obtain ⟨clauses, hclauses⟩ := hadd.2 ⟨by simp, hnodup, hall⟩
    unfold compileUpdate
    rw [if_neg (by simp [hne])]
    exact ⟨_, bind_eq_ok.2 ⟨clauses, hclauses, rfl⟩⟩

/-- The order of the actions does not decide whether an update compiles. -/
theorem exists_compileUpdate_of_perm {schema : Schema} {actions actions' : List Action}
    {update : Compiled} (h : compileUpdate schema actions = .ok update)
    (hperm : actions.Perm actions') : ∃ update', compileUpdate schema actions' = .ok update' := by
  obtain ⟨hne, hnodup, hall⟩ := exists_compileUpdate_iff.1 ⟨update, h⟩
  refine exists_compileUpdate_iff.2 ⟨?_, ?_, ?_⟩
  · intro he
    rw [he] at hperm
    exact hne hperm.eq_nil
  · exact (hperm.map Action.path).nodup_iff.1 hnodup
  · exact fun action haction => hall action (hperm.mem_iff.2 haction)

/-! ## Tokens of a path -/

/-- Each token is a variant of the one that is spelled after its segment. -/
theorem variant_bindSegments (segments names : List (String × String)) :
    List.Forall₂ (fun token s => ∃ n, token = tokenVariant s.1 n)
      (bindSegments names segments).1 segments := by
  induction segments generalizing names with
  | nil => exact .nil
  | cons s segments ih =>
    obtain ⟨token, segment⟩ := s
    refine .cons ?_ (ih _)
    obtain ⟨n, hfree, -⟩ := freeToken_spec names segment token
    exact ⟨n, hfree⟩

/-- The token names the segment in the tables and is spelled after it. -/
def Bindings.Names (b : Bindings) (token segment : String) : Prop :=
  get? token b.names = some segment ∧ ∃ n, token = tokenVariant (nameToken "" segment) n

theorem Bindings.Names.grows {b b' : Bindings} {token segment : String}
    (h : b.Names token segment) (hb : Bindings.Grows b b') : b'.Names token segment :=
  ⟨hb.names _ _ h.1, h.2⟩

theorem Bindings.Names.isToken {b : Bindings} {token segment : String}
    (h : b.Names token segment) : IsToken '#' token := by
  obtain ⟨-, n, rfl⟩ := h
  exact (isToken_nameToken (by simpa using isWord_nil) segment).variant n

/-- A path that was bound has a token for each of its segments. -/
theorem names_pathTokens (b : Bindings) (p : Path) :
    List.Forall₂ ({ b with names := b.namesWith p "" } : Bindings).Names
      (b.pathTokens p "") p.segments := by
  have hget := get?_bindSegments (p.nameTokens "") b.names
  have hvariant := variant_bindSegments (p.nameTokens "") b.names
  rw [Path.nameTokens, List.forall₂_map_right_iff] at hget hvariant
  rw [List.forall₂_iff_get] at hget hvariant ⊢
  exact ⟨hget.1, fun i h h' => ⟨hget.2 i h h', hvariant.2 i h h'⟩⟩

/-! ## Clauses -/

/-- An action as it stands in an update: with its number, its node and the tokens of its path.
Name tokens are part of it because they are decided while compiling, by what earlier actions have
bound. -/
structure Clause where
  action : Action
  number : Nat
  node : Schema
  tokens : List String

namespace Clause

/-- The form of the path in the expression. -/
def name (c : Clause) : String := dotted c.tokens

/-- The token of the value, also of one that is not sent. -/
def token (c : Clause) : String := c.action.token c.number

/-- What is written among the assignments. -/
def assignment? (c : Clause) : Option String :=
  if c.action.change.sends then
    some (c.name ++ " = " ++ c.action.change.source c.name c.token)
  else none

/-- What is written among the removals. -/
def removal? (c : Clause) : Option String :=
  if c.action.change.sends then none else some c.name

/-- What the tables have to say about a clause, and the schema about its action. It is kept when
tables grow, so it can be said in the tables that are sent. -/
structure StandsIn (schema : Schema) (b : Bindings) (c : Clause) : Prop where
  accepted : c.action.Accepted schema c.node
  names : List.Forall₂ b.Names c.tokens c.action.path.segments
  value : ∀ encoded, c.action.change.sent? c.action.path c.node = some encoded →
    ∃ d, encoded = .ok d ∧ get? c.token b.values = some d

theorem StandsIn.grows {schema : Schema} {b b' : Bindings} {c : Clause}
    (h : c.StandsIn schema b) (hb : Bindings.Grows b b') : c.StandsIn schema b' := by
  refine ⟨h.accepted, h.names.imp fun token segment hname => hname.grows hb, ?_⟩
  intro encoded he
  obtain ⟨d, hd, hbound⟩ := h.value encoded he
  exact ⟨d, hd, hb.values _ _ hbound⟩

/-- The path of the clause gets the same tokens in all tables that may come of the given ones. -/
def KeepsTokens (b : Bindings) (c : Clause) : Prop :=
  ∀ later : Bindings, Entries.Grows b.names later.names →
    later.pathTokens c.action.path "" = c.tokens

theorem KeepsTokens.grows {b b' : Bindings} {c : Clause} (h : c.KeepsTokens b)
    (hb : Bindings.Grows b b') : c.KeepsTokens b' :=
  fun later hlater => h later (hb.names.trans hlater)

/-- A clause has at least one token. -/
theorem StandsIn.tokens_ne_nil {schema : Schema} {b : Bindings} {c : Clause}
    (h : c.StandsIn schema b) : c.tokens ≠ [] := by
  intro hnil
  have hlength := h.names.length_eq
  rw [hnil, Path.segments, List.length_map] at hlength
  exact Text.splitOn_ne_nil '.' c.action.path.text.toList (List.length_eq_zero_iff.1 hlength.symm)

end Clause

theorem sends_of_sent? {change : Change} {path : Path} {node : Schema}
    {encoded : Except Error Descriptor} (h : change.sent? path node = some encoded) :
    change.sends = true := by
  cases change with
  | remove => cases h
  | _ => rfl

/-- What one action adds is what its clause says. -/
theorem AddedAction.exists_clause {schema node : Schema} {k : Nat} {action : Action}
    {clauses clauses' : UpdateClauses} (h : AddedAction k action node clauses clauses')
    (haccepted : action.Accepted schema node)
    (hb : clauses.bindings.From (ValueOrigin.ActionBefore k)) :
    ∃ c : Clause, c.action = action ∧ c.number = k ∧ c.StandsIn schema clauses'.bindings ∧
      c.KeepsTokens clauses'.bindings ∧
      clauses'.sets = clauses.sets ++ c.assignment?.toList ∧
      clauses'.removes = clauses.removes ++ c.removal?.toList := by
  have hnames := names_pathTokens clauses.bindings action.path
  have hbound := h.boundIn haccepted.resolve hb
  obtain ⟨node', hnode', hvalue⟩ := hbound
  rw [← haccepted.node_eq hnode'] at hvalue
  refine ⟨⟨action, k, node, clauses.bindings.pathTokens action.path ""⟩, rfl, rfl, ?_, ?_, ?_⟩
  · refine ⟨haccepted, ?_, hvalue⟩
    cases h with
    | assigned hsent hbind =>
      exact hnames.imp fun token segment hname => hname.grows (grows_bindValue hbind)
    | removed hchange => exact hnames
  · cases h with
    | assigned hsent hbind =>
      intro later hlater
      exact pathTokens_of_grows ((grows_bindValue hbind).names.trans hlater)
    | removed hchange => exact fun later hlater => pathTokens_of_grows hlater
  · cases h with
    | assigned hsent hbind =>
      have hsends := sends_of_sent? hsent
      simp [Clause.assignment?, Clause.removal?, hsends, Clause.name, Clause.token,
        UpdateClauses.nameOf]
    | removed hchange =>
      simp [Clause.assignment?, Clause.removal?, hchange, Change.sends, Clause.name,
        UpdateClauses.nameOf]

/-- Actions in a row are written one clause after the other, each with its number. -/
theorem exists_clauses_addAll {schema : Schema} {actions : List Action} {k : Nat}
    {seen : List Path} {clauses clauses' : UpdateClauses}
    (h : clauses.addAll schema k seen actions = .ok clauses')
    (hb : clauses.bindings.From (ValueOrigin.ActionBefore k)) :
    ∃ cs : List Clause, cs.map Clause.action = actions ∧
      cs.map Clause.number = List.range' k actions.length ∧
      (∀ c ∈ cs, c.StandsIn schema clauses'.bindings ∧ c.KeepsTokens clauses'.bindings) ∧
      clauses'.sets = clauses.sets ++ cs.filterMap Clause.assignment? ∧
      clauses'.removes = clauses.removes ++ cs.filterMap Clause.removal? := by
  induction actions generalizing k seen clauses with
  | nil =>
    cases h
    exact ⟨[], rfl, rfl, by simp, by simp, by simp⟩
  | cons action actions ih =>
    obtain ⟨clauses₁, hfirst, hrest⟩ := bind_eq_ok.1 h
    obtain ⟨node, hnode, hadded⟩ := UpdateClauses.add_eq_ok hfirst
    obtain ⟨-, node', haccepted⟩ := UpdateClauses.accepted_of_add_eq_ok hfirst
    rw [haccepted.node_eq hnode] at haccepted
    obtain ⟨c, hc, hnumber, hstands, hkeeps, hsets, hremoves⟩ := hadded.exists_clause haccepted hb
    have hb₁ := hadded.from_actionBefore hb
    obtain ⟨hgrows, -, -⟩ := boundIn_addAll hrest hb₁
    obtain ⟨cs, hcs, hnumbers, hstands', hsets', hremoves'⟩ := ih hrest hb₁
    refine ⟨c :: cs, by rw [List.map_cons, hc, hcs], ?_, ?_, ?_, ?_⟩
    · rw [List.map_cons, hnumber, hnumbers, List.length_cons, List.range'_succ]
    · intro c' hc'
      rcases List.mem_cons.1 hc' with rfl | hc'
      · exact ⟨hstands.grows hgrows, hkeeps.grows hgrows⟩
      · exact hstands' c' hc'
    · rw [hsets', hsets, List.append_assoc, List.filterMap_cons]
      cases c.assignment? <;> rfl
    · rw [hremoves', hremoves, List.append_assoc, List.filterMap_cons]
      cases c.removal? <;> rfl

/-- An update is written by its clauses, numbered from the first one on, assignments and removals
each in their order. -/
structure Clause.Write (schema : Schema) (actions : List Action) (update : Compiled)
    (cs : List Clause) : Prop where
  numbers : cs.map Clause.number = List.range actions.length
  actions : cs.map Clause.action = actions
  stand : ∀ c ∈ cs, c.StandsIn schema update.bindings
  expression : update.expression =
    " ".intercalate (updateClause "SET" (cs.filterMap Clause.assignment?) ++
      updateClause "REMOVE" (cs.filterMap Clause.removal?))

theorem Clause.Write.action_mem {schema : Schema} {actions : List Action} {update : Compiled}
    {cs : List Clause} (h : Write schema actions update cs) {c : Clause} (hc : c ∈ cs) :
    c.action ∈ actions := by
  rw [← h.actions]
  exact List.mem_map_of_mem hc

/-- **What an update consists of.** The tokens of its clauses are final. They are kept by whatever
is compiled into the same tables afterwards, the condition of the update above all. -/
theorem exists_lasting_clauses {schema : Schema} {actions : List Action} {update : Compiled}
    (h : compileUpdate schema actions = .ok update) :
    ∃ cs, Clause.Write schema actions update cs ∧ ∀ c ∈ cs, c.KeepsTokens update.bindings := by
  obtain ⟨clauses, hclauses, rfl⟩ := compileUpdate_eq_ok h
  obtain ⟨cs, hcs, hnumbers, hstand, hsets, hremoves⟩ :=
    exists_clauses_addAll hclauses (from_empty _)
  refine ⟨cs, ⟨hnumbers.trans List.range_eq_range'.symm, hcs, fun c hc => (hstand c hc).1, ?_⟩,
    fun c hc => (hstand c hc).2⟩
  have hempty : UpdateClauses.empty.sets = [] ∧ UpdateClauses.empty.removes = [] := ⟨rfl, rfl⟩
  rw [hempty.1, List.nil_append] at hsets
  rw [hempty.2, List.nil_append] at hremoves
  dsimp only
  rw [UpdateClauses.expression, hsets, hremoves]

theorem exists_clauses_compileUpdate {schema : Schema} {actions : List Action}
    {update : Compiled} (h : compileUpdate schema actions = .ok update) :
    ∃ cs, Clause.Write schema actions update cs := by
  obtain ⟨cs, hwrite, -⟩ := exists_lasting_clauses h
  exact ⟨cs, hwrite⟩

end ItemStore
