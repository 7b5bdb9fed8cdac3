import ItemStore.Proofs.Expression.Actions
import ItemStore.Proofs.Expression.Leaves

/-
Every value has a token to itself.

What keeps value tokens apart is where they come from, so the invariant speaks of origins
and not of texts. `Bindings.From S` says that all value tokens in the tables come from
origins in `S`. An origin outside `S` then has a token that stands for nothing, at any path
whatever, and binding it can neither fail nor find an equal value there before. The count
of tests is the invariant of a run: before the `n`-th test all origins are actions or
belong to earlier tests.
-/
set_option autoImplicit false

namespace ItemStore

open Entries Bindings

/-! ## Origins of tests and actions -/

namespace ValueOrigin

/-- The number of the test the value belongs to; the value of an action belongs to none. -/
def index? : ValueOrigin → Option Nat
  | only index => some index
  | nth index _ => some index
  | action _ => none

/-- The value belongs to an action or to a test before the `n`-th one. Actions are before any
test, since their tails differ from those of tests. -/
def Before (n : Nat) (o : ValueOrigin) : Prop := ∀ i, o.index? = some i → i < n

/-- The value belongs to an action before the `k`-th one. -/
def ActionBefore (k : Nat) (o : ValueOrigin) : Prop := ∃ j < k, o = action j

theorem Before.mono {m n : Nat} (h : m ≤ n) {o : ValueOrigin} (ho : o.Before m) : o.Before n :=
  fun i hi => Nat.lt_of_lt_of_le (ho i hi) h

theorem not_before {n : Nat} {o : ValueOrigin} (h : o.index? = some n) : ¬ o.Before n :=
  fun ho => Nat.lt_irrefl n (ho n h)

theorem before_succ {n : Nat} {o : ValueOrigin} (h : o.index? = some n) : o.Before (n + 1) := by
  intro i hi
  rw [h] at hi
  cases hi
  exact Nat.lt_succ_self n

theorem ActionBefore.before {k : Nat} {o : ValueOrigin} (h : o.ActionBefore k) (n : Nat) :
    o.Before n := by
  obtain ⟨j, -, rfl⟩ := h
  intro i hi
  cases hi

end ValueOrigin

namespace Operand

theorem index?_of_mem_origins {index : Nat} {operand : Operand} {o : ValueOrigin}
    (h : o ∈ operand.origins index) : o.index? = some index := by
  -- whatever the operand, its origins carry the number of the test
  cases operand with
  | none => cases h
  | single v => rw [List.mem_singleton.1 h, ValueOrigin.index?]
  | pair low high =>
    rcases List.mem_pair.1 h with rfl | rfl <;> rfl
  | list values =>
    obtain ⟨k, -, rfl⟩ := List.mem_map.1 h
    rfl
  | size comparator v => rw [List.mem_singleton.1 h, ValueOrigin.index?]

theorem nodup_origins (index : Nat) (operand : Operand) : (operand.origins index).Nodup := by
  cases operand with
  | none => exact List.nodup_nil
  | single v => exact List.nodup_singleton _
  | pair low high => simp [origins]
  | list values =>
    refine (List.nodup_map_iff ?_).2 List.nodup_range'
    intro j k h
    cases h
    rfl
  | size comparator v => exact List.nodup_singleton _

/-- The values of one test have different tokens. -/
theorem nodup_tokens (p : Path) (index : Nat) (operand : Operand) :
    (operand.tokens p index).Nodup :=
  (List.nodup_map_iff fun _ _ h => ValueOrigin.token_inj h).2 (operand.nodup_origins index)

end Operand

/-! ## Tokens in a row -/

/-- The tokens of all operand values of some tests, numbered from `start` on. It is computed from
the tests alone, so which token a value gets is known before anything is compiled. -/
def operandTokens (start : Nat) : List Leaf → List String
  | [] => []
  | leaf :: leaves =>
    leaf.operand.tokens leaf.path start ++ operandTokens (start + 1) leaves

/-- Whether the change sends a value. -/
def Change.sends : Change → Bool
  | .remove => false
  | _ => true

/-- The tokens of the values of some actions, numbered from `k` on. -/
def actionTokens (k : Nat) : List Action → List String
  | [] => []
  | action :: actions =>
    (if action.change.sends then [action.token k] else []) ++ actionTokens (k + 1) actions

theorem exists_origin_of_mem_operandTokens {start : Nat} {leaves : List Leaf} {t : String}
    (h : t ∈ operandTokens start leaves) :
    ∃ o p i, o.index? = some i ∧ start ≤ i ∧ t = ValueOrigin.token o p := by
  induction leaves generalizing start with
  | nil => cases h
  | cons leaf leaves ih =>
    rcases List.mem_append.1 h with h | h
    · obtain ⟨o, ho, rfl⟩ := List.mem_map.1 h
      exact ⟨o, leaf.path, start, Operand.index?_of_mem_origins ho, le_rfl, rfl⟩
    · obtain ⟨o, p, i, hi, hle, rfl⟩ := ih h
      exact ⟨o, p, i, hi, by omega, rfl⟩

theorem exists_origin_of_mem_actionTokens {k : Nat} {actions : List Action} {t : String}
    (h : t ∈ actionTokens k actions) :
    ∃ j p, k ≤ j ∧ t = (ValueOrigin.action j).token p := by
  induction actions generalizing k with
  | nil => cases h
  | cons action actions ih =>
    rcases List.mem_append.1 h with h | h
    · split at h
      · exact ⟨k, action.path, le_rfl, List.mem_singleton.1 h⟩
      · cases h
    · obtain ⟨j, p, hle, rfl⟩ := ih h
      exact ⟨j, p, by omega, rfl⟩

theorem nodup_operandTokens (start : Nat) (leaves : List Leaf) :
    (operandTokens start leaves).Nodup := by
  induction leaves generalizing start with
  | nil => exact List.nodup_nil
  | cons leaf leaves ih =>
    refine List.nodup_append.2 ⟨Operand.nodup_tokens _ _ _, ih (start + 1), ?_⟩
    -- a token of this test and of a later one would have two numbers
    rintro t ht t' ht' rfl
    obtain ⟨o, ho, rfl⟩ := List.mem_map.1 ht
    obtain ⟨o', p, i, hi, hle, he⟩ := exists_origin_of_mem_operandTokens ht'
    rw [← ValueOrigin.token_inj he, Operand.index?_of_mem_origins ho] at hi
    cases hi
    omega

theorem nodup_actionTokens (k : Nat) (actions : List Action) :
    (actionTokens k actions).Nodup := by
  induction actions generalizing k with
  | nil => exact List.nodup_nil
  | cons action actions ih =>
    refine List.nodup_append.2 ⟨?_, ih (k + 1), ?_⟩
    -- an action sends one value at most
    · split
      · exact List.nodup_singleton _
      · exact List.nodup_nil
    · rintro t ht t' ht' rfl
      obtain ⟨j, p, hle, he⟩ := exists_origin_of_mem_actionTokens ht'
      split at ht
      · rw [List.mem_singleton.1 ht, Action.token] at he
        cases ValueOrigin.token_inj he
        omega
      · cases ht

/-- **No two values share a token**, whatever the paths are: neither two values of tests nor two
values of actions nor one of each. It is about lists of tokens that are asked for, and no table is
involved; that they are then free in the tables follows. -/
theorem nodup_operandTokens_append_actionTokens (start : Nat) (leaves : List Leaf)
    (actions : List Action) : (operandTokens start leaves ++ actionTokens 0 actions).Nodup := by
  refine List.nodup_append.2 ⟨nodup_operandTokens start leaves, nodup_actionTokens 0 actions, ?_⟩
  rintro t ht t' ht' rfl
  obtain ⟨o, p, i, hi, -, rfl⟩ := exists_origin_of_mem_operandTokens ht
  obtain ⟨j, p', -, he⟩ := exists_origin_of_mem_actionTokens ht'
  -- the origin would belong to a test and to an action
  rw [ValueOrigin.token_inj he] at hi
  cases hi

/-! ## Tables with known origins -/

namespace Bindings

/-- Every value token comes from one of the given origins. It does not say which values are bound,
only where their tokens come from. -/
def From (S : ValueOrigin → Prop) (b : Bindings) : Prop :=
  ∀ t ∈ keys b.values, ∃ o p, S o ∧ t = o.token p

theorem From.mono {S T : ValueOrigin → Prop} (hST : ∀ o, S o → T o) {b : Bindings}
    (h : b.From S) : b.From T := by
  intro t ht
  obtain ⟨o, p, ho, rfl⟩ := h t ht
  exact ⟨o, p, hST o ho, rfl⟩

theorem from_empty (S : ValueOrigin → Prop) : empty.From S := by
  intro t ht
  cases ht

/-- A value of another origin has a token that stands for nothing. -/
theorem From.get?_eq_none {S : ValueOrigin → Prop} {b : Bindings} (h : b.From S)
    {o : ValueOrigin} (ho : ¬ S o) (p : Path) : get? (o.token p) b.values = none := by
  rw [get?_eq_none_iff]
  intro hmem
  obtain ⟨o', p', ho', he⟩ := h _ hmem
  rw [ValueOrigin.token_inj he] at ho
  exact ho ho'

/-- Binding a token adds its origin. -/
theorem From.bindValue {S : ValueOrigin → Prop} {b b' : Bindings} (h : b.From S)
    {o : ValueOrigin} {p : Path} {d : Descriptor}
    (hb : b.bindValue (o.token p) d = .ok b') : b'.From fun o' => o' = o ∨ S o' := by
  intro t ht
  rcases (mem_keys_bindIn (bindValue_eq_ok hb).2).1 ht with rfl | ht
  · exact ⟨o, p, .inl rfl, rfl⟩
  · obtain ⟨o', p', ho', rfl⟩ := h t ht
    exact ⟨o', p', .inr ho', rfl⟩

/-- Tokens that are new and different end up with exactly what they were bound to. -/
theorem get?_bindValues {slots : List (String × Descriptor)} {b b' : Bindings}
    (hnodup : (keys slots).Nodup) (hfresh : ∀ t ∈ keys slots, get? t b.values = none)
    (h : bindValues slots b = .ok b') : ∀ s ∈ slots, get? s.1 b'.values = some s.2 := by
  induction slots generalizing b with
  | nil => simp
  | cons s slots ih =>
    obtain ⟨token, d⟩ := s
    obtain ⟨b₁, hfirst, hrest⟩ := bind_eq_ok.1 h
    obtain ⟨hnotin, hnodup⟩ := List.nodup_cons.1 hnodup
    rw [bindValue_of_get?_eq_none d (hfresh token (List.mem_cons_self ..))] at hfirst
    cases hfirst
    have hnow : get? token (insertSorted token d b.values) = some d :=
      get?_insertSorted_self _ _ _
    -- the other tokens are still free, since none of them is the one that was bound
    have hlater : ∀ t ∈ keys slots, get? t (insertSorted token d b.values) = none := by
      intro t ht
      have hne : t ≠ token := fun he => hnotin (he ▸ ht)
      rw [get?_insertSorted, if_neg hne]
      exact hfresh t (List.mem_cons_of_mem _ ht)
    intro s hs
    -- what is bound now stays bound to the end
    rcases List.mem_cons.1 hs with rfl | hs
    · exact (grows_bindValues hrest).values _ _ hnow
    · exact ih hnodup hlater hrest s hs

end Bindings

/-! ## Tests -/

/-- Every value of the test with the given number is bound to its own encoding. It is said of the
tables and the test alone, so it can be said of any later tables. -/
def Leaf.BoundIn (schema : Schema) (leaf : Leaf) (index : Nat) (b : Bindings) : Prop :=
  ∃ node ds, schema.resolve leaf.path = .ok node ∧
    List.Forall₂ (fun v d => (node.operandNode leaf.operator).encode v = .ok d)
      leaf.operand.values ds ∧
    List.Forall₂ (fun token d => get? token b.values = some d)
      (leaf.operand.tokens leaf.path index) ds

theorem Leaf.BoundIn.grows {schema : Schema} {leaf : Leaf} {index : Nat} {b b' : Bindings}
    (h : leaf.BoundIn schema index b) (hb : Bindings.Grows b b') :
    leaf.BoundIn schema index b' := by
  obtain ⟨node, ds, hnode, hds, hbound⟩ := h
  exact ⟨node, ds, hnode, hds, hbound.imp fun token d hd => hb.values token d hd⟩

namespace CompiledTest

variable {schema : Schema} {leaf : Leaf} {progress progress' : Progress} {node : Schema}
  {values : List Descriptor} {text : String}

/-- A test adds its own number to the origins. -/
theorem from_before (h : CompiledTest schema leaf progress node values text progress')
    (hb : progress.bindings.From (ValueOrigin.Before progress.position)) :
    progress'.bindings.From (ValueOrigin.Before progress'.position) := by
  rw [h.position]
  intro t ht
  rcases h.mem_keys_values.1 ht with ht | ht
  · obtain ⟨o, ho, rfl⟩ := List.mem_map.1 ht
    exact ⟨o, leaf.path, ValueOrigin.before_succ (Operand.index?_of_mem_origins ho), rfl⟩
  · obtain ⟨o, p, ho, rfl⟩ := hb t ht
    exact ⟨o, p, ho.mono (by omega), rfl⟩

/-- The values of a test are bound as they are encoded. -/
theorem get?_tokens (h : CompiledTest schema leaf progress node values text progress')
    (hb : progress.bindings.From (ValueOrigin.Before progress.position)) :
    List.Forall₂ (fun token d => get? token progress'.bindings.values = some d)
      (leaf.tokens progress) values := by
  have hkeys : keys ((leaf.tokens progress).zip values) = leaf.tokens progress :=
    List.map_fst_zip (Nat.le_of_eq h.length_tokens)
  have hnodup : (keys ((leaf.tokens progress).zip values)).Nodup := by
    rw [hkeys]
    exact Operand.nodup_tokens _ _ _
  have hfresh : ∀ t ∈ keys ((leaf.tokens progress).zip values),
      get? t progress.bindings.values = none := by
    rw [hkeys]
    intro t ht
    obtain ⟨o, ho, rfl⟩ := List.mem_map.1 ht
    exact hb.get?_eq_none (ValueOrigin.not_before (Operand.index?_of_mem_origins ho)) _
  -- the names that were bound in between do not matter for the values
  have hbound := get?_bindValues hnodup (by exact hfresh) h.bind
  refine List.forall₂_iff_zip.2 ⟨h.length_tokens, ?_⟩
  intro token d hmem
  exact hbound (token, d) hmem

theorem boundIn (h : CompiledTest schema leaf progress node values text progress')
    (hb : progress.bindings.From (ValueOrigin.Before progress.position)) :
    leaf.BoundIn schema progress.position progress'.bindings :=
  ⟨node, values, h.resolve, h.encode, h.get?_tokens hb⟩

end CompiledTest

/-- Tests in a row add origins with their own numbers and no others. -/
theorem from_compileLeaves_of {S : ValueOrigin → Prop} {ls : List (Schema × Leaf)}
    {p p' : Progress} {texts : List String} (h : compileLeaves ls p = .ok (texts, p'))
    (hb : p.bindings.From S)
    (hown : ∀ o i, o.index? = some i → p.position ≤ i → i < p'.position → S o) :
    p'.bindings.From S := by
  induction ls generalizing p texts with
  | nil =>
    cases h
    exact hb
  | cons l ls ih =>
    obtain ⟨schema, leaf⟩ := l
    obtain ⟨p₁, text, rest, node, values, rfl, hleaf, hrest⟩ := compileLeaves_cons_eq_ok h
    have hfirst := hleaf.position
    have hlast := position_compileLeaves hrest
    refine ih hrest ?_ fun o i hi hle hlt => hown o i hi (by omega) hlt
    intro t ht
    rcases hleaf.mem_keys_values.1 ht with ht | ht
    · obtain ⟨o, ho, rfl⟩ := List.mem_map.1 ht
      exact ⟨o, leaf.path,
        hown o p.position (Operand.index?_of_mem_origins ho) (Nat.le_refl _) (by omega), rfl⟩
    · exact hb t ht

/-- **Tests in a row** keep the invariant of the count. With it the next test of the run finds all
of its tokens free. -/
theorem from_compileLeaves {ls : List (Schema × Leaf)} {p p' : Progress} {texts : List String}
    (h : compileLeaves ls p = .ok (texts, p'))
    (hb : p.bindings.From (ValueOrigin.Before p.position)) :
    p'.bindings.From (ValueOrigin.Before p'.position) := by
  have hle : p.position ≤ p'.position := by
    rw [position_compileLeaves h]
    exact Nat.le_add_right _ _
  refine from_compileLeaves_of h (hb.mono fun o ho => ho.mono hle) ?_
  intro o i hi _ hlt j hj
  rw [hi] at hj
  cases hj
  exact hlt

/-- Each of several tests in a row is bound under the number it has in the row. -/
theorem boundIn_compileLeaves {ls : List (Schema × Leaf)} {p p' : Progress}
    {texts : List String} (h : compileLeaves ls p = .ok (texts, p'))
    (hb : p.bindings.From (ValueOrigin.Before p.position)) {j : Nat} {schema : Schema}
    {leaf : Leaf} (hj : ls[j]? = some (schema, leaf)) :
    leaf.BoundIn schema (p.position + j) p'.bindings := by
  induction ls generalizing p texts j with
  | nil => cases hj
  | cons l ls ih =>
    obtain ⟨schema₁, leaf₁⟩ := l
    obtain ⟨p₁, text, rest, node, values, rfl, hleaf, hrest⟩ := compileLeaves_cons_eq_ok h
    -- the head is the test with the count as it stands, the others are counted from one more
    cases j with
    | zero =>
      cases hj
      exact (hleaf.boundIn hb).grows (grows_compileLeaves hrest)
    | succ j =>
      have hbound := ih hrest (hleaf.from_before hb) hj
      have hposition : p₁.position + j = p.position + (j + 1) := by
        rw [hleaf.position]
        omega
      rw [hposition] at hbound
      exact hbound

/-! ## Actions -/

/-- The value of the `k`-th action, if it sends one, is bound to its own encoding. -/
def Action.BoundIn (schema : Schema) (action : Action) (k : Nat) (b : Bindings) : Prop :=
  ∃ node, schema.resolve action.path = .ok node ∧
    ∀ encoded, action.change.sent? action.path node = some encoded →
      ∃ d, encoded = .ok d ∧ get? (action.token k) b.values = some d

theorem Action.BoundIn.grows {schema : Schema} {action : Action} {k : Nat} {b b' : Bindings}
    (h : action.BoundIn schema k b) (hb : Bindings.Grows b b') : action.BoundIn schema k b' := by
  obtain ⟨node, hnode, hsent⟩ := h
  refine ⟨node, hnode, fun encoded he => ?_⟩
  obtain ⟨d, hd, hbound⟩ := hsent encoded he
  exact ⟨d, hd, hb.values _ _ hbound⟩

namespace AddedAction

variable {k : Nat} {action : Action} {node : Schema} {clauses clauses' : UpdateClauses}

/-- An action takes no binding away. -/
theorem grows (h : AddedAction k action node clauses clauses') :
    Bindings.Grows clauses.bindings clauses'.bindings := by
  have hpath : Bindings.Grows clauses.bindings (clauses.withPath action) :=
    grows_bindPath clauses.bindings action.path ""
  cases h with
  | assigned _ hbind => exact hpath.trans (grows_bindValue hbind)
  | removed _ => exact hpath

/-- An action adds its own number to the origins. -/
theorem from_actionBefore (h : AddedAction k action node clauses clauses')
    (hb : clauses.bindings.From (ValueOrigin.ActionBefore k)) :
    clauses'.bindings.From (ValueOrigin.ActionBefore (k + 1)) := by
  have hlater : ∀ o, ValueOrigin.ActionBefore k o → ValueOrigin.ActionBefore (k + 1) o := by
    rintro o ⟨j, hj, rfl⟩
    exact ⟨j, by omega, rfl⟩
  -- binding the path adds names only
  have hpath : (clauses.withPath action).From (ValueOrigin.ActionBefore k) := hb
  cases h with
  | assigned _ hbind =>
    refine (hpath.bindValue hbind).mono ?_
    rintro o (rfl | ho)
    · exact ⟨k, by omega, rfl⟩
    · exact hlater o ho
  | removed _ => exact hpath.mono hlater

theorem boundIn {schema : Schema} (hnode : schema.resolve action.path = .ok node)
    (h : AddedAction k action node clauses clauses')
    (hb : clauses.bindings.From (ValueOrigin.ActionBefore k)) :
    action.BoundIn schema k clauses'.bindings := by
  refine ⟨node, hnode, fun encoded he => ?_⟩
  have hpath : (clauses.withPath action).From (ValueOrigin.ActionBefore k) := hb
  cases h with
  | @assigned d b hsent hbind =>
    rw [hsent] at he
    cases he
    have hnone : get? (action.token k) (clauses.withPath action).values = none := by
      refine hpath.get?_eq_none ?_ action.path
      rintro ⟨j, hj, he⟩
      cases he
      omega
    rw [bindValue_of_get?_eq_none d hnone] at hbind
    cases hbind
    exact ⟨d, rfl, get?_insertSorted_self _ _ _⟩
  | removed hc =>
    rw [hc] at he
    cases he

end AddedAction

/-- Actions in a row keep the invariant, and each is bound under its number. -/
theorem boundIn_addAll {schema : Schema} {actions : List Action} {k : Nat} {seen : List Path}
    {clauses clauses' : UpdateClauses}
    (h : clauses.addAll schema k seen actions = .ok clauses')
    (hb : clauses.bindings.From (ValueOrigin.ActionBefore k)) :
    Bindings.Grows clauses.bindings clauses'.bindings ∧
      clauses'.bindings.From (ValueOrigin.ActionBefore (k + actions.length)) ∧
      ∀ (j : Nat) (action : Action), actions[j]? = some action →
        action.BoundIn schema (k + j) clauses'.bindings := by
  -- three things at once, because each action is bound by a step and kept by all later ones
  induction actions generalizing k seen clauses with
  | nil =>
    cases h
    exact ⟨.refl _, hb, fun j action hj => by cases hj⟩
  | cons action actions ih =>
    obtain ⟨clauses₁, hfirst, hrest⟩ := bind_eq_ok.1 h
    obtain ⟨node, hnode, hadded⟩ := UpdateClauses.add_eq_ok hfirst
    obtain ⟨hgrows, hfrom, hbound⟩ := ih hrest (hadded.from_actionBefore hb)
    refine ⟨hadded.grows.trans hgrows, ?_, fun j action' hj => ?_⟩
    · rw [List.length_cons, Nat.add_comm actions.length 1, ← Nat.add_assoc]
      exact hfrom
    · cases j with
      | zero =>
        cases hj
        exact (hadded.boundIn hnode hb).grows hgrows
      | succ j =>
        have := hbound j action' hj
        rw [Nat.add_assoc, Nat.add_comm 1 j] at this
        exact this

/-- **An update** binds the value of each of its actions and nothing else. The number of an action
is its place among all actions, removals included. -/
theorem boundIn_compileUpdate {schema : Schema} {actions : List Action} {update : Compiled}
    (h : compileUpdate schema actions = .ok update) :
    update.bindings.From (ValueOrigin.ActionBefore actions.length) ∧
      ∀ (k : Nat) (action : Action), actions[k]? = some action →
        action.BoundIn schema k update.bindings := by
  obtain ⟨clauses, hclauses, rfl⟩ := compileUpdate_eq_ok h
  obtain ⟨-, hfrom, hbound⟩ := boundIn_addAll hclauses (from_empty _)
  rw [Nat.zero_add] at hfrom
  refine ⟨hfrom, fun k action hk => ?_⟩
  have hb := hbound k action hk
  rw [Nat.zero_add] at hb
  exact hb

end ItemStore
