import ItemStore.Proofs.Expression.Conflict

/-
Which conditions compile, and what is wrong with the others.

A condition is looked at node by node, a group before what is under it and everything from
left to right. What is wrong with a node can be told without its neighbours: a group is
empty, a path leads nowhere, an operand does not fit. Compiling does nothing but meet the
first of these faults. The one thing that could come between is a conflict over a token,
which depends on everything compiled before; since conflicts are ruled out separately, the
proofs here let them pass (`FailsBy`) and carry no invariant of the tables at all.

The errors are those of `compile`, in the order in which `render` and `render_comparison` meet
them.
-/
set_option autoImplicit false

namespace ItemStore

open Entries Bindings

/-! ## Failing by an expected fault -/

section Faults

variable {α β : Type}

/-- The computation meets the expected fault if there is one and succeeds if there is none, unless
a conflict of tokens ends it. What is expected does not depend on the tables, and a conflict does;
that is why the conflict is let pass here and excluded elsewhere. -/
def FailsBy (expected : Option Error) : Except Error α → Prop
  | .ok _ => expected = none
  | .error e => expected = some e ∨ e.IsConflict

theorem failsBy_fault? (x : Except Error α) : FailsBy (fault? x) x := by
  cases x with
  | ok a => rfl
  | error e => exact .inl rfl

/-- In a sequence the fault of the first step comes first. -/
theorem FailsBy.bind {first second : Option Error} {x : Except Error α}
    {f : α → Except Error β} (hx : FailsBy first x)
    (hf : ∀ a, x = .ok a → FailsBy second (f a)) : FailsBy (first.or second) (x >>= f) := by
  cases x with
  | ok a =>
    have hnone : first = none := hx
    rw [hnone, Option.none_or]
    exact hf a rfl
  | error e =>
    rcases hx with he | he
    · rw [he]
      exact .inl rfl
    · exact .inr he

/-- What is done with a result at the end changes nothing. -/
theorem FailsBy.andThen {expected : Option Error} {x : Except Error α} {f : α → β}
    (hx : FailsBy expected x) : FailsBy expected (x >>= fun a => .ok (f a)) := by
  have h : FailsBy (expected.or none) (x >>= fun a => .ok (f a)) := hx.bind fun a _ => rfl
  rw [Option.or_none] at h
  exact h

/-- Without conflicts the fault that is met is the expected one. -/
theorem FailsBy.fault?_eq {expected : Option Error} {x : Except Error α}
    (hx : FailsBy expected x) (havoids : Avoids Error.IsConflict x) : fault? x = expected := by
  cases x with
  | ok a => exact Eq.symm hx
  | error e =>
    rcases hx with he | he
    · rw [he]
      rfl
    · exact absurd he (havoids e rfl)

end Faults

/-! ## Operands that fit -/

/-- The operands that an operator takes at an attribute with the given node. It is a relation with
one case for each kind of operand that goes with an operator and says nothing about order or
errors. -/
inductive Fits (node : Schema) : Operator → Operand → Prop where
  | comparison {operator : Operator} {v : Value} {d : Descriptor}
      (hoperator : operator.isComparator = true) (h : node.encode v = .ok d) :
      Fits node operator (.single v)
  | beginsWith {v : Value} {d : Descriptor} (h : node.encode v = .ok d) :
      Fits node .beginsWith (.single v)
  | contains {v : Value} {d : Descriptor} (h : node.memberNode.encode v = .ok d) :
      Fits node .contains (.single v)
  | hasType (tag : Tag) : Fits node .hasType (.single (.string tag.text))
  | between {low high : Value} {d d' : Descriptor} (hlow : node.encode low = .ok d)
      (hhigh : node.encode high = .ok d') : Fits node .between (.pair low high)
  | isIn {values : List Value} (hne : values ≠ [])
      (h : ∀ v ∈ values, ∃ d, node.encode v = .ok d) : Fits node .isIn (.list values)
  | size {comparator : Operator} {v : Value} {d : Descriptor}
      (hcomparator : comparator.isComparator = true)
      (h : (Schema.ofKind .number).encode v = .ok d) : Fits node .size (.size comparator v)
  | present : Fits node .exists .none
  | absent : Fits node .notExists .none

/-- The form of the operand that an operator goes with; a test of presence has none. -/
def Operator.form? : Operator → Option OperandForm
  | .eq | .ne | .lt | .le | .gt | .ge | .beginsWith | .contains | .hasType => some .single
  | .between => some .pair
  | .isIn => some .list
  | .size => some .size
  | .exists | .notExists => none

/-- The first value that cannot be encoded, by its fault. -/
def valueOffence? (node : Schema) (values : List Value) : Option Error :=
  values.findSome? fun v => fault? (node.encode v)

/-- What is wrong with an operand of the right form: what its operator asks for in particular,
then its values from left to right. -/
def contentOffence? (node : Schema) : Operator → Operand → Option Error
  | .hasType, .single v =>
    if v.tag?.isSome then none else some (.invalidCondition (.notATag v.summary))
  | .isIn, .list [] => some (.invalidCondition .noCandidates)
  | .size, .size comparator v =>
    if comparator.isComparator then valueOffence? (.ofKind .number) [v]
    else some (operandError .size (.size comparator v))
  | operator, operand => valueOffence? (node.operandNode operator) operand.values

/-- What is wrong with an operand, its form before anything else. Together with `Fits` it
describes an operand twice, once by what is right and once by what is told to be wrong, and
`operandOffence?_eq_none_iff` holds the two against each other. -/
def operandOffence? (node : Schema) (operator : Operator) (operand : Operand) : Option Error :=
  if operand.form? = operator.form? then contentOffence? node operator operand
  else some (operandError operator operand)

theorem valueOffence?_cons (node : Schema) (v : Value) (values : List Value) :
    valueOffence? node (v :: values) =
      (fault? (node.encode v)).or (valueOffence? node values) := by
  rw [valueOffence?, List.findSome?_cons]
  cases fault? (node.encode v) <;> rfl

theorem valueOffence?_singleton (node : Schema) (v : Value) :
    valueOffence? node [v] = fault? (node.encode v) := by
  rw [valueOffence?_cons]
  exact Option.or_none

theorem valueOffence?_eq_none_iff {node : Schema} {values : List Value} :
    valueOffence? node values = none ↔ ∀ v ∈ values, ∃ d, node.encode v = .ok d := by
  rw [valueOffence?, List.findSome?_eq_none_iff]
  exact forall₂_congr fun v _ => fault?_eq_none_iff

/-- The values that spell a tag are the texts of the tags. -/
theorem tag?_isSome_iff {v : Value} : v.tag?.isSome = true ↔ ∃ tag : Tag, v = .string tag.text := by
  constructor
  · intro h
    obtain ⟨tag, htag⟩ := Option.isSome_iff_exists.1 h
    have hencode := encode_ofKind_string_of_tag? htag
    -- only a string is encoded as a string
    cases v with
    | string s =>
      cases hencode
      exact ⟨tag, rfl⟩
    | _ => cases htag
  · rintro ⟨tag, rfl⟩
    exact Option.isSome_iff_exists.2 ⟨tag, Tag.ofText?_text tag⟩

/-- What fits has the form that goes with the operator. -/
theorem Fits.form?_eq {node : Schema} {operator : Operator} {operand : Operand}
    (h : Fits node operator operand) : operand.form? = operator.form? := by
  cases h with
  | comparison hoperator => cases operator <;> first | rfl | cases hoperator
  | _ => rfl

/-- An operand of the right form without a fault fits. -/
theorem fits_of_contentOffence?_eq_none {node : Schema} {operator : Operator} {operand : Operand}
    (hform : operand.form? = operator.form?) (h : contentOffence? node operator operand = none) :
    Fits node operator operand := by
  cases operand with
  | none =>
    cases operator with
    | «exists» => exact .present
    | notExists => exact .absent
    | _ => cases hform
  | single v =>
    have hencode : ∀ node' : Schema, valueOffence? node' [v] = none →
        ∃ d, node'.encode v = .ok d :=
      fun node' hnone => valueOffence?_eq_none_iff.1 hnone v (List.mem_singleton_self v)
    cases operator with
    | eq | ne | lt | le | gt | ge =>
      obtain ⟨d, hd⟩ := hencode node h
      exact .comparison rfl hd
    | beginsWith =>
      obtain ⟨d, hd⟩ := hencode node h
      exact .beginsWith hd
    | contains =>
      obtain ⟨d, hd⟩ := hencode node.memberNode h
      exact .contains hd
    | hasType =>
      rw [contentOffence?] at h
      split at h
      · next htag =>
        obtain ⟨tag, rfl⟩ := tag?_isSome_iff.1 htag
        exact .hasType tag
      · cases h
    | _ => cases hform
  | pair low high =>
    cases operator with
    | between =>
      have hboth := valueOffence?_eq_none_iff.1 h
      obtain ⟨d, hd⟩ := hboth low (by simp [Operand.values])
      obtain ⟨d', hd'⟩ := hboth high (by simp [Operand.values])
      exact .between hd hd'
    | _ => cases hform
  | list values =>
    cases operator with
    | isIn =>
      cases values with
      | nil => cases h
      | cons v values => exact .isIn (List.cons_ne_nil v values) (valueOffence?_eq_none_iff.1 h)
    | _ => cases hform
  | size comparator v =>
    cases operator with
    | size =>
      rw [contentOffence?] at h
      split at h
      · next hcomparator =>
        obtain ⟨d, hd⟩ := valueOffence?_eq_none_iff.1 h v (List.mem_singleton_self v)
        exact .size hcomparator hd
      · cases h
    | _ => cases hform

/-- An operand that fits has no fault. -/
theorem Fits.contentOffence?_eq_none {node : Schema} {operator : Operator} {operand : Operand}
    (h : Fits node operator operand) : contentOffence? node operator operand = none := by
  cases h with
  | @comparison _ v d hoperator hd =>
    have hnone : valueOffence? node [v] = none := by
      rw [valueOffence?_singleton, hd]
      rfl
    cases operator <;> first | exact hnone | cases hoperator
  | beginsWith hd | contains hd =>
    refine valueOffence?_eq_none_iff.2 fun v hv => ?_
    rw [List.mem_singleton.1 hv]
    exact ⟨_, hd⟩
  | hasType tag => exact if_pos (tag?_isSome_iff.2 ⟨tag, rfl⟩)
  | between hlow hhigh =>
    refine valueOffence?_eq_none_iff.2 fun v hv => ?_
    rcases List.mem_pair.1 hv with rfl | rfl
    · exact ⟨_, hlow⟩
    · exact ⟨_, hhigh⟩
  | @isIn values hne hall =>
    cases values with
    | nil => exact absurd rfl hne
    | cons v values => exact valueOffence?_eq_none_iff.2 hall
  | size hcomparator hd =>
    rw [contentOffence?, if_pos hcomparator, valueOffence?_singleton, hd]
    rfl
  | present => rfl
  | absent => rfl

/-- **An operand without a fault fits**, and one that fits has no fault. It is what keeps the two
descriptions of an operand from drifting apart. -/
theorem operandOffence?_eq_none_iff {node : Schema} {operator : Operator} {operand : Operand} :
    operandOffence? node operator operand = none ↔ Fits node operator operand := by
  rw [operandOffence?]
  constructor
  · intro h
    split at h
    · next hform => exact fits_of_contentOffence?_eq_none hform h
    · cases h
  · intro h
    rw [if_pos h.form?_eq]
    exact h.contentOffence?_eq_none

/-! ## One test -/

/-- Binding a value has no fault of its own. -/
theorem failsBy_bindValue (b : Bindings) (token : String) (d : Descriptor) :
    FailsBy none (b.bindValue token d) := by
  unfold bindValue bindIn
  split
  · split
    · rfl
    · exact .inr trivial
  · rfl

namespace TestSite

theorem failsBy_bind (site : TestSite) (suffix : String) (d : Descriptor) (b : Bindings) :
    FailsBy none (site.bind suffix d b) := (failsBy_bindValue b _ d).andThen

theorem failsBy_bindEncoded (site : TestSite) (node : Schema) (suffix : String) (v : Value)
    (b : Bindings) : FailsBy (fault? (node.encode v)) (site.bindEncoded node suffix v b) := by
  have h := (failsBy_fault? (node.encode v)).bind fun d _ => site.failsBy_bind suffix d b
  rw [Option.or_none] at h
  exact h

/-- Of several values the first one that cannot be encoded is met. -/
theorem failsBy_bindAll (site : TestSite) (node : Schema) (values : List Value) (k : Nat)
    (b : Bindings) : FailsBy (valueOffence? node values) (site.bindAll node k values b) := by
  induction values generalizing k b with
  | nil => rfl
  | cons v values ih =>
    rw [valueOffence?_cons]
    exact (site.failsBy_bindEncoded node _ v b).bind fun bound _ => (ih (k + 1) bound.2).andThen

end TestSite

/-- An operator with an operand of another form is refused for that. -/
theorem renderTest_of_form_ne {operator : Operator} {operand : Operand}
    (h : operand.form? ≠ operator.form?) (site : TestSite) (name : String) (node : Schema)
    (b : Bindings) :
    renderTest site name node operator operand b = .error (operandError operator operand) := by
  cases operand <;> cases operator <;> first | exact absurd rfl h | rfl

theorem failsBy_renderSingle (site : TestSite) (name : String) (node : Schema)
    {operator : Operator} (hform : operator.form? = some .single) (v : Value) (b : Bindings) :
    FailsBy (contentOffence? node operator (.single v))
      (renderSingle site name node operator v b) := by
  cases operator with
  | eq | ne | lt | le | gt | ge | beginsWith =>
    show FailsBy (valueOffence? node [v]) _
    rw [valueOffence?_singleton]
    exact (site.failsBy_bindEncoded node _ v b).andThen
  | contains =>
    show FailsBy (valueOffence? node.memberNode [v]) _
    rw [valueOffence?_singleton]
    exact (site.failsBy_bindEncoded node.memberNode _ v b).andThen
  | hasType =>
    -- the operand is looked at as the name of a type and never encoded
    cases htag : v.tag? with
    | none =>
      simp only [renderSingle, contentOffence?, htag]
      exact .inl rfl
    | some tag =>
      simp only [renderSingle, contentOffence?, htag]
      exact (site.failsBy_bind site.suffix _ b).andThen
  | _ => cases hform

/-- Writing a test whose operand has the right form meets what else is wrong with it. -/
theorem failsBy_renderTest_of_form_eq {operator : Operator} {operand : Operand}
    (hform : operand.form? = operator.form?) (site : TestSite) (name : String) (node : Schema)
    (b : Bindings) :
    FailsBy (contentOffence? node operator operand)
      (renderTest site name node operator operand b) := by
  cases operand with
  | none =>
    cases operator with
    | «exists» | notExists => exact rfl
    | _ => cases hform
  | single v =>
    rw [renderTest_single]
    exact failsBy_renderSingle site name node hform.symm v b
  | pair low high =>
    cases operator with
    | between =>
      show FailsBy (valueOffence? node [low, high]) _
      rw [valueOffence?_cons, valueOffence?_singleton]
      exact (site.failsBy_bindEncoded node _ low b).bind fun bound _ =>
        (site.failsBy_bindEncoded node _ high bound.2).andThen
    | _ => cases hform
  | list values =>
    cases operator with
    | isIn =>
      cases values with
      | nil => exact .inl rfl
      | cons v values => exact (site.failsBy_bindAll node (v :: values) 0 b).andThen
    | _ => cases hform
  | size comparator v =>
    cases operator with
    | size =>
      rw [contentOffence?, renderTest]
      by_cases hcomparator : comparator.isComparator = true
      · rw [if_pos hcomparator, if_pos hcomparator, valueOffence?_singleton]
        exact (site.failsBy_bindEncoded (.ofKind .number) _ v b).andThen
      · rw [if_neg hcomparator, if_neg hcomparator]
        exact .inl rfl
    | _ => cases hform

/-- **One operand.** Writing a test meets what is wrong with its operand. -/
theorem failsBy_renderTest (site : TestSite) (name : String) (node : Schema)
    (operator : Operator) (operand : Operand) (b : Bindings) :
    FailsBy (operandOffence? node operator operand)
      (renderTest site name node operator operand b) := by
  rw [operandOffence?]
  by_cases hform : operand.form? = operator.form?
  · rw [if_pos hform]
    exact failsBy_renderTest_of_form_eq hform site name node b
  · rw [if_neg hform, renderTest_of_form_ne hform]
    exact .inl rfl

/-! ## Nodes of a condition -/

namespace Condition

mutual

/-- The condition and everything under it, a group before its members. -/
def nodes : Condition → List Condition
  | test path operator operand => [test path operator operand]
  | group connective conditions => group connective conditions :: nodesOfAll conditions

/-- The nodes of several conditions. -/
def nodesOfAll : List Condition → List Condition
  | [] => []
  | c :: cs => c.nodes ++ nodesOfAll cs

end

/-- Whether a node is in order by itself: a group has members, and a test has a path that leads
somewhere and an operand that fits there. It is about one node; what is under a group is looked at
by itself. -/
def IsSound (schema : Schema) : Condition → Prop
  | test path operator operand =>
    ∃ node, schema.resolve path = .ok node ∧ Fits node operator operand
  | group _ conditions => conditions ≠ []

/-- What is wrong with a node by itself; a path that leads nowhere counts before the
operand. -/
def offence? (schema : Schema) : Condition → Option Error
  | test path operator operand =>
    match schema.resolve path with
    | .ok node => operandOffence? node operator operand
    | .error e => some e
  | group connective conditions =>
    if conditions.isEmpty then some (.invalidCondition (.noConditions connective)) else none

/-- Every node is in order. The order in which nodes are looked at does not matter here, only in
`firstOffence?`. -/
def WellFormed (schema : Schema) (c : Condition) : Prop := ∀ n ∈ c.nodes, n.IsSound schema

/-- What is wrong with the first node that is not in order. -/
def firstOffence? (schema : Schema) (c : Condition) : Option Error :=
  c.nodes.findSome? (offence? schema)

theorem offence?_eq_none_iff {schema : Schema} {c : Condition} :
    c.offence? schema = none ↔ c.IsSound schema := by
  cases c with
  | test path operator operand =>
    rw [offence?, IsSound]
    cases hnode : schema.resolve path with
    | ok node => simp [operandOffence?_eq_none_iff]
    | error e => simp
  | group connective conditions =>
    rw [offence?, IsSound]
    cases conditions with
    | nil => simp
    | cons c cs => simp

/-- A condition without a first fault is in order throughout. -/
theorem firstOffence?_eq_none_iff {schema : Schema} {c : Condition} :
    c.firstOffence? schema = none ↔ c.WellFormed schema := by
  rw [firstOffence?, List.findSome?_eq_none_iff, WellFormed]
  exact forall₂_congr fun n _ => offence?_eq_none_iff

theorem failsBy_compileTest (schema : Schema) (path : Path) (operator : Operator)
    (operand : Operand) (progress : Progress) :
    FailsBy ((test path operator operand).offence? schema)
      (compileTest schema path operator operand progress) := by
  rw [offence?, compileTest]
  cases hnode : schema.resolve path with
  | ok node => exact (failsBy_renderTest _ _ node operator operand _).andThen
  | error e => exact .inl rfl

mutual

/-- **Left to right.** Compiling meets the first node that is not in order. It holds in any
tables, also in some that make a conflict possible. -/
theorem failsBy_compile {schema : Schema} (c : Condition) (progress : Progress) :
    FailsBy (c.firstOffence? schema) (c.compile schema progress) := by
  cases c with
  | test path operator operand =>
    rw [firstOffence?, nodes, List.findSome?_singleton, compile]
    exact failsBy_compileTest schema path operator operand progress
  | group connective conditions =>
    rw [firstOffence?, nodes, List.findSome?_cons, offence?, compile]
    -- an empty group is met before anything under it would be
    by_cases hempty : conditions.isEmpty = true
    · rw [if_pos hempty, if_pos hempty]
      exact .inl rfl
    · rw [if_neg hempty, if_neg hempty]
      exact (failsBy_compileAll conditions progress).andThen

theorem failsBy_compileAll {schema : Schema} (cs : List Condition) (progress : Progress) :
    FailsBy ((nodesOfAll cs).findSome? (offence? schema)) (compileAll schema cs progress) := by
  cases cs with
  | nil => rfl
  | cons c cs =>
    rw [nodesOfAll, List.findSome?_append, compileAll]
    exact (failsBy_compile c progress).bind fun r _ => (failsBy_compileAll cs r.2).andThen

end

/-- Where no test of the same number has bound a token before, the fault of a condition is the
first one of its nodes. -/
theorem fault?_compile {schema : Schema} {progress : Progress} (c : Condition)
    (hb : progress.bindings.From (ValueOrigin.Before progress.position)) :
    fault? (c.compile schema progress) = c.firstOffence? schema :=
  (failsBy_compile c progress).fault?_eq (c.avoids_compile hb)

theorem exists_compile_of_wellFormed {schema : Schema} {progress : Progress} {c : Condition}
    (hb : progress.bindings.From (ValueOrigin.Before progress.position))
    (h : c.WellFormed schema) : ∃ r, c.compile schema progress = .ok r := by
  rw [← fault?_eq_none_iff, fault?_compile c hb]
  exact firstOffence?_eq_none_iff.2 h

/-- A test for itself is in order if its operand fits. -/
theorem wellFormed_test {schema node : Schema} {path : Path} {operator : Operator}
    {operand : Operand} (hnode : schema.resolve path = .ok node)
    (hfits : Fits node operator operand) : (test path operator operand).WellFormed schema := by
  intro n hn
  rw [nodes, List.mem_singleton] at hn
  rw [hn]
  exact ⟨node, hnode, hfits⟩

/-- Compiling a condition for itself fails as compiling it at the start does. -/
theorem fault?_compileAlone (schema : Schema) (c : Condition) :
    fault? (c.compileAlone schema) = c.firstOffence? schema := by
  -- nothing is bound at the start, so no token is taken
  have hstart : fault? (c.compile schema .start) = c.firstOffence? schema :=
    fault?_compile c (from_empty _)
  rw [← hstart, compileAlone, compileFrom, Progress.start]
  cases c.compile schema { position := 0, bindings := .empty } with
  | ok r => rfl
  | error e => rfl

/-- **What compiles.** A condition compiles for itself exactly when every group has members and
every test has a path that leads somewhere and an operand that fits there; otherwise the error is
that of the first node for which this fails, a group before its members and from left to right. It
has no hypothesis: every schema and every condition is covered, also one that no builder would
make. The second part is an equivalence too, so no other error is possible, and with the first
part none is left open. -/
theorem compiles_iff_wellFormed (schema : Schema) (c : Condition) :
    ((∃ compiled, c.compileAlone schema = .ok compiled) ↔ c.WellFormed schema) ∧
      ∀ e, c.compileAlone schema = .error e ↔ c.firstOffence? schema = some e := by
  rw [← firstOffence?_eq_none_iff, ← fault?_compileAlone]
  exact ⟨fault?_eq_none_iff.symm, fun e => fault?_eq_some_iff.symm⟩

end Condition

end ItemStore
