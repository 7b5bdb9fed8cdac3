import ItemStore.Expression.Projection
import ItemStore.Proofs.Expression.Fresh

/-
No compilation ends in a conflict.

There is a single place where a token can be found to stand for something else, the
binding of a value. Everything around it fails for reasons of its own, which is seen by
going through it step by step; at the place itself the token is new, by the invariant on
origins. So conflicts are ruled out not by the values that happen to be compared, but by
the tokens that are asked for.
-/
set_option autoImplicit false

namespace ItemStore

open Entries Bindings

/-- A token was to stand for two different things. It is the only error that depends on the
tables, which is why it is treated apart from all others. -/
def Error.IsConflict : Error → Prop
  | .placeholderConflict _ => True
  | _ => False

/-! ## Encoding -/

theorem avoids_encodeNumber (path : String) (x : Float) :
    Avoids Error.IsConflict (encodeNumber path x) := by
  unfold encodeNumber
  split
  · exact .ok _ _
  · exact .error id

theorem avoids_encodeDate (path : String) (v : Value) :
    Avoids Error.IsConflict (encodeDate path v) := by
  unfold encodeDate
  split
  · exact .ok _ _
  · split
    · exact .ok _ _
    · exact .error id
  · exact .error id

theorem avoids_encodeItems {α : Type} {encode : String → Value → Except Error α}
    (h : ∀ path v, Avoids Error.IsConflict (encode path v)) (path : String) (index : Nat)
    (vs : List Value) : Avoids Error.IsConflict (encodeItems encode path index vs) := by
  induction vs generalizing index with
  | nil => exact .ok _ _
  | cons v vs ih =>
    exact (h _ v).bind fun first _ => (ih (index + 1)).bind fun rest _ => .ok _ _

theorem ScalarKind.avoids_encode (kind : ScalarKind) (path : String) (v : Value) :
    Avoids Error.IsConflict (kind.encode path v) := by
  unfold ScalarKind.encode
  split
  · exact .ok _ _
  · exact (avoids_encodeNumber _ _).map _
  · exact .ok _ _
  · exact (avoids_encodeDate _ _).map _
  · exact .ok _ _
  · exact .error id

namespace SetKind

theorem avoids_stringMember (path : String) (v : Value) :
    Avoids Error.IsConflict (stringMember path v) := by
  unfold stringMember
  split
  · exact .ok _ _
  · exact .error id

theorem avoids_numberMember (path : String) (v : Value) :
    Avoids Error.IsConflict (numberMember path v) := by
  unfold numberMember
  split
  · exact avoids_encodeNumber _ _
  · exact .error id

theorem avoids_binaryMember (path : String) (v : Value) :
    Avoids Error.IsConflict (binaryMember path v) := by
  unfold binaryMember
  split
  · exact .ok _ _
  · exact .error id

theorem avoids_encode (kind : SetKind) (path : String) (v : Value) :
    Avoids Error.IsConflict (kind.encode path v) := by
  unfold SetKind.encode
  split
  · cases kind with
    | string => exact (avoids_encodeItems avoids_stringMember _ _ _).map _
    | number => exact (avoids_encodeItems avoids_numberMember _ _ _).map _
    | binary => exact (avoids_encodeItems avoids_binaryMember _ _ _).map _
  · exact .error id

end SetKind

namespace Schema

mutual

theorem avoids_encodeAt (s : Schema) (path : String) (v : Value) :
    Avoids Error.IsConflict (s.encodeAt path v) := by
  unfold encodeAt
  split
  · split
    · exact .ok _ _
    · exact .error id
  · cases s with
    | scalar m kind => exact kind.avoids_encode path v
    | set m kind => exact kind.avoids_encode path v
    | map m fields =>
      cases v with
      | map entries => exact (avoids_encodeFields fields path entries).map _
      | _ => exact .error id
    | list m element =>
      cases v with
      | list items => exact (avoids_encodeItems (avoids_encodeAt element) _ _ _).map _
      | _ => exact .error id
    | partitionKey m inner => exact avoids_encodeAt inner path v
    | sortKey m inner => exact avoids_encodeAt inner path v

theorem avoids_encodeFields (fields : List (String × Schema)) (path : String)
    (entries : List (String × Value)) :
    Avoids Error.IsConflict (encodeFields fields path entries) := by
  cases fields with
  | nil =>
    unfold encodeFields
    exact .ok _ _
  | cons field fields =>
    obtain ⟨name, node⟩ := field
    unfold encodeFields
    split
    · exact (avoids_encodeAt node _ _).bind fun first _ =>
        (avoids_encodeFields fields path entries).bind fun rest _ => .ok _ _
    · split
      · exact avoids_encodeFields fields path entries
      · exact .error id

end

theorem avoids_encode (s : Schema) (v : Value) : Avoids Error.IsConflict (s.encode v) :=
  s.avoids_encodeAt "" v

theorem avoids_resolve (s : Schema) (p : Path) : Avoids Error.IsConflict (s.resolve p) := by
  unfold resolve
  split
  · exact .ok _ _
  · exact .error id

end Schema

/-! ## Tests -/

/-- Binding a token of a new origin succeeds. -/
theorem avoids_bindValue {S : ValueOrigin → Prop} {b : Bindings} (hb : b.From S)
    {o : ValueOrigin} (ho : ¬ S o) (p : Path) (d : Descriptor) :
    Avoids Error.IsConflict (b.bindValue (o.token p) d) := by
  rw [bindValue_of_get?_eq_none d (hb.get?_eq_none ho p)]
  exact .ok _ _

namespace TestSite

variable {S : ValueOrigin → Prop} {b : Bindings}

theorem avoids_bind (site : TestSite) (hb : b.From S) {o : ValueOrigin} (ho : ¬ S o)
    (d : Descriptor) : Avoids Error.IsConflict (site.bind o.suffix d b) :=
  (avoids_bindValue hb ho site.path d).bind fun _ _ => .ok _ _

theorem avoids_bindEncoded (site : TestSite) (node : Schema) (hb : b.From S) {o : ValueOrigin}
    (ho : ¬ S o) (v : Value) : Avoids Error.IsConflict (site.bindEncoded node o.suffix v b) :=
  (node.avoids_encode v).bind fun d _ => site.avoids_bind hb ho d

/-- The invariant after one of several values. -/
theorem from_bindEncoded {site : TestSite} {node : Schema} {o : ValueOrigin} {v : Value}
    {token : String} {b' : Bindings} (hb : b.From S)
    (h : site.bindEncoded node o.suffix v b = .ok (token, b')) :
    b'.From fun o' => o' = o ∨ S o' := by
  obtain ⟨-, d, -, hbind⟩ := bindEncoded_eq_ok h
  exact hb.bindValue hbind

/-- The values of a list have new origins from the `k`-th on, one after the other. -/
theorem avoids_bindAll (site : TestSite) (node : Schema) (vs : List Value) (k : Nat)
    (hb : b.From S) (hk : ∀ j, k ≤ j → ¬ S (.nth site.index j)) :
    Avoids Error.IsConflict (site.bindAll node k vs b) := by
  -- the set of origins grows on the way, so the induction is on all of them at once
  induction vs generalizing k b S with
  | nil => exact .ok _ _
  | cons v vs ih =>
    have hfirst := site.avoids_bindEncoded node hb (hk k le_rfl) v
    refine hfirst.bind fun r hr => ?_
    obtain ⟨token, b₁⟩ := r
    refine Avoids.bind (ih (k + 1) (from_bindEncoded (o := .nth site.index k) hb hr) ?_)
      fun _ _ => .ok _ _
    -- the origin that is taken now is the `k`-th, and the later ones are different
    rintro j hj (he | hS)
    · cases he
      omega
    · exact hk j (by omega) hS

end TestSite

theorem avoids_renderSingle {S : ValueOrigin → Prop} {b : Bindings} (site : TestSite)
    (name : String) (node : Schema) (operator : Operator) (v : Value) (hb : b.From S)
    (hsite : ∀ o, o.index? = some site.index → ¬ S o) :
    Avoids Error.IsConflict (renderSingle site name node operator v b) := by
  have hbind : ∀ node : Schema, Avoids Error.IsConflict
      (site.bindEncoded node site.suffix v b) :=
    fun node => site.avoids_bindEncoded node hb (hsite (.only site.index) rfl) v
  unfold renderSingle
  split
  · exact (hbind _).bind fun _ _ => .ok _ _
  · exact (hbind _).bind fun _ _ => .ok _ _
  · split
    · have htag := fun d => site.avoids_bind hb (hsite (.only site.index) rfl) d
      exact (htag _).bind fun _ _ => .ok _ _
    · exact .error id
  · split
    · exact (hbind _).bind fun _ _ => .ok _ _
    · exact .error id

/-- A test with a new number does not end in a conflict. -/
theorem avoids_renderTest {S : ValueOrigin → Prop} {b : Bindings} (site : TestSite)
    (name : String) (node : Schema) (operator : Operator) (operand : Operand) (hb : b.From S)
    (hsite : ∀ o, o.index? = some site.index → ¬ S o) :
    Avoids Error.IsConflict (renderTest site name node operator operand b) := by
  unfold renderTest
  split
  · exact .ok _ _
  · exact .ok _ _
  · exact avoids_renderSingle site name node _ _ hb hsite
  -- the second bound is looked at in tables that have the first one already
  · next low high =>
    have hlow := site.avoids_bindEncoded node hb (hsite (.nth site.index 0) rfl) low
    refine hlow.bind fun r hr => ?_
    obtain ⟨token, b₁⟩ := r
    have hb₁ := TestSite.from_bindEncoded (o := .nth site.index 0) hb hr
    refine (site.avoids_bindEncoded node hb₁ (o := .nth site.index 1) ?_ high).bind
      fun _ _ => .ok _ _
    rintro (he | hS)
    · cases he
    · exact hsite _ rfl hS
  · split
    · exact .error id
    · exact (site.avoids_bindAll node _ 0 hb fun j _ => hsite _ rfl).bind fun _ _ => .ok _ _
  · split
    · have hsize := fun v => site.avoids_bindEncoded (.ofKind .number) hb
        (hsite (.only site.index) rfl) v
      exact (hsize _).bind fun _ _ => .ok _ _
    · exact .error id
  · exact .error id

/-! ## Conditions and projections -/

theorem avoids_compileTest {schema : Schema} {path : Path} {operator : Operator}
    {operand : Operand} {progress : Progress}
    (hb : progress.bindings.From (ValueOrigin.Before progress.position)) :
    Avoids Error.IsConflict (compileTest schema path operator operand progress) := by
  refine (schema.avoids_resolve path).bind fun node _ => ?_
  rw [bindPath_eq]
  -- the number of the test has not been given before
  have hnew : ∀ o, o.index? = some progress.position →
      ¬ ValueOrigin.Before progress.position o := fun o ho => ValueOrigin.not_before ho
  exact (avoids_renderTest ⟨path, progress.position⟩ _ node operator operand (by exact hb)
    hnew).bind fun _ _ => .ok _ _

namespace Condition

/-- A condition keeps the invariant of the count. -/
theorem from_compile {schema : Schema} {progress progress' : Progress} {text : String}
    (c : Condition) (h : c.compile schema progress = .ok (text, progress'))
    (hb : progress.bindings.From (ValueOrigin.Before progress.position)) :
    progress'.bindings.From (ValueOrigin.Before progress'.position) := by
  obtain ⟨texts, hleaves, -⟩ := c.compile_eq_ok h
  exact from_compileLeaves hleaves hb

mutual

theorem avoids_compile {schema : Schema} {progress : Progress} (c : Condition)
    (hb : progress.bindings.From (ValueOrigin.Before progress.position)) :
    Avoids Error.IsConflict (c.compile schema progress) := by
  cases c with
  | test path operator operand =>
    unfold compile
    exact avoids_compileTest hb
  | group connective conditions =>
    unfold compile
    split
    · exact .error id
    · exact (avoids_compileAll conditions hb).bind fun _ _ => .ok _ _

theorem avoids_compileAll {schema : Schema} {progress : Progress} (cs : List Condition)
    (hb : progress.bindings.From (ValueOrigin.Before progress.position)) :
    Avoids Error.IsConflict (compileAll schema cs progress) := by
  cases cs with
  | nil =>
    unfold compileAll
    exact .ok _ _
  | cons c cs =>
    unfold compileAll
    -- the invariant has to be carried over the first condition
    refine (avoids_compile c hb).bind fun r hr => ?_
    obtain ⟨part, p₁⟩ := r
    exact (avoids_compileAll cs (c.from_compile hr hb)).bind fun _ _ => .ok _ _

end

end Condition

theorem avoids_projectPaths (schema : Schema) (written : List String) (paths : List Path)
    (b : Bindings) : Avoids Error.IsConflict (projectPaths schema written paths b) := by
  induction paths generalizing written b with
  | nil => exact .ok _ _
  | cons p paths ih => exact (schema.avoids_resolve p).bind fun node _ => ih _ _

theorem avoids_compileProjection (schema : Schema) (paths : List Path) (b : Bindings) :
    Avoids Error.IsConflict (compileProjection schema paths b) :=
  (avoids_projectPaths schema [] paths b).bind fun _ _ => .ok _ _

/-! ## Updates -/

theorem avoids_encodeAmount (path : Path) (node : Schema) (amount : Value) :
    Avoids Error.IsConflict (encodeAmount path node amount) := by
  unfold encodeAmount
  split
  · exact Schema.avoids_encode _ _
  · exact .error id

theorem avoids_encodeAppended (path : Path) (node : Schema) (values : List Value) :
    Avoids Error.IsConflict (encodeAppended path node values) := by
  unfold encodeAppended
  split
  · exact Schema.avoids_encode _ _
  · exact .error id

theorem avoids_checkRemovable (schema : Schema) (path : Path) (node : Schema) :
    Avoids Error.IsConflict (checkRemovable schema path node) := by
  -- the check is the same for a parent that is resolved and for the item itself
  have hcheck : ∀ parent : Schema, Avoids Error.IsConflict
      (if parent.fields?.isSome ∧ node.isOptional = false then
        .error (.invalidUpdate (.required path.text)) else .ok () : Except Error Unit) := by
    intro parent
    split
    · exact .error id
    · exact .ok _ _
  unfold checkRemovable
  dsimp only
  split
  · exact (schema.avoids_resolve _).bind fun parent _ => hcheck parent
  · exact (Avoids.ok _ schema).bind fun parent _ => hcheck parent

namespace UpdateClauses

theorem avoids_assign {S : ValueOrigin → Prop} {clauses : UpdateClauses}
    (hb : clauses.bindings.From S) {o : ValueOrigin} (ho : ¬ S o) (p : Path)
    (name source : String) (d : Descriptor) :
    Avoids Error.IsConflict (clauses.assign name (o.token p) d source) :=
  (avoids_bindValue hb ho p d).bind fun _ _ => .ok _ _

/-- An action with a new number does not end in a conflict. -/
theorem avoids_add {schema : Schema} {k : Nat} {seen : List Path} {action : Action}
    {clauses : UpdateClauses} (hb : clauses.bindings.From (ValueOrigin.ActionBefore k)) :
    Avoids Error.IsConflict (clauses.add schema k seen action) := by
  obtain ⟨path, change⟩ := action
  -- the number of the action has not been given before
  have hk : ¬ ValueOrigin.ActionBefore k (.action k) := by
    rintro ⟨j, hj, he⟩
    cases he
    omega
  unfold add
  dsimp only
  split
  · exact .error id
  · refine (schema.avoids_resolve path).bind fun node _ => ?_
    split
    · exact .error id
    · rw [bindPath_eq]
      have hassign : ∀ source d, Avoids Error.IsConflict
          (assign { clauses with
            bindings := { clauses.bindings with names := clauses.bindings.namesWith path "" } }
            (dotted (clauses.bindings.pathTokens path "")) ((ValueOrigin.action k).token path)
            d source) :=
        fun source d => avoids_assign (by exact hb) hk path _ source d
      -- encoding fails for reasons of its own, and then the token is new
      cases change with
      | set v => exact (node.avoids_encode v).bind fun d _ => hassign _ d
      | increment amount =>
        exact (avoids_encodeAmount path node amount).bind fun d _ => hassign _ d
      | decrement amount =>
        exact (avoids_encodeAmount path node amount).bind fun d _ => hassign _ d
      | append values =>
        exact (avoids_encodeAppended path node values).bind fun d _ => hassign _ d
      | remove => exact (avoids_checkRemovable schema path node).bind fun _ _ => .ok _ _

theorem avoids_addAll {schema : Schema} {actions : List Action} {k : Nat} {seen : List Path}
    {clauses : UpdateClauses} (hb : clauses.bindings.From (ValueOrigin.ActionBefore k)) :
    Avoids Error.IsConflict (clauses.addAll schema k seen actions) := by
  induction actions generalizing k seen clauses with
  | nil => exact .ok _ _
  | cons action actions ih =>
    refine (avoids_add hb).bind fun clauses₁ h₁ => ?_
    obtain ⟨node, -, hadded⟩ := add_eq_ok h₁
    exact ih (hadded.from_actionBefore hb)

end UpdateClauses

theorem avoids_compileUpdate (schema : Schema) (actions : List Action) :
    Avoids Error.IsConflict (compileUpdate schema actions) := by
  unfold compileUpdate
  dsimp only
  split
  · exact .error id
  · exact (UpdateClauses.avoids_addAll (from_empty _)).bind fun _ _ => .ok _ _

end ItemStore
