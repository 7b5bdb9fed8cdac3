import ItemStore.Expression.Projection
import ItemStore.Proofs.Expression.Test
import ItemStore.Proofs.Schema.Combined

/-
Compiling against a schema that covers another one.

A condition needs of a schema that its paths lead somewhere and that its values can be encoded
there. Both are there in a schema that covers the one the condition was written for, so it compiles
against that schema too. The tokens are spelled after the paths and the count of the tests, hence
the texts and the tables of names are equal. What can differ are the values: maps may be encoded
with their entries in another order. A value that is bound a second time is compared with what is
bound, and the comparison does not see that order, so no conflict is met that was not there before.

All of this is a walk through two compilations side by side. The relation between their tables is
`Bindings.Alike`; there is one lemma a function, and the sequences of steps are those of `Follows`.
-/
set_option autoImplicit false

namespace ItemStore

open Entries

/-! ## Tables -/

/-- Descriptors that are equal, the order of the entries of maps aside, whichever of them is gone
through and whichever is looked up. Both directions are asked for because sameness is symmetric
only where no map repeats a key, which is not known of what is bound by hand. -/
def Descriptor.Twins (d d' : Descriptor) : Prop := d.Alike d' ∧ d'.Alike d

namespace Descriptor.Twins

variable {d d' e e' : Descriptor}

theorem refl (d : Descriptor) : d.Twins d := ⟨.refl d, .refl d⟩

/-- Sameness does not tell twins apart. -/
theorem same (hd : d.Twins d') (he : e.Twins e') (h : d.same e = true) : d'.same e' = true := by
  have hleft : d'.same e = true := by
    rcases hd.2 with rfl | hsame
    · exact h
    · exact same_trans hsame h
  rcases he.1 with rfl | hsame
  · exact hleft
  · exact same_trans hleft hsame

end Descriptor.Twins

namespace Bindings

/-- Entries of two tables that bind the same token to twins. -/
def EntryAlike (e e' : String × Descriptor) : Prop := e.1 = e'.1 ∧ e.2.Twins e'.2

/-- Tables with equal names, and with values that are twins token by token. It is a relation of
lists and not of look-ups, since tables that are sent along are compared entry by entry. -/
structure Alike (b b' : Bindings) : Prop where
  names : b.names = b'.names
  values : List.Forall₂ EntryAlike b.values b'.values

theorem Alike.refl (b : Bindings) : b.Alike b where
  names := rfl
  values := List.forall₂_same.2 fun e _ => ⟨rfl, .refl e.2⟩

/-- Results that say the same over alike tables. -/
def ResultAlike {α : Type} (r r' : α × Bindings) : Prop := r.1 = r'.1 ∧ r.2.Alike r'.2

/-- Binding the names of a path leaves the values alone. -/
theorem Alike.bindPath {b b' : Bindings} (h : b.Alike b') (p : Path) (suffix : String) :
    ResultAlike (b.bindPath p suffix) (b'.bindPath p suffix) := by
  rw [Bindings.bindPath, Bindings.bindPath, h.names]
  exact ⟨rfl, rfl, h.values⟩

theorem get?_of_forall₂ {table table' : List (String × Descriptor)} {token : String}
    (h : List.Forall₂ EntryAlike table table') :
    Option.Rel Descriptor.Twins (get? token table) (get? token table') := by
  induction h with
  | nil => exact .none
  | @cons e e' _ _ he _ ih =>
    obtain ⟨k, d⟩ := e
    obtain ⟨k', d'⟩ := e'
    obtain ⟨rfl, htwins⟩ := he
    rw [get?, get?]
    by_cases hk : k = token
    · rw [if_pos hk, if_pos hk]
      exact .some htwins
    · rw [if_neg hk, if_neg hk]
      exact ih

theorem forall₂_insertSorted {table table' : List (String × Descriptor)} {d d' : Descriptor}
    (token : String) (hd : d.Twins d') (h : List.Forall₂ EntryAlike table table') :
    List.Forall₂ EntryAlike (insertSorted token d table) (insertSorted token d' table') := by
  induction h with
  | nil => exact .cons ⟨rfl, hd⟩ .nil
  | @cons e e' _ _ he hrest ih =>
    obtain ⟨k, a⟩ := e
    obtain ⟨k', a'⟩ := e'
    obtain ⟨rfl, htwins⟩ := he
    rw [insertSorted, insertSorted]
    by_cases hlt : token < k
    · rw [if_pos hlt, if_pos hlt]
      exact .cons ⟨rfl, hd⟩ (.cons ⟨rfl, htwins⟩ hrest)
    · rw [if_neg hlt, if_neg hlt]
      by_cases hk : k = token
      · rw [if_pos hk, if_pos hk]
        exact .cons ⟨rfl, hd⟩ hrest
      · rw [if_neg hk, if_neg hk]
        exact .cons ⟨rfl, htwins⟩ ih

/-- **No new conflicts.** Where a value can be bound, a twin of it can be bound in an alike table.
It goes from the first table to the second only: what cannot be bound in the first says nothing
about the second. -/
theorem Alike.bindValue {b b' : Bindings} (h : b.Alike b') {d d' : Descriptor} (hd : d.Twins d')
    (token : String) : Follows Alike (b.bindValue token d) (b'.bindValue token d') := by
  intro bound hbound
  obtain ⟨hnames, hvalues⟩ := bindValue_eq_ok hbound
  have hget : Option.Rel Descriptor.Twins (get? token b.values) (get? token b'.values) :=
    get?_of_forall₂ h.values
  rcases bindIn_eq_ok hvalues with ⟨found, hfound, hsame, hkept⟩ | ⟨hnone, hadded⟩
  · -- what is found on the other side is a twin of what is found here
    rw [hfound] at hget
    cases hother : get? token b'.values with
    | none =>
      rw [hother] at hget
      cases hget
    | some found' =>
      rw [hother] at hget
      cases hget with
      | some htwins =>
        refine ⟨b', ?_, ?_, ?_⟩
        · rw [Bindings.bindValue, bindIn, hother]
          dsimp only
          rw [if_pos (htwins.same hd hsame)]
          rfl
        · rw [hnames, h.names]
        · rw [hkept]
          exact h.values
  · rw [hnone] at hget
    cases hother : get? token b'.values with
    | none =>
      refine ⟨_, bindValue_of_get?_eq_none d' hother, ?_, ?_⟩
      · rw [hnames, h.names]
      · rw [hadded]
        exact forall₂_insertSorted token hd h.values
    | some found' =>
      rw [hother] at hget
      cases hget

end Bindings

/-! ## One test -/

/-- Along alike schemas a value is encoded to twins. -/
theorem Schema.Alike.encode_follows {s s' : Schema} (h : Schema.Alike s s') (v : Value) :
    Follows Descriptor.Twins (s.encode v) (s'.encode v) := by
  intro d hd
  obtain ⟨d', hd', hsame⟩ := h.encodesAlike "" v d hd
  obtain ⟨e, he, hsame'⟩ := h.symm.encodesAlike "" v d' hd'
  -- encoding is a function, so the way back leads to the same descriptor
  have hde : Except.ok d = (Except.ok e : Except Error Descriptor) := hd.symm.trans he
  cases hde
  exact ⟨d', hd', .inr hsame, .inr hsame'⟩

theorem Schema.Alike.memberNode {s s' : Schema} (h : Schema.Alike s s') :
    Schema.Alike s.memberNode s'.memberNode := by
  have hinner := h.unwrapKey
  rw [Schema.memberNode, Schema.memberNode]
  generalize s.unwrapKey = inner, s'.unwrapKey = inner' at hinner
  cases hinner with
  | list element => exact element
  | set m kind => exact .scalar .none kind.member
  | scalar m kind => exact h
  | map nodup names nodes => exact h
  | partitionKey inner => exact h
  | sortKey inner => exact h

namespace TestSite

variable (site : TestSite) {node node' : Schema} {b b' : Bindings}

theorem bind_follows {d d' : Descriptor} (hd : d.Twins d') (hb : b.Alike b') (suffix : String) :
    Follows Bindings.ResultAlike (site.bind suffix d b) (site.bind suffix d' b') :=
  (hb.bindValue hd _).bind fun _ _ hbound => .ok ⟨rfl, hbound⟩

theorem bindEncoded_follows (hnode : Schema.Alike node node') (hb : b.Alike b') (suffix : String)
    (v : Value) :
    Follows Bindings.ResultAlike (site.bindEncoded node suffix v b)
      (site.bindEncoded node' suffix v b') :=
  (hnode.encode_follows v).bind fun _ _ hd => site.bind_follows hd hb suffix

theorem bindAll_follows (hnode : Schema.Alike node node') (values : List Value) (k : Nat)
    (hb : b.Alike b') :
    Follows Bindings.ResultAlike (site.bindAll node k values b)
      (site.bindAll node' k values b') := by
  induction values generalizing k b b' with
  | nil => exact .ok ⟨rfl, hb⟩
  | cons v values ih =>
    refine (site.bindEncoded_follows hnode hb _ v).bind fun first first' hfirst => ?_
    refine (ih (k + 1) hfirst.2).bind fun rest rest' hrest => ?_
    exact .ok ⟨by rw [hfirst.1, hrest.1], hrest.2⟩

end TestSite

section Test

variable (site : TestSite) (name : String) {node node' : Schema} {b b' : Bindings}

theorem renderSingle_follows (hnode : Schema.Alike node node') (operator : Operator) (v : Value)
    (hb : b.Alike b') : Follows Bindings.ResultAlike (renderSingle site name node operator v b)
      (renderSingle site name node' operator v b') := by
  cases operator with
  | eq | ne | lt | le | gt | ge | beginsWith =>
    refine (site.bindEncoded_follows hnode hb site.suffix v).bind fun r r' hr => ?_
    exact .ok ⟨by rw [hr.1], hr.2⟩
  | contains =>
    refine (site.bindEncoded_follows hnode.memberNode hb site.suffix v).bind fun r r' hr => ?_
    exact .ok ⟨by rw [hr.1], hr.2⟩
  | hasType =>
    -- the name of a type is bound as it is, whatever the node
    rw [renderSingle, renderSingle]
    cases v.tag? with
    | none => exact .error _ _
    | some tag =>
      refine (site.bind_follows (.refl _) hb site.suffix).bind fun r r' hr => ?_
      exact .ok ⟨by rw [hr.1], hr.2⟩
  | _ => exact .error _ _

theorem renderTest_follows (hnode : Schema.Alike node node') (operator : Operator)
    (operand : Operand) (hb : b.Alike b') :
    Follows Bindings.ResultAlike (renderTest site name node operator operand b)
      (renderTest site name node' operator operand b') := by
  cases operand with
  | none =>
    cases operator with
    | «exists» | notExists => exact .ok ⟨rfl, hb⟩
    | _ => exact .error _ _
  | single v =>
    rw [renderTest_single, renderTest_single]
    exact renderSingle_follows site name hnode operator v hb
  | pair low high =>
    cases operator with
    | between =>
      refine (site.bindEncoded_follows hnode hb _ low).bind fun r r' hr => ?_
      refine (site.bindEncoded_follows hnode hr.2 _ high).bind fun q q' hq => ?_
      exact .ok ⟨by rw [hr.1, hq.1], hq.2⟩
    | _ => exact .error _ _
  | list values =>
    cases operator with
    | isIn =>
      rw [renderTest, renderTest]
      by_cases hempty : values.isEmpty = true
      · rw [if_pos hempty]
        exact .error _ _
      · rw [if_neg hempty, if_neg hempty]
        refine (site.bindAll_follows hnode values 0 hb).bind fun r r' hr => ?_
        exact .ok ⟨by rw [hr.1], hr.2⟩
    | _ => exact .error _ _
  | size comparator v =>
    cases operator with
    | size =>
      rw [renderTest, renderTest]
      by_cases hcomparator : comparator.isComparator = true
      · rw [if_pos hcomparator, if_pos hcomparator]
        -- a size is a number, whatever the node
        have hnumber : Schema.Alike (.ofKind .number) (.ofKind .number) := .scalar .none .number
        refine (site.bindEncoded_follows hnumber hb site.suffix v).bind fun r r' hr => ?_
        exact .ok ⟨by rw [hr.1], hr.2⟩
      · rw [if_neg hcomparator]
        exact .error _ _
    | _ => exact .error _ _

end Test

/-! ## Conditions -/

/-- Compilations that have got equally far, with alike tables. -/
structure Progress.Alike (p p' : Progress) : Prop where
  position : p.position = p'.position
  bindings : p.bindings.Alike p'.bindings

theorem Progress.Alike.refl (p : Progress) : p.Alike p := ⟨rfl, .refl p.bindings⟩

/-- Results that say the same and from which it goes on alike. -/
def CompiledAlike {α : Type} (r r' : α × Progress) : Prop := r.1 = r'.1 ∧ r.2.Alike r'.2

namespace Schema.Covers

variable {s entity : Schema}

theorem compileTest_follows (h : s.Covers entity) (path : Path) (operator : Operator)
    (operand : Operand) {progress progress' : Progress} (hp : progress.Alike progress') :
    Follows CompiledAlike (compileTest entity path operator operand progress)
      (compileTest s path operator operand progress') := by
  have hresolve : Follows Schema.Alike (entity.resolve path) (s.resolve path) :=
    fun node hnode => h.resolve hnode
  rw [compileTest, compileTest, ← hp.position]
  refine hresolve.bind fun node node' hnode => ?_
  have hbind := hp.bindings.bindPath path
    (TestSite.nameSuffix { path, index := progress.position })
  generalize progress.bindings.bindPath path _ = r, progress'.bindings.bindPath path _ = r' at hbind
  obtain ⟨name, b⟩ := r
  obtain ⟨name', b'⟩ := r'
  obtain ⟨rfl, hb⟩ := hbind
  refine (renderTest_follows _ name hnode operator operand hb).bind fun q q' hq => ?_
  exact .ok ⟨hq.1, rfl, hq.2⟩

mutual

/-- **Conditions.** A condition that compiles against a schema compiles against one that covers
it, to the same text and with alike tables. It is stated for any two alike tables, because the
induction meets tables that earlier tests have filled in both runs. -/
theorem compile_follows (h : s.Covers entity) (c : Condition) {progress progress' : Progress}
    (hp : progress.Alike progress') :
    Follows CompiledAlike (c.compile entity progress) (c.compile s progress') := by
  cases c with
  | test path operator operand =>
    rw [Condition.compile, Condition.compile]
    exact h.compileTest_follows path operator operand hp
  | group connective conditions =>
    rw [Condition.compile, Condition.compile]
    by_cases hempty : conditions.isEmpty = true
    · rw [if_pos hempty]
      exact .error _ _
    · rw [if_neg hempty, if_neg hempty]
      refine (h.compileAll_follows conditions hp).bind fun r r' hr => ?_
      exact .ok ⟨by rw [hr.1], hr.2⟩

theorem compileAll_follows (h : s.Covers entity) (cs : List Condition)
    {progress progress' : Progress} (hp : progress.Alike progress') :
    Follows CompiledAlike (Condition.compileAll entity cs progress)
      (Condition.compileAll s cs progress') := by
  cases cs with
  | nil =>
    rw [Condition.compileAll, Condition.compileAll]
    exact .ok ⟨rfl, hp⟩
  | cons c cs =>
    rw [Condition.compileAll, Condition.compileAll]
    refine (h.compile_follows c hp).bind fun first first' hfirst => ?_
    refine (h.compileAll_follows cs hfirst.2).bind fun rest rest' hrest => ?_
    exact .ok ⟨by rw [hfirst.1, hrest.1], hrest.2⟩

end

/-! ## Projections -/

theorem projectPaths_follows (h : s.Covers entity) (paths : List Path) (written : List String)
    (b : Bindings) :
    Follows (· = ·) (projectPaths entity written paths b) (projectPaths s written paths b) := by
  induction paths generalizing written b with
  | nil => exact .ok rfl
  | cons p paths ih =>
    have hresolve : Follows Schema.Alike (entity.resolve p) (s.resolve p) :=
      fun node hnode => h.resolve hnode
    rw [projectPaths, projectPaths]
    exact hresolve.bind fun _ _ _ => ih _ _

/-- **Projections.** A projection that compiles against a schema compiles against one that covers
it, to the same text and into the same tables. The tables are equal here and not only alike, since
no value is bound. -/
theorem compileProjection_follows (h : s.Covers entity) (paths : List Path) (b : Bindings) :
    Follows (· = ·) (compileProjection entity paths b) (compileProjection s paths b) := by
  refine (h.projectPaths_follows paths [] b).bind fun r r' hr => ?_
  rw [hr]
  exact .ok rfl

end Schema.Covers

end ItemStore
