import ItemStore.Proofs.Expression.Covering

/-
What is said of a table through an entity holds of the table as a whole.

Puts, gets and updates work with the schema of an entity, queries and scans with the combined
schema of the table. They have to agree on the paths there are, on what an item says and on what
an expression is. They do, because the combined schema covers every entity: what was written
through an entity is read back as the same through the table, and an expression that is good for
an entity is good for the table and is spelled alike.

The two schemas are what `entity` and `combined` give of a table, and `combine` has made the one
out of the others.
-/
set_option autoImplicit false

namespace ItemStore

open Entries

/-- **One table.** The paths of a built table are those of its entities. For each entity, a path
leads to the same node in the combined schema; an item that was encoded for the entity is decoded
to the same value by both schemas, or by neither, and surely by both where the dates of the value
are in years of four digits; and a condition or a projection that compiles for the entity compiles
for the table, to the same text, with the same names and with values that are the same. Sameness
leaves out of account the order in which maps have their fields. Paths come twice, because an
entity that has a path is known only in the second part. That an item is decoded alike is said
without any condition on its dates; only that it is decoded at all needs their years, which is
what the texts of dates need. Values are compared up to sameness since a combined map may declare
the names of a nested one in the order of another entity. -/
theorem TableDeclaration.combined_agrees {declaration : TableDeclaration} {t : TableSchema}
    (h : declaration.build = .ok t) :
    (∀ p, (∃ node, t.combined.resolve p = .ok node) ↔
      ∃ name s node, t.entity name = .ok s ∧ s.resolve p = .ok node) ∧
    ∀ name s, t.entity name = .ok s →
      (∀ p node, s.resolve p = .ok node →
        ∃ node', t.combined.resolve p = .ok node' ∧ node'.same node = true) ∧
      (∀ v item mode, s.encodeItem v = .ok item →
        Agree Value.Alike (s.decodeItem mode item) (t.combined.decodeItem mode item) ∧
        ((∀ d ∈ s.dates v, 0 ≤ d.year ∧ d.year ≤ 9999) →
          ∃ w, t.combined.decodeItem mode item = .ok w ∧ Value.Alike (s.norm v) w)) ∧
      (∀ (c : Condition) progress text after, c.compile s progress = .ok (text, after) →
        ∃ after', c.compile t.combined progress = .ok (text, after') ∧ after.Alike after') ∧
      ∀ paths b compiled, compileProjection s paths b = .ok compiled →
        compileProjection t.combined paths b = .ok compiled := by
  have hcombines : t.Combines := combines_of_build h
  refine ⟨hcombines.resolve_iff, ?_⟩
  intro name s hs
  have hcovers : t.combined.Covers s := hcombines.covers name s hs
  refine ⟨?_, ?_, ?_, ?_⟩
  · intro p node hnode
    obtain ⟨node', hnode', halike⟩ := hcovers.resolve hnode
    exact ⟨node', hnode', halike.symm.same⟩
  · intro v item mode hitem
    have hagree := hcombines.decodeItem_agree hs hitem mode
    refine ⟨hagree, ?_⟩
    intro hyears
    obtain ⟨fields, rfl, hnames⟩ := hcombines.entity name s hs
    exact hagree.1 _ (Schema.decodeItem_of_encodeItem hnames hyears hitem mode)
  · intro c progress text after hcompile
    obtain ⟨⟨text', after'⟩, hcompile', htext, hafter⟩ :=
      hcovers.compile_follows c (.refl progress) _ hcompile
    dsimp only at htext hafter
    subst htext
    exact ⟨after', hcompile', hafter⟩
  · intro paths b compiled hcompile
    obtain ⟨compiled', hcompile', rfl⟩ := hcovers.compileProjection_follows paths b _ hcompile
    exact hcompile'

namespace Depot

/-- The key attributes of everything in the depot. -/
def keyFields : List (String × Schema) :=
  [("pk", .partitionKey .none (.ofKind .string)), ("sk", .sortKey .none (.ofKind .string))]

/-- The fields of a bin. -/
def binFields : List (String × Schema) :=
  keyFields ++ [("place", .map .none [("hall", .ofKind .string), ("row", .ofKind .number)])]

/-- The fields of a crate, which has its place in another order. -/
def crateFields : List (String × Schema) :=
  keyFields ++
    [("packed", .ofKind .date),
      ("place", .map .none [("row", .ofKind .number), ("hall", .ofKind .string)])]

/-- The declaration of the table. -/
def declaration : TableDeclaration := .mk [("bins", binFields), ("crates", crateFields)] []

/-- The schema of crates. -/
def crates : Schema := .map .none crateFields

/-- A place. -/
def place : Value := .map [("hall", .string "B"), ("row", .number 7)]

/-- A crate, packed on a leap day. -/
def crate : Value :=
  .map [("pk", .string "c#1"), ("sk", .string "crate"), ("place", place),
    ("packed", .string "2024-02-29T12:00:00Z")]

/-- What stands at that place. -/
def standsThere : Condition := .test ⟨"place"⟩ .eq (.single place)

/-- The table reads the crate back, and finds it by a place that it spells in its own order. -/
theorem crate_agrees : ∃ t item, declaration.build = .ok t ∧ t.entity "crates" = .ok crates ∧
    crates.encodeItem crate = .ok item ∧
    (∃ w, t.combined.decodeItem .strict item = .ok w ∧ Value.Alike (crates.norm crate) w) ∧
    ∃ text after after', standsThere.compile crates .start = .ok (text, after) ∧
      standsThere.compile t.combined .start = .ok (text, after') ∧ after.Alike after' := by
  obtain ⟨t, hbuild, hentity⟩ : ∃ t, declaration.build = .ok t ∧ t.entity "crates" = .ok crates :=
    ⟨_, rfl, rfl⟩
  have hrun : ((crates.encodeItem crate).toOption.map fun _ => true) = some true := by
    decide +kernel
  have htest : ((standsThere.compile crates .start).toOption.map fun _ => true) = some true := by
    decide +kernel
  have hyears : ((crates.dates crate).all fun d => decide (0 ≤ d.year ∧ d.year ≤ 9999)) = true := by
    decide +kernel
  obtain ⟨item, hitem, -⟩ := exists_ok_of_toOption_map hrun
  obtain ⟨⟨text, after⟩, hcompile, -⟩ := exists_ok_of_toOption_map htest
  obtain ⟨-, hall⟩ := TableDeclaration.combined_agrees hbuild
  obtain ⟨-, hdecode, hconditions, -⟩ := hall "crates" crates hentity
  obtain ⟨after', hcompile', halike⟩ := hconditions standsThere .start text after hcompile
  refine ⟨t, item, hbuild, hentity, hitem, ?_, text, after, after', hcompile, hcompile', halike⟩
  exact (hdecode crate item .strict hitem).2
    fun d hd => of_decide_eq_true (List.all_eq_true.1 hyears d hd)

end Depot

end ItemStore
