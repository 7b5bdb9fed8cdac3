import ItemStore.Proofs.Expression.Clauses
import ItemStore.Proofs.Expression.FreeToken
import ItemStore.Proofs.Expression.Projection

/-
How a path is written.

What a segment gets as its token depends on the tables, which are added to all the time. But it does
not depend on when it is asked for: a variant of the token that was passed over was bound to another
segment, which it still is, and the variant that was taken is bound to this one. So a path that was
bound once is written in the same way ever after, and to bind it again adds nothing
(`Bindings.bindPath_of_grows`).

The tables of the end therefore know how every path was written on the way to them (`Spelling`).
The expressions that went into them can be told from the conditions, the projections and the actions
with that knowledge alone, and without any table: that is what it means for a path to have one form
in all of them. Only the form of an attribute of the item itself is not the same everywhere, because
a test writes its number into it.
-/
set_option autoImplicit false

namespace ItemStore

open Entries Bindings

/-! ## Binding again -/

namespace Bindings

/-- Segments that were bound are bound already in all later tables. -/
theorem bindSegments_again {segments names names' : List (String × String)}
    (h : Entries.Grows (bindSegments names segments).2 names') (hnames : Ascending names') :
    bindSegments names' segments = ((bindSegments names segments).1, names') := by
  induction segments generalizing names with
  | nil => rfl
  | cons s segments ih =>
    obtain ⟨token, segment⟩ := s
    rw [bindSegments] at h
    have hadded : Entries.Grows
        (insertSorted (freeToken names segment token) segment names) names' :=
      (grows_bindSegments segments _).trans h
    have hget : get? (freeToken names segment token) names' = some segment :=
      hadded _ _ (get?_insertSorted_self _ _ _)
    -- the rest finds the table that this segment has left, which is the one it was given
    rw [bindSegments, freeToken_of_grows hadded, (insertSorted_eq_self_iff hnames).2 hget, ih h]
    rfl

/-- **Binding again.** A path that was bound is written in the same way in all later tables, and
these stay as they are. What is asked of the later tables is only that they have what the first
binding left; by `keeps_after` that is so after any steps, be they successful or not. -/
theorem bindPath_again {b later : Bindings} {p : Path} {suffix : String}
    (h : Entries.Grows (b.namesWith p suffix) later.names) (hlater : later.Sorted) :
    later.bindPath p suffix = ((b.bindPath p suffix).1, later) := by
  have hagain := bindSegments_again h hlater.names
  rw [bindPath, hagain]
  rfl

end Bindings

/-! ## Spellings -/

/-- How paths are written in the expressions of an operation. It is a pair of functions on paths
and not on tables, so an expression that is written by it is one that no table is needed to tell. -/
structure Spelling where
  /-- The form of a path. -/
  plain : Path → String
  /-- The form of a path with a number in it. -/
  numbered : Path → Nat → String

/-- The form of the path of a test. An attribute of the item itself has the number of the test in
it, and any other path is written as it always is. -/
def Spelling.ofTest (s : Spelling) (site : TestSite) : String :=
  if site.path.isTopLevel then s.numbered site.path site.index else s.plain site.path

/-- The forms that paths have in some tables. Asked of the tables of the end, it gives the forms
that were written on the way there. -/
def Bindings.spelling (b : Bindings) : Spelling where
  plain p := (b.bindPath p "").1
  numbered p n := (b.bindPath p (toString n)).1

theorem Bindings.ofTest_spelling (b : Bindings) (site : TestSite) :
    b.spelling.ofTest site = (b.bindPath site.path site.nameSuffix).1 := by
  unfold Spelling.ofTest TestSite.nameSuffix
  by_cases htop : site.path.isTopLevel = true
  · rw [if_pos htop, if_pos htop]
    rfl
  · rw [if_neg htop, if_neg htop]
    rfl

/-! ## Conditions -/

/-- The path of a test is written as it is in any later tables. -/
theorem CompiledTest.renders_later {schema node : Schema} {leaf : Leaf}
    {progress progress' : Progress} {values : List Descriptor} {text : String} {later : Bindings}
    (h : CompiledTest schema leaf progress node values text progress')
    (hlater : Entries.Grows progress'.bindings.names later.names) :
    RendersTest (later.bindPath leaf.path (leaf.site progress).nameSuffix).1 leaf.operator
      leaf.operand (leaf.tokens progress) text := by
  rw [h.names] at hlater
  rw [bindPath_eq, pathTokens_of_grows hlater]
  exact h.renders

namespace Condition

mutual

/-- The text of a condition whose first test has the given number. It is the compiler without its
tables: the tree, the count and the forms of paths determine the text. -/
inductive Written (s : Spelling) : Condition → Nat → String → Prop where
  | test {path : Path} {operator : Operator} {operand : Operand} {n : Nat} {text : String}
      (h : RendersTest (s.ofTest ⟨path, n⟩) operator operand (operand.tokens path n) text) :
      Written s (.test path operator operand) n text
  | group {connective : Connective} {conditions : List Condition} {n : Nat} {parts : List String}
      (h : AllWritten s conditions n parts) :
      Written s (.group connective conditions) n (joinParts connective parts)

/-- The texts of several conditions, which count their tests together. -/
inductive AllWritten (s : Spelling) : List Condition → Nat → List String → Prop where
  | nil {n : Nat} : AllWritten s [] n []
  | cons {c : Condition} {cs : List Condition} {n : Nat} {part : String} {parts : List String}
      (first : Written s c n part) (rest : AllWritten s cs (n + c.paths.length) parts) :
      AllWritten s (c :: cs) n (part :: parts)

end

mutual

/-- **How a condition is written.** It is told from any later tables. The later tables are any
that keep the names, so all expressions of one operation can be told from the same ones. -/
theorem written_of_compile {schema : Schema} {progress progress' : Progress} {text : String}
    {later : Bindings} (c : Condition) (h : c.compile schema progress = .ok (text, progress'))
    (hlater : Entries.Grows progress'.bindings.names later.names) :
    c.Written later.spelling progress.position text := by
  cases c with
  | test path operator operand =>
    rw [compile] at h
    have htest : (Leaf.mk path operator operand).compile schema progress =
        .ok (text, progress') := h
    obtain ⟨node, values, hleaf⟩ := Leaf.compile_eq_ok htest
    refine .test ?_
    rw [later.ofTest_spelling]
    exact hleaf.renders_later hlater
  | group connective conditions =>
    rw [compile] at h
    split at h
    · cases h
    · obtain ⟨⟨parts, p₁⟩, hall, he⟩ := bind_eq_ok.1 h
      cases he
      exact .group (allWritten_of_compileAll conditions hall hlater)

theorem allWritten_of_compileAll {schema : Schema} {progress progress' : Progress}
    {parts : List String} {later : Bindings} (cs : List Condition)
    (h : compileAll schema cs progress = .ok (parts, progress'))
    (hlater : Entries.Grows progress'.bindings.names later.names) :
    AllWritten later.spelling cs progress.position parts := by
  cases cs with
  | nil =>
    cases h
    exact .nil
  | cons c cs =>
    rw [compileAll] at h
    obtain ⟨⟨part, p₁⟩, hfirst, h⟩ := bind_eq_ok.1 h
    obtain ⟨⟨rest, p₂⟩, hrest, he⟩ := bind_eq_ok.1 h
    cases he
    -- the head was written in tables that the others have added to
    have hgrows := (grows_compileAll hrest).names
    refine .cons (written_of_compile c hfirst (hgrows.trans hlater)) ?_
    rw [← position_compile hfirst]
    exact allWritten_of_compileAll cs hrest hlater

end

end Condition

/-! ## Projections -/

/-- The text of a projection: its paths once each, in the order in which they came first. -/
def Spelling.projection (s : Spelling) (paths : List Path) : String :=
  ", ".intercalate (paths.eraseDups.map s.plain)

/-- **How a projection is written.** Repeated paths are told by their forms, which is what
`compile_into` of a projection does. -/
theorem projection_of_compile {schema : Schema} {paths : List Path} {text : String}
    {b b' later : Bindings} (h : compileProjection schema paths b = .ok (text, b'))
    (hlater : Entries.Grows b'.names later.names) : text = later.spelling.projection paths := by
  obtain ⟨⟨parts, b₁⟩, hparts, he⟩ := bind_eq_ok.1 h
  cases he
  have hnone : Covers b [] [] := .nil
  have hcovers : Covers b' parts paths := hnone.projectPaths hparts
  have hforms : List.Forall₂ (fun part p => part = later.spelling.plain p) parts paths.eraseDups :=
    List.Forall₂.imp (fun part p hpart => (hpart.written later hlater).symm) hcovers
  rw [← List.forall₂_map_right_iff (R := (· = ·)), List.forall₂_eq_eq_eq] at hforms
  rw [hforms, Spelling.projection]

/-! ## Updates -/

namespace Spelling

/-- What is written among the assignments for the action with the given number. -/
def assignment? (s : Spelling) (a : Action) (k : Nat) : Option String :=
  if a.change.sends then
    some (s.plain a.path ++ " = " ++ a.change.source (s.plain a.path) (a.token k))
  else none

/-- What is written among the removals for an action. -/
def removal? (s : Spelling) (a : Action) : Option String :=
  if a.change.sends then none else some (s.plain a.path)

/-- The text of an update. -/
def update (s : Spelling) (actions : List Action) : String :=
  " ".intercalate
    (updateClause "SET" (actions.zipIdx.filterMap fun (a, k) => s.assignment? a k) ++
      updateClause "REMOVE" (actions.filterMap s.removal?))

end Spelling

namespace Clause

/-- The name in a clause is the form of its path. -/
theorem KeepsTokens.name_eq {b later : Bindings} {c : Clause} (h : c.KeepsTokens b)
    (hlater : Entries.Grows b.names later.names) :
    c.name = later.spelling.plain c.action.path := by
  rw [name, ← h later hlater]
  rfl

/-- The numbers of the clauses are the places of their actions. -/
theorem Write.map_action_number {schema : Schema} {actions : List Action} {update : Compiled}
    {cs : List Clause} (h : Write schema actions update cs) :
    cs.map (fun c => (c.action, c.number)) = actions.zipIdx := by
  rw [List.zipIdx_eq_zip_range', ← h.actions, ← List.zip_map', h.numbers, ← h.actions,
    List.range_eq_range']

end Clause

/-- **How an update is written.** The clauses are written by the forms of paths and the numbers of
actions; values do not appear in the text at all. -/
theorem update_of_compile {schema : Schema} {actions : List Action} {update : Compiled}
    {later : Bindings} (h : compileUpdate schema actions = .ok update)
    (hlater : Entries.Grows update.bindings.names later.names) :
    update.expression = later.spelling.update actions := by
  obtain ⟨cs, hwrite, hkeeps⟩ := exists_lasting_clauses h
  have hname : ∀ c ∈ cs, c.name = later.spelling.plain c.action.path :=
    fun c hc => (hkeeps c hc).name_eq hlater
  have hsets : cs.filterMap Clause.assignment? =
      actions.zipIdx.filterMap fun (a, k) => later.spelling.assignment? a k := by
    rw [← hwrite.map_action_number, List.filterMap_map]
    refine List.filterMap_congr fun c hc => ?_
    rw [Clause.assignment?, hname c hc]
    rfl
  have hremoves : cs.filterMap Clause.removal? = actions.filterMap later.spelling.removal? := by
    rw [← hwrite.actions, List.filterMap_map]
    refine List.filterMap_congr fun c hc => ?_
    rw [Clause.removal?, hname c hc]
    rfl
  rw [hwrite.expression, hsets, hremoves, Spelling.update]

end ItemStore
