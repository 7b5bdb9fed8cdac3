import ItemStore.Proofs.Expression.Occurrence

/-
A tree of tests is compiled like the list of its tests.

Connectives bind nothing and count nothing. So the tables and the position that a tree
leaves behind are those of its leaves compiled one after the other, and apart from its
parentheses and connectives its text consists of theirs. Whatever is said about tables is
proved for lists of leaves and comes to trees, and to several trees in a row, from here.
-/
set_option autoImplicit false

namespace ItemStore

open Entries Bindings

/-! ## Leaves -/

namespace Condition

mutual

/-- The tests of the condition from left to right. It is in the order of `paths`, which is the
order in which the tests take their numbers. -/
def leaves : Condition → List Leaf
  | test path operator operand => [⟨path, operator, operand⟩]
  | group _ conditions => leavesOfAll conditions

/-- The tests of several conditions. -/
def leavesOfAll : List Condition → List Leaf
  | [] => []
  | c :: cs => c.leaves ++ leavesOfAll cs

end

mutual

/-- The paths that are tested are those of the leaves. -/
theorem map_path_leaves (c : Condition) : c.leaves.map Leaf.path = c.paths := by
  cases c with
  | test path operator operand => rfl
  | group connective conditions =>
    rw [leaves, paths]
    exact map_path_leavesOfAll conditions

theorem map_path_leavesOfAll (cs : List Condition) :
    (leavesOfAll cs).map Leaf.path = pathsOfAll cs := by
  cases cs with
  | nil => rfl
  | cons c cs =>
    rw [leavesOfAll, pathsOfAll, List.map_append, map_path_leaves c, map_path_leavesOfAll cs]

end

end Condition

/-- Compiles tests one after the other, each with the schema that goes with it. Every leaf comes
with a schema of its own, because the conditions of one operation could be compiled against
different ones and still share the tables. -/
def compileLeaves :
    List (Schema × Leaf) → Progress → Except Error (List String × Progress)
  | [], progress => .ok ([], progress)
  | (schema, leaf) :: leaves, progress => do
    let (text, progress) ← leaf.compile schema progress
    let (texts, progress) ← compileLeaves leaves progress
    .ok (text :: texts, progress)

/-- The first test is compiled, and the others go on from there. -/
theorem compileLeaves_cons_eq_ok {schema : Schema} {leaf : Leaf} {ls : List (Schema × Leaf)}
    {p p' : Progress} {texts : List String}
    (h : compileLeaves ((schema, leaf) :: ls) p = .ok (texts, p')) :
    ∃ p₁ text rest node values, texts = text :: rest ∧
      CompiledTest schema leaf p node values text p₁ ∧
      compileLeaves ls p₁ = .ok (rest, p') := by
  obtain ⟨⟨text, p₁⟩, hfirst, h⟩ := bind_eq_ok.1 h
  obtain ⟨⟨rest, p₂⟩, hrest, he⟩ := bind_eq_ok.1 h
  cases he
  obtain ⟨node, values, hleaf⟩ := Leaf.compile_eq_ok hfirst
  exact ⟨p₁, text, rest, node, values, rfl, hleaf, hrest⟩

/-- Compiling goes on where it stopped. -/
theorem compileLeaves_append {ls ls' : List (Schema × Leaf)} {p p' p'' : Progress}
    {texts texts' : List String} (h : compileLeaves ls p = .ok (texts, p'))
    (h' : compileLeaves ls' p' = .ok (texts', p'')) :
    compileLeaves (ls ++ ls') p = .ok (texts ++ texts', p'') := by
  induction ls generalizing p texts with
  | nil =>
    cases h
    exact h'
  | cons l ls ih =>
    obtain ⟨schema, leaf⟩ := l
    obtain ⟨⟨text, p₁⟩, hfirst, h⟩ := bind_eq_ok.1 h
    obtain ⟨⟨rest, p₂⟩, hrest, he⟩ := bind_eq_ok.1 h
    cases he
    exact bind_eq_ok.2 ⟨(text, p₁), hfirst, bind_eq_ok.2 ⟨_, ih hrest, rfl⟩⟩

/-! ## Trees -/

/-- The leaves of a condition, each with the schema the condition is compiled with. -/
def Condition.leavesWith (schema : Schema) (c : Condition) : List (Schema × Leaf) :=
  c.leaves.map fun leaf => (schema, leaf)

/-- What a text has to do with the texts of its leaves: it has their tokens. It speaks of both
marks at once, and of the set of tokens only: how often and where they stand is of no account. -/
def HasTokensOf (text : String) (texts : List String) : Prop :=
  ∀ mark, IsMark mark → tokensOf mark text = texts.flatMap (tokensOf mark)

namespace Condition

mutual

/-- **A tree is its leaves.** Compiling it comes to compiling its tests from left to right, and
the tokens in its text are those in their texts. It goes one way only, since connectives are
refused without conditions, which the list of leaves cannot tell. -/
theorem compile_eq_ok {schema : Schema} {progress progress' : Progress} {text : String}
    (c : Condition) (h : c.compile schema progress = .ok (text, progress')) :
    ∃ texts, compileLeaves (c.leavesWith schema) progress = .ok (texts, progress') ∧
      HasTokensOf text texts := by
  cases c with
  | test path operator operand =>
    rw [compile] at h
    refine ⟨[text], bind_eq_ok.2 ⟨(text, progress'), h, rfl⟩, fun mark _ => ?_⟩
    -- a test is its own only leaf
    rw [List.flatMap_singleton]
  | group connective conditions =>
    rw [compile] at h
    split at h
    · cases h
    · obtain ⟨⟨parts, p₁⟩, hall, he⟩ := bind_eq_ok.1 h
      cases he
      obtain ⟨texts, hleaves, htexts⟩ := compileAll_eq_ok conditions hall
      refine ⟨texts, hleaves, fun mark hmark => ?_⟩
      -- brackets and connectives have no tokens
      rw [tokensOf_joinParts hmark, htexts mark hmark]

theorem compileAll_eq_ok {schema : Schema} {progress progress' : Progress}
    {parts : List String} (cs : List Condition)
    (h : compileAll schema cs progress = .ok (parts, progress')) :
    ∃ texts, compileLeaves ((leavesOfAll cs).map fun leaf => (schema, leaf)) progress =
        .ok (texts, progress') ∧
      ∀ mark, IsMark mark →
        parts.flatMap (tokensOf mark) = texts.flatMap (tokensOf mark) := by
  cases cs with
  | nil =>
    cases h
    exact ⟨[], rfl, fun mark _ => rfl⟩
  | cons c cs =>
    rw [compileAll] at h
    obtain ⟨⟨part, p₁⟩, hfirst, h⟩ := bind_eq_ok.1 h
    obtain ⟨⟨rest, p₂⟩, hrest, he⟩ := bind_eq_ok.1 h
    cases he
    obtain ⟨texts, hleaves, htexts⟩ := compile_eq_ok c hfirst
    obtain ⟨texts', hleaves', htexts'⟩ := compileAll_eq_ok cs hrest
    refine ⟨texts ++ texts', ?_, fun mark hmark => ?_⟩
    -- first the leaves of the head, then those of the rest
    · rw [leavesOfAll, List.map_append]
      exact compileLeaves_append hleaves hleaves'
    · rw [List.flatMap_cons, List.flatMap_append, htexts mark hmark, htexts' mark hmark]

end

end Condition

/-! ## What leaves do to the tables -/

/-- Leaves take no binding away. -/
theorem grows_compileLeaves {ls : List (Schema × Leaf)} {p p' : Progress}
    {texts : List String} (h : compileLeaves ls p = .ok (texts, p')) :
    Bindings.Grows p.bindings p'.bindings := by
  induction ls generalizing p texts with
  | nil =>
    cases h
    exact .refl _
  | cons l ls ih =>
    obtain ⟨schema, leaf⟩ := l
    obtain ⟨p₁, text, rest, node, values, rfl, hleaf, hrest⟩ := compileLeaves_cons_eq_ok h
    exact hleaf.grows.trans (ih hrest)

/-- Every leaf counts once. -/
theorem position_compileLeaves {ls : List (Schema × Leaf)} {p p' : Progress}
    {texts : List String} (h : compileLeaves ls p = .ok (texts, p')) :
    p'.position = p.position + ls.length := by
  induction ls generalizing p texts with
  | nil =>
    cases h
    rfl
  | cons l ls ih =>
    obtain ⟨schema, leaf⟩ := l
    obtain ⟨p₁, text, rest, node, values, rfl, hleaf, hrest⟩ := compileLeaves_cons_eq_ok h
    rw [ih hrest, hleaf.position, List.length_cons]
    omega

namespace Condition

/-- Every test of a condition counts once. -/
theorem position_compile {schema : Schema} {c : Condition} {progress progress' : Progress}
    {text : String} (h : c.compile schema progress = .ok (text, progress')) :
    progress'.position = progress.position + c.paths.length := by
  obtain ⟨texts, hleaves, -⟩ := c.compile_eq_ok h
  rw [position_compileLeaves hleaves, leavesWith, List.length_map, ← c.map_path_leaves,
    List.length_map]

end Condition

end ItemStore
