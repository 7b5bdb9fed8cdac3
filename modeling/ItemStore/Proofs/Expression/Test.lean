import ItemStore.Proofs.Expression.Growth
import Mathlib.Data.List.Forall2

/-
What compiling one test does.

A test binds its path first and then the values of its operand from left to right. Seen
from outside there are three questions: which tokens the values get (`Operand.tokens`),
which node they are encoded with (`Schema.operandNode`) and what the text looks like
(`RendersTest`). None of the answers depends on the tables. A compilation that succeeds
is therefore the text, which is known in advance, and a row of bindings, which
`bindValues` makes one after the other; every later statement about conditions is about
one of the two.
-/
set_option autoImplicit false

namespace ItemStore

open Entries Bindings

/-! ## The operand -/

namespace Operand

/-- The values of the operand from left to right. -/
def values : Operand → List Value
  | none => []
  | single v => [v]
  | pair low high => [low, high]
  | list values => values
  | size _ v => [v]

/-- Where the tokens of the values come from in the test with the given number. It is what the
tokens of values are made from, with the path left out. -/
def origins (index : Nat) : Operand → List ValueOrigin
  | none => []
  | single _ => [.only index]
  | pair _ _ => [.nth index 0, .nth index 1]
  | list values => (List.range' 0 values.length).map (ValueOrigin.nth index)
  | size _ _ => [.only index]

/-- The tokens of the values in the test with the given path and number. -/
def tokens (p : Path) (index : Nat) (operand : Operand) : List String :=
  (operand.origins index).map fun o => o.token p

/-- The comparator a size is compared with. -/
def comparator? : Operand → Option Operator
  | size comparator _ => some comparator
  | _ => Option.none

theorem length_origins (index : Nat) (operand : Operand) :
    (operand.origins index).length = operand.values.length := by
  cases operand <;> simp [origins, values]

end Operand

/-- The node that the values of a test are encoded with, given the node of its path. Only three
operators encode with another node than that of their path. -/
def Schema.operandNode (node : Schema) : Operator → Schema
  | .contains => node.memberNode
  | .hasType => .ofKind .string
  | .size => .ofKind .number
  | _ => node

theorem Schema.operandNode_of_isComparator {operator : Operator} (h : operator.isComparator)
    (node : Schema) : node.operandNode operator = node := by
  cases operator <;> first | rfl | cases h

/-! ## The text -/

/-- The texts of tests, given the form of the path and the tokens of the values. The forms are
listed and not computed, one for each kind of test, so a statement about texts can go through
them. -/
inductive RendersTest (name : String) : Operator → Operand → List String → String → Prop where
  | comparison {operator : Operator} {v : Value} {token : String}
      (h : operator.isComparator = true) :
      RendersTest name operator (.single v) [token] (ItemStore.comparison name operator token)
  | function {operator : Operator} {v : Value} {token : String}
      (h : operator = .beginsWith ∨ operator = .contains ∨ operator = .hasType) :
      RendersTest name operator (.single v) [token] (call operator.text [name, token])
  | presence {operator : Operator} (h : operator = .exists ∨ operator = .notExists) :
      RendersTest name operator .none [] (call operator.text [name])
  | between {v w : Value} {low high : String} :
      RendersTest name .between (.pair v w) [low, high]
        (name ++ " BETWEEN " ++ low ++ " AND " ++ high)
  | isIn {values : List Value} {tokens : List String} (h : tokens ≠ []) :
      RendersTest name .isIn (.list values) tokens
        (name ++ " IN (" ++ ", ".intercalate tokens ++ ")")
  | size {comparator : Operator} {v : Value} {token : String}
      (h : comparator.isComparator = true) :
      RendersTest name .size (.size comparator v) [token]
        (ItemStore.comparison (call Operator.size.text [name]) comparator token)

/-! ## The bindings -/

/-- Binds several value tokens, one after the other. It is what is left of a test when its text
and its encodings are known. -/
def Bindings.bindValues : List (String × Descriptor) → Bindings → Except Error Bindings
  | [], b => .ok b
  | (token, value) :: slots, b => do
    let b ← b.bindValue token value
    bindValues slots b

namespace Bindings

theorem grows_bindValues {slots : List (String × Descriptor)} {b b' : Bindings}
    (h : bindValues slots b = .ok b') : Grows b b' := by
  induction slots generalizing b with
  | nil =>
    cases h
    exact Grows.refl _
  | cons s slots ih =>
    obtain ⟨b₁, hbind, hrest⟩ := bind_eq_ok.1 h
    exact (grows_bindValue hbind).trans (ih hrest)

theorem names_bindValues {slots : List (String × Descriptor)} {b b' : Bindings}
    (h : bindValues slots b = .ok b') : b'.names = b.names := by
  induction slots generalizing b with
  | nil =>
    cases h
    rfl
  | cons s slots ih =>
    obtain ⟨b₁, hbind, hrest⟩ := bind_eq_ok.1 h
    rw [ih hrest, (bindValue_eq_ok hbind).1]

/-- The keys that are new are the tokens that were bound. -/
theorem mem_keys_bindValues {slots : List (String × Descriptor)} {b b' : Bindings} {t : String}
    (h : bindValues slots b = .ok b') :
    t ∈ keys b'.values ↔ t ∈ keys slots ∨ t ∈ keys b.values := by
  induction slots generalizing b with
  | nil =>
    cases h
    simp [keys]
  | cons s slots ih =>
    obtain ⟨token, value⟩ := s
    obtain ⟨b₁, hbind, hrest⟩ := bind_eq_ok.1 h
    have hkeys : keys ((token, value) :: slots) = token :: keys slots := rfl
    rw [ih hrest, mem_keys_bindIn (bindValue_eq_ok hbind).2, hkeys, List.mem_cons]
    tauto

end Bindings

/-! ## One test -/

namespace TestSite

/-- Encoding and binding one value. -/
theorem bindEncoded_eq_ok {site : TestSite} {node : Schema} {v : Value} {b b' : Bindings}
    {o : ValueOrigin} {token : String}
    (h : site.bindEncoded node o.suffix v b = .ok (token, b')) :
    token = o.token site.path ∧
      ∃ d, node.encode v = .ok d ∧ b.bindValue (o.token site.path) d = .ok b' := by
  obtain ⟨d, hd, hbind⟩ := bind_eq_ok.1 h
  obtain ⟨b₁, hb, he⟩ := bind_eq_ok.1 hbind
  cases he
  exact ⟨rfl, d, hd, hb⟩

/-- Encoding and binding several values. -/
theorem bindAll_eq_ok {site : TestSite} {node : Schema} {vs : List Value} {k : Nat}
    {b b' : Bindings} {tokens : List String}
    (h : site.bindAll node k vs b = .ok (tokens, b')) :
    tokens = (List.range' k vs.length).map
        (fun j => (ValueOrigin.nth site.index j).token site.path) ∧
      ∃ ds, List.Forall₂ (fun v d => node.encode v = .ok d) vs ds ∧
        bindValues (tokens.zip ds) b = .ok b' := by
  -- the first value takes the number `k`, the others go on from `k + 1`
  induction vs generalizing k b tokens with
  | nil =>
    cases h
    exact ⟨rfl, [], .nil, rfl⟩
  | cons v vs ih =>
    obtain ⟨⟨token, b₁⟩, hfirst, hmore⟩ := bind_eq_ok.1 h
    obtain ⟨⟨rest, b₂⟩, hrest, he⟩ := bind_eq_ok.1 hmore
    cases he
    obtain ⟨rfl, d, hd, hb⟩ := bindEncoded_eq_ok (o := .nth site.index k) hfirst
    obtain ⟨rfl, ds, hds, hbs⟩ := ih hrest
    refine ⟨by simp [List.range'_succ], d :: ds, .cons hd hds, ?_⟩
    exact bind_eq_ok.2 ⟨b₁, hb, hbs⟩

end TestSite

/-- What a value that spells a tag is encoded to as a string. -/
theorem encode_ofKind_string_of_tag? {v : Value} {tag : Tag} (h : v.tag? = some tag) :
    (Schema.ofKind .string).encode v = .ok (.string tag.text) := by
  obtain ⟨s, hs, htag⟩ := Option.bind_eq_some_iff.1 h
  have hv : v = .string s := by
    cases v <;> simp [Value.string?] at hs
    rw [hs]
  -- the tag was found by its text
  have htext : tag.text = s := by
    have hfind := List.find?_some htag
    simpa using hfind
  rw [hv, htext]
  rfl

/-- An operator with one value: encode, bind, write. -/
theorem renderSingle_eq_ok {site : TestSite} {name text : String} {node : Schema}
    {operator : Operator} {v : Value} {b b' : Bindings}
    (h : renderSingle site name node operator v b = .ok (text, b')) :
    ∃ d, (node.operandNode operator).encode v = .ok d ∧
      b.bindValue ((ValueOrigin.only site.index).token site.path) d = .ok b' ∧
      RendersTest name operator (.single v) [(ValueOrigin.only site.index).token site.path]
        text := by
  -- the six comparators are one case, because the node of the path is the node of the value
  by_cases hcmp : operator.isComparator = true
  · have heq : renderSingle site name node operator v b =
        site.bindEncoded node site.suffix v b >>= fun bound =>
          .ok (comparison name operator bound.1, bound.2) := by
      cases operator <;> first | rfl | cases hcmp
    rw [heq] at h
    obtain ⟨⟨token, b₁⟩, hbind, he⟩ := bind_eq_ok.1 h
    cases he
    obtain ⟨rfl, d, hd, hb⟩ := TestSite.bindEncoded_eq_ok (o := .only site.index) hbind
    rw [Schema.operandNode_of_isComparator hcmp]
    exact ⟨d, hd, hb, .comparison hcmp⟩
  · cases operator with
    | beginsWith =>
      obtain ⟨⟨token, b₁⟩, hbind, he⟩ := bind_eq_ok.1 h
      cases he
      obtain ⟨rfl, d, hd, hb⟩ := TestSite.bindEncoded_eq_ok (o := .only site.index) hbind
      exact ⟨d, hd, hb, .function (.inl rfl)⟩
    | contains =>
      obtain ⟨⟨token, b₁⟩, hbind, he⟩ := bind_eq_ok.1 h
      cases he
      obtain ⟨rfl, d, hd, hb⟩ := TestSite.bindEncoded_eq_ok (o := .only site.index) hbind
      exact ⟨d, hd, hb, .function (.inr (.inl rfl))⟩
    | hasType =>
      -- the value is not encoded: the tag that it spells is bound, which comes to the same
      simp only [renderSingle] at h
      split at h
      · next tag htag =>
        obtain ⟨⟨token, b₁⟩, hbind, he⟩ := bind_eq_ok.1 h
        cases he
        obtain ⟨b₂, hb, he⟩ := bind_eq_ok.1 hbind
        cases he
        exact ⟨.string tag.text, encode_ofKind_string_of_tag? htag, hb,
          .function (.inr (.inr rfl))⟩
      · cases h
    | eq | ne | lt | le | gt | ge => exact absurd rfl hcmp
    | between | isIn | «exists» | notExists | size => cases h

/-- With one value every operator goes the same way. -/
theorem renderTest_single (site : TestSite) (name : String) (node : Schema) (operator : Operator)
    (v : Value) (b : Bindings) : renderTest site name node operator (.single v) b =
      renderSingle site name node operator v b := by
  cases operator <;> rfl

/-- **A test that compiles** has encoded its values one by one, bound each to its own token and
written the text of its operator. It is used in both directions of reading and writing, so it says
all that a success can tell. -/
theorem renderTest_eq_ok {site : TestSite} {name text : String} {node : Schema}
    {operator : Operator} {operand : Operand} {b b' : Bindings}
    (h : renderTest site name node operator operand b = .ok (text, b')) :
    ∃ ds, List.Forall₂ (fun v d => (node.operandNode operator).encode v = .ok d)
        operand.values ds ∧
      bindValues ((operand.tokens site.path site.index).zip ds) b = .ok b' ∧
      RendersTest name operator operand (operand.tokens site.path site.index) text := by
  cases operand with
  | none =>
    cases operator with
    | «exists» =>
      cases h
      exact ⟨[], .nil, rfl, .presence (.inl rfl)⟩
    | notExists =>
      cases h
      exact ⟨[], .nil, rfl, .presence (.inr rfl)⟩
    | _ => cases h
  | single v =>
    rw [renderTest_single] at h
    obtain ⟨d, hd, hb, htext⟩ := renderSingle_eq_ok h
    exact ⟨[d], .cons hd .nil, bind_eq_ok.2 ⟨b', hb, rfl⟩, htext⟩
  | pair low high =>
    cases operator with
    | between =>
      obtain ⟨⟨token₀, b₀⟩, hlow, hrest⟩ := bind_eq_ok.1 h
      obtain ⟨⟨token₁, b₁⟩, hhigh, he⟩ := bind_eq_ok.1 hrest
      cases he
      obtain ⟨rfl, d₀, hd₀, hb₀⟩ := TestSite.bindEncoded_eq_ok (o := .nth site.index 0) hlow
      obtain ⟨rfl, d₁, hd₁, hb₁⟩ := TestSite.bindEncoded_eq_ok (o := .nth site.index 1) hhigh
      refine ⟨[d₀, d₁], .cons hd₀ (.cons hd₁ .nil), ?_, .between⟩
      exact bind_eq_ok.2 ⟨b₀, hb₀, bind_eq_ok.2 ⟨b', hb₁, rfl⟩⟩
    | _ => cases h
  | list vs =>
    cases operator with
    | isIn =>
      simp only [renderTest] at h
      -- no candidates are an error
      split at h
      · cases h
      · next hne =>
        obtain ⟨⟨tokens, b₁⟩, hall, he⟩ := bind_eq_ok.1 h
        cases he
        obtain ⟨rfl, ds, hds, hbs⟩ := TestSite.bindAll_eq_ok hall
        have htokens : (Operand.list vs).tokens site.path site.index =
            (List.range' 0 vs.length).map
              (fun j => (ValueOrigin.nth site.index j).token site.path) := by
          simp [Operand.tokens, Operand.origins]
        rw [htokens]
        refine ⟨ds, hds, hbs, .isIn ?_⟩
        simpa using hne
    | _ => cases h
  | size comparator v =>
    cases operator with
    | size =>
      simp only [renderTest] at h
      split at h
      · next hcmp =>
        obtain ⟨⟨token, b₁⟩, hbind, he⟩ := bind_eq_ok.1 h
        cases he
        obtain ⟨rfl, d, hd, hb⟩ := TestSite.bindEncoded_eq_ok (o := .only site.index) hbind
        exact ⟨[d], .cons hd .nil, bind_eq_ok.2 ⟨_, hb, rfl⟩, .size hcmp⟩
      · cases h
    | _ => cases h

/-! ## A test and its place -/

/-- A test without the tree around it. -/
structure Leaf where
  path : Path
  operator : Operator
  operand : Operand

namespace Leaf

/-- Compiles the test. -/
def compile (schema : Schema) (leaf : Leaf) (progress : Progress) :
    Except Error (String × Progress) :=
  compileTest schema leaf.path leaf.operator leaf.operand progress

/-- The site of the test if it is the next one. -/
def site (leaf : Leaf) (progress : Progress) : TestSite := ⟨leaf.path, progress.position⟩

/-- The tokens of the values if the test is the next one. -/
def tokens (leaf : Leaf) (progress : Progress) : List String :=
  leaf.operand.tokens leaf.path progress.position

end Leaf

theorem isWord_nameSuffix (site : TestSite) : IsWord site.nameSuffix.toList := by
  unfold TestSite.nameSuffix
  split
  · exact isWord_toString site.index
  · simpa using isWord_nil

/-- The tokens of a test are tokens, those of its path and those of its values. -/
theorem Leaf.isToken_tokens (leaf : Leaf) (progress : Progress) :
    (∀ t ∈ progress.bindings.pathTokens leaf.path (leaf.site progress).nameSuffix,
      IsToken '#' t) ∧ ∀ t ∈ leaf.tokens progress, IsToken ':' t := by
  refine ⟨isToken_pathTokens (isWord_nameSuffix _) _ _, fun t ht => ?_⟩
  obtain ⟨o, -, rfl⟩ := List.mem_map.1 ht
  exact o.isToken_token leaf.path

/-- What a test was compiled to: the node of its path, its values encoded, and how the tables
before and after it and its text are made from them. Every later statement about a test takes it
apart by these fields and does not look at `compileTest` again. -/
structure CompiledTest (schema : Schema) (leaf : Leaf) (progress : Progress) (node : Schema)
    (values : List Descriptor) (text : String) (progress' : Progress) : Prop where
  resolve : schema.resolve leaf.path = .ok node
  encode : List.Forall₂ (fun v d => (node.operandNode leaf.operator).encode v = .ok d)
    leaf.operand.values values
  position : progress'.position = progress.position + 1
  names : progress'.bindings.names =
    progress.bindings.namesWith leaf.path (leaf.site progress).nameSuffix
  bind : bindValues ((leaf.tokens progress).zip values)
    { progress.bindings with names := progress'.bindings.names } = .ok progress'.bindings
  renders : RendersTest
    (dotted (progress.bindings.pathTokens leaf.path (leaf.site progress).nameSuffix))
    leaf.operator leaf.operand (leaf.tokens progress) text

/-- Compiling a test succeeds in one way only. -/
theorem Leaf.compile_eq_ok {schema : Schema} {leaf : Leaf} {progress progress' : Progress}
    {text : String} (h : leaf.compile schema progress = .ok (text, progress')) :
    ∃ node values, CompiledTest schema leaf progress node values text progress' := by
  obtain ⟨node, hnode, h⟩ := bind_eq_ok.1 h
  obtain ⟨⟨text', b⟩, hrender, he⟩ := bind_eq_ok.1 h
  cases he
  obtain ⟨ds, hds, hbs, htext⟩ := renderTest_eq_ok hrender
  have hnames := names_bindValues hbs
  -- the names are bound before the values, and no value touches them
  exact ⟨node, ds, hnode, hds, rfl, hnames, by rw [hnames]; exact hbs, htext⟩

namespace CompiledTest

variable {schema : Schema} {leaf : Leaf} {progress progress' : Progress} {node : Schema}
  {values : List Descriptor} {text : String}

/-- A test takes no binding away. -/
theorem grows (h : CompiledTest schema leaf progress node values text progress') :
    Bindings.Grows progress.bindings progress'.bindings := by
  have hpath : Bindings.Grows progress.bindings
      { progress.bindings with names := progress'.bindings.names } :=
    ⟨h.names ▸ grows_namesWith _ _ _, .refl _⟩
  exact hpath.trans (grows_bindValues h.bind)

theorem length_tokens (h : CompiledTest schema leaf progress node values text progress') :
    (leaf.tokens progress).length = values.length := by
  rw [Leaf.tokens, Operand.tokens, List.length_map, Operand.length_origins, h.encode.length_eq]

/-- The name tokens that are new are those of the path. -/
theorem mem_keys_names {t : String}
    (h : CompiledTest schema leaf progress node values text progress') :
    t ∈ keys progress'.bindings.names ↔
      t ∈ progress.bindings.pathTokens leaf.path (leaf.site progress).nameSuffix ∨
        t ∈ keys progress.bindings.names := by
  rw [h.names]
  exact mem_keys_namesWith _ _ _

/-- The value tokens that are new are those of the operand. -/
theorem mem_keys_values {t : String}
    (h : CompiledTest schema leaf progress node values text progress') :
    t ∈ keys progress'.bindings.values ↔
      t ∈ leaf.tokens progress ∨ t ∈ keys progress.bindings.values := by
  rw [mem_keys_bindValues h.bind]
  have hkeys : keys ((leaf.tokens progress).zip values) = leaf.tokens progress :=
    List.map_fst_zip (Nat.le_of_eq h.length_tokens)
  rw [hkeys]

end CompiledTest

end ItemStore
