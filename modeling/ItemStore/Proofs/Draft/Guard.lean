import ItemStore.Proofs.Draft.Agreement
import ItemStore.Proofs.Schema.Key

/-
The guard of a put against replacing an item.

A guarded put is to fail where an item with the same key is stored already, so its condition is
that every key attribute differs from what the item has under it. The condition is made like any
other one: the name of the attribute becomes a path, the path is followed into the schema, its
tokens are found, and the value is encoded once more at the node that was reached. All this comes
back to the attribute and to what is stored of it exactly if the name has no dot (`guards_iff`). A
name with a dot is the name of an attribute everywhere else; as a path it leads to an attribute
inside another one or to nothing at all.

A text with a dot can be told from a guard, since no token has one. So the direction that is about
names with a dot needs no reading of the condition back, only its characters.

The guard is what `throw_if_exists` asks for; its tests are made by `key_differs`, one for each
name in `KeyAttributes`.
-/
set_option autoImplicit false

namespace ItemStore

open Entries Bindings

/-! ## Guards -/

/-- Tests as they stand in a guard: one by itself, several in brackets. A table with a partition
key alone has one test. -/
def guardText : List String → String
  | [text] => text
  | texts => "(" ++ " AND ".intercalate texts ++ ")"

/-- The tokens of a test stand for the name of an attribute and for what the item has under it.
The value is that of the item that the request puts, and not encoded again, so a guard that
compares something else does not satisfy it. -/
structure PutRequest.Tests (r : PutRequest) (tokens : String × String) (name : String) : Prop where
  isName : IsToken '#' tokens.1
  resolves : get? tokens.1 r.bindings.names = some name
  isValue : IsToken ':' tokens.2
  value : ∃ d, get? name r.item = some d ∧ get? tokens.2 r.bindings.values = some d

/-- The condition of the put is that every key attribute differs from that of the item, the
partition key first. It is about the request that is sent, so it does not depend on how the
builder arrives at it. -/
def PutRequest.Guards (r : PutRequest) (keys : KeyNames) : Prop :=
  ∃ tests : List (String × String), List.Forall₂ r.Tests tests keys.names ∧
    r.condition = some (guardText (tests.map fun test => comparison test.1 .ne test.2))

/-! ## Dots in texts -/

theorem dot_mem_comparison {left right : String} :
    '.' ∈ (comparison left .ne right).toList ↔ '.' ∈ left.toList ∨ '.' ∈ right.toList := by
  simp [comparison, Operator.text]

theorem dot_mem_intercalate {separator : String} (h : '.' ∉ separator.toList)
    {texts : List String} :
    '.' ∈ (separator.intercalate texts).toList ↔ ∃ text ∈ texts, '.' ∈ text.toList := by
  induction texts with
  | nil => simp
  | cons text texts ih =>
    cases texts with
    | nil => simp
    | cons next texts =>
      rw [String.intercalate_cons_cons, String.toList_append, String.toList_append,
        List.mem_append, List.mem_append, ih, List.exists_mem_cons_iff]
      simp [h]

theorem dot_mem_guardText {texts : List String} :
    '.' ∈ (guardText texts).toList ↔ ∃ text ∈ texts, '.' ∈ text.toList := by
  have hgroup : '.' ∈ ("(" ++ " AND ".intercalate texts ++ ")").toList ↔
      ∃ text ∈ texts, '.' ∈ text.toList := by
    have hand : '.' ∉ " AND ".toList := by decide
    rw [← dot_mem_intercalate hand]
    simp
  unfold guardText
  split
  · simp
  · exact hgroup

/-- A path with a dot in it has more than one segment. -/
theorem Path.two_le_length_segments {name : String} (h : '.' ∈ name.toList) :
    2 ≤ (segments ⟨name⟩).length := by
  obtain ⟨first, rest, hname⟩ := List.append_of_mem h
  have hsplit : name = String.ofList first ++ "." ++ String.ofList rest := by
    rw [← String.toList_inj, hname]
    simp
  rw [hsplit, segments_append, List.length_append]
  have hfirst := List.length_pos_iff.2 (segments_ne_nil ⟨String.ofList first⟩)
  have hrest := List.length_pos_iff.2 (segments_ne_nil ⟨String.ofList rest⟩)
  omega

theorem dot_mem_dotted {tokens : List String} (h : 2 ≤ tokens.length) :
    '.' ∈ (dotted tokens).toList := by
  cases tokens with
  | nil => cases h
  | cons first rest =>
    cases rest with
    | nil => simp at h
    | cons second rest => simp [dotted, String.intercalate_cons_cons]

/-! ## The tests of a guard -/

/-- The test that an attribute differs from what a value has under its name. It is one of those
that `key_differs` makes, and its path is the name as it stands. -/
def guardTest (v : Value) (name : String) : Condition :=
  .test ⟨name⟩ .ne (.single ((v.get? name).getD .null))

/-- A test of a guard as it was compiled: the tokens of a path and that of a value. It says what a
test became whatever the path leads to, and so covers names with and without dots. -/
structure Tested (entity : Schema) (v : Value) (b : Bindings) (tokens : List String × String)
    (name : String) : Prop where
  isName : ∀ token ∈ tokens.1, IsToken '#' token
  names : List.Forall₂ (fun token segment => get? token b.names = some segment) tokens.1
    (Path.segments ⟨name⟩)
  isValue : IsToken ':' tokens.2
  value : ∃ node d, entity.resolve ⟨name⟩ = .ok node ∧
    node.encode ((v.get? name).getD .null) = .ok d ∧ get? tokens.2 b.values = some d

theorem Tested.grows {entity : Schema} {v : Value} {b b' : Bindings}
    {tokens : List String × String} {name : String} (h : Tested entity v b tokens name)
    (hb : Bindings.Grows b b') : Tested entity v b' tokens name := by
  obtain ⟨node, d, hnode, hd, hbound⟩ := h.value
  exact ⟨h.isName, h.names.imp fun token segment hname => hb.names _ _ hname, h.isValue,
    node, d, hnode, hd, hb.values _ _ hbound⟩

/-- The text of a test of a guard. The tokens of a path are joined by dots, so there is one of
them exactly if the name has none. -/
def testedText (tokens : List String × String) : String := comparison (dotted tokens.1) .ne tokens.2

theorem exists_tested {entity : Schema} {v : Value} {name text : String}
    {progress progress' : Progress}
    (h : (guardTest v name).compile entity progress = .ok (text, progress'))
    (hb : progress.bindings.From (ValueOrigin.Before progress.position)) :
    ∃ tokens, text = testedText tokens ∧ Tested entity v progress'.bindings tokens name := by
  have hleaf : (⟨⟨name⟩, .ne, .single ((v.get? name).getD .null)⟩ : Leaf).compile entity
      progress = .ok (text, progress') := h
  obtain ⟨node, values, hcompiled⟩ := Leaf.compile_eq_ok hleaf
  obtain ⟨hname, hvalue⟩ := Leaf.isToken_tokens _ progress
  have hbound := hcompiled.get?_tokens hb
  have hrenders := hcompiled.renders
  generalize htokens : Leaf.tokens _ progress = tokens at hvalue hbound hrenders
  cases hrenders with
  | function hoperator => simp at hoperator
  | @comparison _ _ token _ =>
    refine ⟨(progress.bindings.pathTokens ⟨name⟩ (TestSite.nameSuffix _), token), rfl, hname, ?_,
      hvalue token List.mem_cons_self, ?_⟩
    · rw [hcompiled.names]
      exact get?_namesWith _ _ _
    · obtain ⟨d, ds, hd, hds, rfl⟩ := List.forall₂_cons_left_iff.1 hcompiled.encode
      exact ⟨node, d, hcompiled.resolve, hd, (List.forall₂_cons.1 hbound).1⟩

/-- Several tests, one after the other. -/
theorem exists_tested_all {entity : Schema} {v : Value} {names texts : List String}
    {progress progress' : Progress}
    (h : Condition.compileAll entity (names.map (guardTest v)) progress = .ok (texts, progress'))
    (hb : progress.bindings.From (ValueOrigin.Before progress.position)) :
    ∃ tests, texts = tests.map testedText ∧
      List.Forall₂ (Tested entity v progress'.bindings) tests names := by
  induction names generalizing progress texts with
  | nil =>
    cases h
    exact ⟨[], rfl, .nil⟩
  | cons name names ih =>
    rw [List.map_cons, Condition.compileAll] at h
    obtain ⟨⟨text, p₁⟩, hfirst, h⟩ := bind_eq_ok.1 h
    obtain ⟨⟨rest, p₂⟩, hrest, he⟩ := bind_eq_ok.1 h
    cases he
    obtain ⟨tokens, rfl, htested⟩ := exists_tested hfirst hb
    obtain ⟨tests, rfl, htests⟩ := ih hrest ((guardTest v name).from_compile hfirst hb)
    -- what the first test has bound is still there after the others
    obtain ⟨leaves, hleaves, -⟩ := Condition.compileAll_eq_ok _ hrest
    exact ⟨tokens :: tests, rfl, .cons (htested.grows (grows_compileLeaves hleaves)) htests⟩

/-! ## Guarded puts -/

/-- The condition of a guard, given its tests. A group of one test would be written in brackets. -/
def guardOf : List Condition → Condition
  | [test] => test
  | tests => .group .and tests

theorem keyGuard_eq {entity : Schema} {keys : KeyNames} {v : Value}
    (hkeys : KeyNames.ofSchema entity = .ok keys) (hheld : keys.HeldBy v) :
    keyGuard entity v = .ok (guardOf (keys.names.map (guardTest v))) := by
  have hdiffers : ∀ name ∈ keys.names, differs v name = .ok (guardTest v name) := by
    intro name hname
    obtain ⟨w, hw⟩ := Option.isSome_iff_exists.1 (hheld name hname)
    rw [differs, hw, guardTest, hw, Option.getD_some]
  have htests : keys.names.mapM (differs v) = .ok (keys.names.map (guardTest v)) := by
    have hmap : (keys.names.map id).mapM (differs v) = .ok (keys.names.map (guardTest v)) :=
      mapM_map_eq_ok hdiffers
    rwa [List.map_id] at hmap
  rw [keyGuard, hkeys]
  refine bind_eq_ok.2 ⟨_, rfl, bind_eq_ok.2 ⟨_, htests, ?_⟩⟩
  cases keys.names.map (guardTest v) with
  | nil => rfl
  | cons first rest => cases rest <;> rfl

/-- A guard is compiled test by test. -/
theorem compile_guardOf_eq_ok {entity : Schema} {tests : List Condition} (hne : tests ≠ [])
    {progress progress' : Progress} {text : String} :
    (guardOf tests).compile entity progress = .ok (text, progress') ↔
      ∃ texts, Condition.compileAll entity tests progress = .ok (texts, progress') ∧
        text = guardText texts := by
  cases tests with
  | nil => exact absurd rfl hne
  | cons first rest =>
    cases rest with
    | nil =>
      rw [guardOf, Condition.compileAll]
      constructor
      · intro h
        exact ⟨[text], bind_eq_ok.2 ⟨_, h, rfl⟩, rfl⟩
      · rintro ⟨texts, h, rfl⟩
        obtain ⟨⟨text, p₁⟩, hfirst, h⟩ := bind_eq_ok.1 h
        cases h
        exact hfirst
    | cons second rest =>
      -- several tests have several texts, and these are in brackets
      have hjoin : ∀ texts p, Condition.compileAll entity (first :: second :: rest) progress =
          .ok (texts, p) → joinParts .and texts = guardText texts := by
        intro texts p h
        obtain ⟨⟨text, p₁⟩, -, h⟩ := bind_eq_ok.1 h
        obtain ⟨⟨texts', p₂⟩, h, he⟩ := bind_eq_ok.1 h
        obtain ⟨⟨text', p₃⟩, -, h⟩ := bind_eq_ok.1 h
        obtain ⟨⟨texts'', p₄⟩, -, he'⟩ := bind_eq_ok.1 h
        cases he'
        cases he
        rfl
      rw [guardOf, Condition.compile, if_neg (by simp)]
      · constructor
        · intro h
          obtain ⟨⟨texts, p⟩, hall, he⟩ := bind_eq_ok.1 h
          cases he
          exact ⟨texts, hall, hjoin texts _ hall⟩
        · rintro ⟨texts, hall, rfl⟩
          refine bind_eq_ok.2 ⟨_, hall, ?_⟩
          rw [← hjoin texts progress' hall]
      · simp

section Puts

variable {t : Table} {d : PutDraft} {entity : Schema} {keys : KeyNames} {v : Value} {item : Item}

/-- A guarded put comes to the tests of its key attributes and nothing else. -/
theorem PutDraft.build_guarded_eq_ok (hentity : t.entity d.entity = .ok entity)
    (hkeys : KeyNames.ofSchema entity = .ok keys) (hguarded : d.guarded = true)
    (hcondition : d.condition = none) (hv : d.item = some v)
    (hitem : entity.encodeItem v = .ok item) (hheld : keys.HeldBy v) {r : PutRequest} :
    d.build t = .ok r ↔ ∃ texts progress,
      Condition.compileAll entity (keys.names.map (guardTest v)) .start = .ok (texts, progress) ∧
      r = { table := t.name, item, condition := some (guardText texts),
            bindings := progress.bindings, report := d.report } := by
  have hne : keys.names.map (guardTest v) ≠ [] := by simp [KeyNames.names]
  have heffective : d.effective entity v =
      .ok (some (guardOf (keys.names.map (guardTest v)))) := by
    rw [effective, if_pos hguarded, hcondition, keyGuard_eq hkeys hheld]
    rfl
  constructor
  · intro h
    obtain ⟨entity', hentity', h⟩ := bind_eq_ok.1 h
    rw [hentity] at hentity'
    cases hentity'
    rw [hv, Option.getD_some] at h
    obtain ⟨item', hitem', h⟩ := bind_eq_ok.1 h
    rw [hitem] at hitem'
    cases hitem'
    obtain ⟨condition, heffective', h⟩ := bind_eq_ok.1 h
    rw [heffective] at heffective'
    cases heffective'
    obtain ⟨⟨condition, progress⟩, hcompile, he⟩ := bind_eq_ok.1 h
    cases he
    obtain ⟨⟨text, p⟩, hguard, he⟩ := bind_eq_ok.1 hcompile
    cases he
    obtain ⟨texts, hall, rfl⟩ := (compile_guardOf_eq_ok hne).1 hguard
    exact ⟨texts, progress, hall, rfl⟩
  · rintro ⟨texts, progress, hall, rfl⟩
    have hguard := (compile_guardOf_eq_ok hne).2 ⟨texts, hall, rfl⟩
    refine bind_eq_ok.2 ⟨entity, hentity, ?_⟩
    rw [hv, Option.getD_some]
    refine bind_eq_ok.2 ⟨item, hitem, bind_eq_ok.2 ⟨_, heffective, ?_⟩⟩
    exact bind_eq_ok.2 ⟨_, bind_eq_ok.2 ⟨_, hguard, rfl⟩, rfl⟩

/-- Tests of the key attributes compile if no name is taken for a longer path. -/
theorem exists_compileAll_guardTests (hkeys : KeyNames.ofSchema entity = .ok keys)
    (hitem : entity.encodeItem v = .ok item) (hheld : keys.HeldBy v) {names : List String}
    (hnames : ∀ name ∈ names, name ∈ keys.names ∧ '.' ∉ name.toList) {progress : Progress}
    (hb : progress.bindings.From (ValueOrigin.Before progress.position)) :
    ∃ r, Condition.compileAll entity (names.map (guardTest v)) progress = .ok r := by
  induction names generalizing progress with
  | nil => exact ⟨_, rfl⟩
  | cons name names ih =>
    obtain ⟨⟨hname, hdot⟩, hrest⟩ := List.forall_mem_cons.1 hnames
    obtain ⟨w, hw⟩ := Option.isSome_iff_exists.1 (hheld name hname)
    obtain ⟨node, d, hfield, hd, -⟩ := Schema.exists_get?_of_encodeItem hkeys hitem hname hw
    have hordered : (guardTest v name).WellFormed entity := by
      rw [guardTest, hw, Option.getD_some]
      exact Condition.wellFormed_test (Schema.resolve_of_field? hfield hdot) (.comparison rfl hd)
    obtain ⟨⟨text, p₁⟩, hfirst⟩ := Condition.exists_compile_of_wellFormed hb hordered
    obtain ⟨⟨texts, p₂⟩, hall⟩ := ih hrest ((guardTest v name).from_compile hfirst hb)
    exact ⟨_, bind_eq_ok.2 ⟨_, hfirst, bind_eq_ok.2 ⟨_, hall, rfl⟩⟩⟩

/-- A test of a name without a dot is one of the attribute and of what is stored of it. -/
theorem Tested.tests (hkeys : KeyNames.ofSchema entity = .ok keys)
    (hitem : entity.encodeItem v = .ok item) (hheld : keys.HeldBy v) {r : PutRequest}
    (hr : r.item = item) {tokens : List String × String} {name : String}
    (h : Tested entity v r.bindings tokens name) (hname : name ∈ keys.names)
    (hdot : '.' ∉ name.toList) : r.Tests (dotted tokens.1, tokens.2) name := by
  obtain ⟨w, hw⟩ := Option.isSome_iff_exists.1 (hheld name hname)
  obtain ⟨node, d, hfield, hd, hget⟩ := Schema.exists_get?_of_encodeItem hkeys hitem hname hw
  obtain ⟨node', d', hnode', hd', hbound⟩ := h.value
  -- the path leads to the field, so the value was encoded at the same node
  rw [Schema.resolve_of_field? hfield hdot] at hnode'
  cases hnode'
  rw [hw, Option.getD_some, hd] at hd'
  cases hd'
  have hnames := h.names
  rw [Path.segments_of_isTopLevel (Path.isTopLevel_iff.2 hdot)] at hnames
  obtain ⟨token, rest, hresolves, hrest, htokens⟩ := List.forall₂_cons_right_iff.1 hnames
  cases hrest
  have hdotted : dotted tokens.1 = token := by
    rw [htokens]
    rfl
  refine ⟨?_, ?_, h.isValue, d, hr ▸ hget, hbound⟩
  · rw [hdotted]
    exact h.isName token (htokens ▸ List.mem_cons_self)
  · rw [hdotted]
    exact hresolves

/-- A test of a name with a dot has a dot in its text. -/
theorem Tested.dot_mem {b : Bindings} {tokens : List String × String} {name : String}
    (h : Tested entity v b tokens name) (hdot : '.' ∈ name.toList) :
    '.' ∈ (testedText tokens).toList := by
  rw [testedText, dot_mem_comparison]
  refine .inl (dot_mem_dotted ?_)
  rw [h.names.length_eq]
  exact Path.two_le_length_segments hdot

/-- No guard has a dot in its text. -/
theorem PutRequest.Guards.dot_notMem {r : PutRequest} (h : r.Guards keys) {text : String}
    (htext : r.condition = some text) : '.' ∉ text.toList := by
  obtain ⟨tests, htests, hcondition⟩ := h
  rw [htext] at hcondition
  cases hcondition
  rw [dot_mem_guardText]
  rintro ⟨part, hpart, hdot⟩
  obtain ⟨tokens, htokens, rfl⟩ := List.mem_map.1 hpart
  obtain ⟨k, hk⟩ := List.getElem?_of_mem htokens
  obtain ⟨name, -, htest⟩ := exists_getElem?_of_forall₂ htests hk
  rcases dot_mem_comparison.1 hdot with hdot | hdot
  · exact htest.isName.notMem (by decide) (by decide) hdot
  · exact htest.isValue.notMem (by decide) (by decide) hdot

/-- **What a guard compares.** A put of an item that has its key attributes, guarded and without a
condition of its own, is built, and its condition is that each of them differs from what the item
has under it, if and only if none of their names has a dot. The hypotheses say that the draft asks
for a guard and that nothing else decides: the item can be stored, it has its keys, and there is
no condition of the application's own. That the put is built is not among them, so from right to
left it is shown. -/
theorem PutDraft.guards_iff (hentity : t.entity d.entity = .ok entity)
    (hkeys : KeyNames.ofSchema entity = .ok keys) (hguarded : d.guarded = true)
    (hcondition : d.condition = none) (hv : d.item = some v)
    (hitem : entity.encodeItem v = .ok item) (hheld : keys.HeldBy v) :
    (∃ r, d.build t = .ok r ∧ r.item = item ∧ r.Guards keys) ↔
      ∀ name ∈ keys.names, '.' ∉ name.toList := by
  have hbuild := @PutDraft.build_guarded_eq_ok t d entity keys v item hentity hkeys hguarded
    hcondition hv hitem hheld
  have hstart : Progress.start.bindings.From (ValueOrigin.Before Progress.start.position) :=
    from_empty _
  constructor
  · rintro ⟨r, hr, -, hguards⟩ name hname hdot
    obtain ⟨texts, progress, hall, rfl⟩ := hbuild.1 hr
    obtain ⟨tests, rfl, htests⟩ := exists_tested_all hall hstart
    obtain ⟨k, hk⟩ := List.getElem?_of_mem hname
    obtain ⟨tokens, htokens, htested⟩ := exists_getElem?_of_forall₂ htests.flip hk
    refine hguards.dot_notMem rfl (dot_mem_guardText.2 ⟨testedText tokens, ?_, ?_⟩)
    · exact List.mem_map_of_mem (List.mem_of_getElem? htokens)
    · exact htested.dot_mem hdot
  · intro hdots
    obtain ⟨⟨texts, progress⟩, hall⟩ := exists_compileAll_guardTests hkeys hitem hheld
      (fun name hname => ⟨hname, hdots name hname⟩) hstart
    refine ⟨_, hbuild.2 ⟨texts, progress, hall, rfl⟩, rfl, ?_⟩
    obtain ⟨tests, rfl, htests⟩ := exists_tested_all hall hstart
    refine ⟨tests.map fun tokens => (dotted tokens.1, tokens.2), ?_, ?_⟩
    · have hmembers := (List.forall₂_and_left (p := (· ∈ keys.names)) _ _).2
        ⟨fun _ hname => hname, htests.flip⟩
      rw [List.forall₂_map_left_iff]
      refine hmembers.flip.imp fun tokens name ⟨hname, htested⟩ => ?_
      exact Tested.tests hkeys hitem hheld rfl htested hname (hdots name hname)
    · rw [List.map_map]
      rfl

end Puts

namespace Ledger

/-- The fields of an entry. The names of the two key attributes have the same letters. -/
def entryFields : List (String × Schema) :=
  [("p-k", .partitionKey .none (.ofKind .string)), ("pk", .sortKey .none (.ofKind .date)),
    ("note", .ofKind .string)]

/-- The fields of a leaf. The name of its key attribute is a path to another attribute. -/
def leafFields : List (String × Schema) :=
  [("a.b", .partitionKey .none (.ofKind .string)),
    ("a", .map .none [("b", .ofKind .string)])]

/-- A guarded put of an entry, dated in another time zone. -/
def newEntry : PutDraft :=
  { PutDraft.start "entries" with
    item := some (.map
      [("pk", .string "2024-01-01T00:30:00+01:00"), ("note", .string "rent"),
        ("p-k", .string "ada")])
    guarded := true }

/-- A guarded put of a leaf. -/
def newLeaf : PutDraft :=
  { PutDraft.start "leaves" with
    item := some (.map [("a.b", .string "x"), ("a", .map [("b", .string "y")])])
    guarded := true }

/-- The table of the entries. -/
def entries : Except Error Table :=
  (TableDeclaration.mk [("entries", entryFields)] []).build.map fun schema =>
    { schema, config := Shop.config .strict }

/-- The table of the leaves. -/
def leaves : Except Error Table :=
  (TableDeclaration.mk [("leaves", leafFields)] []).build.map fun schema =>
    { schema, config := Shop.config .strict }

/-- The guard of an entry compares both attributes with what is stored of them, the date in the
form it is stored in. -/
theorem newEntry_guards : ∃ t item r, entries = .ok t ∧ newEntry.build t = .ok r ∧
    r.item = item ∧ item.map (fun e => (e.1, e.2.string?)) =
      [("p-k", some "ada"), ("pk", some "2023-12-31T23:30:00.000Z"), ("note", some "rent")] ∧
    r.Guards ⟨"p-k", some "pk"⟩ := by
  obtain ⟨t, ht⟩ : ∃ t, entries = .ok t := ⟨_, rfl⟩
  have hentity : t.entity "entries" = .ok (.map .none entryFields) := by
    cases ht
    rfl
  have hrun : ((Schema.map .none entryFields).encodeItem
      (newEntry.item.getD .null)).toOption.map (fun item => item.map fun e => (e.1, e.2.string?)) =
      some [("p-k", some "ada"), ("pk", some "2023-12-31T23:30:00.000Z"),
        ("note", some "rent")] := by
    decide +kernel
  obtain ⟨item, hitem, hstored⟩ := exists_ok_of_toOption_map hrun
  have hkeys : KeyNames.ofSchema (.map .none entryFields) = .ok ⟨"p-k", some "pk"⟩ := by
    decide +kernel
  have hheld : (⟨"p-k", some "pk"⟩ : KeyNames).HeldBy (newEntry.item.getD .null) := by
    unfold KeyNames.HeldBy
    decide
  have hguards := PutDraft.guards_iff (d := newEntry) hentity hkeys rfl rfl rfl hitem hheld
  obtain ⟨r, hr, hsame, hguard⟩ := hguards.2 (by decide)
  exact ⟨t, item, r, ht, hr, hsame, hstored, hguard⟩

/-- **The guard of a leaf is about another attribute.** It compares the attribute inside the map
with the key of the leaf. Both attributes exist and hold strings, so the put is built and nothing
tells of the mistake. -/
theorem newLeaf_compares_other : ∃ t r, leaves = .ok t ∧ newLeaf.build t = .ok r ∧
    r.condition = some "#a.#b <> :a_b_0" ∧
    r.bindings.names = [("#a", "a"), ("#b", "b")] ∧ ¬ r.Guards ⟨"a.b", none⟩ := by
  obtain ⟨t, ht⟩ : ∃ t, leaves = .ok t := ⟨_, rfl⟩
  have hrun : ((leaves >>= fun t => newLeaf.build t).toOption.map fun r =>
      (r.condition, r.bindings.names)) =
      some (some "#a.#b <> :a_b_0", [("#a", "a"), ("#b", "b")]) := by
    decide +kernel
  obtain ⟨r, hbuild, hpair⟩ := exists_ok_of_toOption_map hrun
  obtain ⟨t', ht', hr⟩ := bind_eq_ok.1 hbuild
  rw [ht] at ht'
  cases ht'
  obtain ⟨hcondition, hnames⟩ := Prod.mk.inj hpair
  exact ⟨t, r, ht, hr, hcondition, hnames, fun h => h.dot_notMem hcondition (by decide)⟩

end Ledger

end ItemStore
