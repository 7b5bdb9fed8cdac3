import ItemStore.Proofs.Draft.ValueTokens
import ItemStore.Proofs.Expression.Acceptance
import ItemStore.Proofs.Schema.Descent

/-
What is compared is what is stored.

A value gets into the store in two ways: inside an item that is put, where it is encoded along
the schema of the item, and for itself, as the operand of a test or the source of an
assignment, where it is encoded with the node that its path resolves to. A filter finds what
was put only if the two come to the same descriptor. That the encodings agree is a fact about
descents. What is added here is that nothing happens to the descriptor on its way into the
tables: every value has a token to itself, so what was bound is what is found.

The encodings are those of `encode_item` in a put and of `encode` in the binding of operands.
-/
set_option autoImplicit false

namespace ItemStore

open Entries Bindings

/-- The operators that compare an attribute as a whole with each of their values. Membership is
among them, since it compares with each of its values, and a prefix is not. -/
def Operator.comparesWhole (operator : Operator) : Bool :=
  operator.isComparator || operator = .between || operator = .isIn

theorem Schema.operandNode_of_comparesWhole {operator : Operator}
    (h : operator.comparesWhole = true) (node : Schema) : node.operandNode operator = node := by
  cases operator <;> first | rfl | cases h

/-! ## Looking up one value -/

/-- The `k`-th value of a test is found under the `k`-th token. -/
theorem Leaf.BoundIn.exists_get? {schema node : Schema} {leaf : Leaf} {index : Nat}
    {b : Bindings} (h : leaf.BoundIn schema index b) (hnode : schema.resolve leaf.path = .ok node)
    {k : Nat} {v : Value} (hv : leaf.operand.values[k]? = some v) :
    ∃ token d, (leaf.operand.tokens leaf.path index)[k]? = some token ∧
      (node.operandNode leaf.operator).encode v = .ok d ∧ get? token b.values = some d := by
  obtain ⟨node', ds, hnode', hds, hbound⟩ := h
  rw [hnode] at hnode'
  cases hnode'
  obtain ⟨d, hd, hencode⟩ := exists_getElem?_of_forall₂ hds hv
  obtain ⟨token, htoken, hget⟩ := exists_getElem?_of_forall₂ hbound.flip hd
  exact ⟨token, d, htoken, hencode, hget⟩

/-- One assignment compiles unless its attribute belongs to the key. -/
theorem exists_compileUpdate_set {s node : Schema} {p : Path} {w : Value} {d : Descriptor}
    (hnode : s.resolve p = .ok node) (hw : node.encode w = .ok d)
    (hkey : ((s.field? p.root).map Schema.isKey).getD false = false) :
    ∃ update, compileUpdate s [⟨p, .set w⟩] = .ok update := by
  have hadd : ∃ clauses, UpdateClauses.empty.add s 0 [] ⟨p, .set w⟩ = .ok clauses := by
    unfold UpdateClauses.add
    dsimp only
    rw [if_neg List.not_mem_nil, hnode]
    dsimp only [bind, Except.bind]
    rw [hkey, if_neg Bool.false_ne_true, hw]
    -- the tables have no values yet, so nothing is in the way of the token
    dsimp only [bind, Except.bind]
    rw [UpdateClauses.assign, bindValue_of_get?_eq_none d rfl]
    exact ⟨_, rfl⟩
  obtain ⟨clauses, hclauses⟩ := hadd
  refine ⟨{ expression := clauses.expression, bindings := clauses.bindings }, ?_⟩
  exact bind_eq_ok.2 ⟨clauses, bind_eq_ok.2 ⟨clauses, hclauses, rfl⟩, rfl⟩

/-! ## The agreement -/

/-- Whatever binds the value `w` of the attribute at `p` binds `stored`. It has a part for tests
and one for actions, as these are bound by different compilers. -/
structure BoundAs (s node : Schema) (p : Path) (w : Value) (stored : Descriptor) : Prop where
  /-- Every test among the conditions of an operation that compares the attribute with the
  value. -/
  test : ∀ (actions : List Action) (b : Bindings), Opening s actions b →
    ∀ (conditions : List (Schema × Condition)) (start : Nat) (texts : List String)
      (progress : Progress),
      compileInTurn conditions { position := start, bindings := b } = .ok (texts, progress) →
      ∀ (j : Nat) (leaf : Leaf), (testsInTurn conditions)[j]? = some (s, leaf) → leaf.path = p →
        leaf.operator.comparesWhole = true → ∀ k : Nat, leaf.operand.values[k]? = some w →
          ∃ token, (leaf.operand.tokens p (start + j))[k]? = some token ∧
            get? token progress.bindings.values = some stored
  /-- Every assignment of the value among the actions of an update. -/
  assignment : ∀ (actions : List Action) (update : Compiled),
    compileUpdate s actions = .ok update → ∀ k : Nat, actions[k]? = some ⟨p, .set w⟩ →
      get? ((ValueOrigin.action k).token p) update.bindings.values = some stored
  /-- There are such tests: one with an operand that fits compiles wherever it stands. -/
  exists_test : ∀ (actions : List Action) (b : Bindings), Opening s actions b →
    ∀ (start : Nat) (operator : Operator) (operand : Operand), Fits node operator operand →
      ∃ texts progress, compileInTurn [(s, .test p operator operand)]
        { position := start, bindings := b } = .ok (texts, progress)
  /-- There are such assignments, unless the attribute belongs to the key. -/
  exists_assignment : ((s.field? p.root).map Schema.isKey).getD false = false →
    ∃ update, compileUpdate s [⟨p, .set w⟩] = .ok update

namespace Schema

/-- What is bound for a value is the encoding of the value with the node of its path. -/
theorem boundAs_of_encode {s node : Schema} {p : Path} {w : Value} {stored : Descriptor}
    (hnode : s.resolve p = .ok node) (hw : node.encode w = .ok stored) :
    BoundAs s node p w stored := by
  refine ⟨?_, ?_, ?_, fun hkey => exists_compileUpdate_set hnode hw hkey⟩
  · rintro actions b hopening conditions start texts progress h j leaf hj rfl hwhole k hk
    obtain ⟨texts', hleaves⟩ := compileInTurn_eq_ok h
    have hbound := boundIn_compileLeaves hleaves (hopening.from_before start) hj
    obtain ⟨token, d, htoken, hencode, hget⟩ := hbound.exists_get? hnode hk
    -- the node of the value is the node of the path, so the encodings are the same
    rw [operandNode_of_comparesWhole hwhole, hw] at hencode
    cases hencode
    exact ⟨token, htoken, hget⟩
  · intro actions update h k hk
    obtain ⟨node', hnode', hsent⟩ := (boundIn_compileUpdate h).2 k _ hk
    rw [hnode] at hnode'
    cases hnode'
    obtain ⟨d, hd, hget⟩ := hsent _ rfl
    rw [hw] at hd
    cases hd
    exact hget
  · intro actions b hopening start operator operand hfits
    have hfrom : b.From (ValueOrigin.Before start) := hopening.from_before start
    have hordered := Condition.wellFormed_test hnode hfits
    obtain ⟨⟨text, progress⟩, hcompile⟩ : ∃ r, (Condition.test p operator operand).compile s
        { position := start, bindings := b } = .ok r :=
      Condition.exists_compile_of_wellFormed hfrom hordered
    exact ⟨[text], progress, bind_eq_ok.2 ⟨(text, progress), hcompile, rfl⟩⟩

end Schema

/-! ## Putting -/

/-- Whatever puts the value `v` stores `stored` at the path. It quantifies over tables and drafts,
so that it is a fact about the value and the entity alone. -/
structure PutAs (s : Schema) (v : Value) (p : Path) (stored : Descriptor) : Prop where
  /-- Every put of the value, whatever else it asks for. -/
  put : ∀ (t : Table) (draft : PutDraft) (r : PutRequest), t.entity draft.entity = .ok s →
    draft.item = some v → draft.build t = .ok r → (Descriptor.map r.item).at? p = some stored
  /-- There are such puts: one that asks for nothing else, if the schema is that of items. -/
  exists_put : ∀ (m : Modifiers) (fields : List (String × Schema)), s = .map m fields →
    ∀ (t : Table) (entity : String), t.entity entity = .ok s →
      ∃ r, PutDraft.build t { PutDraft.start entity with item := some v } = .ok r

/-- A put stores its item as it is encoded. -/
theorem PutDraft.item_of_build {t : Table} {s : Schema} {draft : PutDraft} {v : Value}
    {d : Descriptor} {r : PutRequest} (hentity : t.entity draft.entity = .ok s)
    (hitem : draft.item = some v) (h : s.encode v = .ok d) (hr : draft.build t = .ok r) :
    d = .map r.item := by
  obtain ⟨entity, hentity', hr⟩ := bind_eq_ok.1 hr
  rw [hentity] at hentity'
  cases hentity'
  obtain ⟨item, hencode, hr⟩ := bind_eq_ok.1 hr
  obtain ⟨condition, -, hr⟩ := bind_eq_ok.1 hr
  obtain ⟨⟨text, progress⟩, -, he⟩ := bind_eq_ok.1 hr
  cases he
  rw [hitem, Option.getD_some] at hencode
  obtain ⟨d', hd', hencode⟩ := bind_eq_ok.1 hencode
  rw [h] at hd'
  cases hd'
  -- only a map is an item
  cases d with
  | map item' =>
    cases hencode
    rfl
  | _ => cases hencode

/-- A put that asks for nothing else succeeds as soon as its item is encoded. -/
theorem PutDraft.exists_build {t : Table} {s : Schema} {entity : String} {v : Value} {item : Item}
    (hentity : t.entity entity = .ok s) (h : s.encode v = .ok (.map item)) :
    ∃ r, PutDraft.build t { PutDraft.start entity with item := some v } = .ok r := by
  have hencode : s.encodeItem v = .ok item := bind_eq_ok.2 ⟨.map item, h, rfl⟩
  let r : PutRequest :=
    { table := t.name, item, condition := none, bindings := Progress.start.bindings,
      report := .none }
  refine ⟨r, ?_⟩
  refine bind_eq_ok.2 ⟨s, hentity, bind_eq_ok.2 ⟨item, hencode, ?_⟩⟩
  exact bind_eq_ok.2 ⟨none, rfl, bind_eq_ok.2 ⟨(none, .start), rfl, rfl⟩⟩

namespace Schema

/-- What is put under a path is what the path leads to in the encoded value. -/
theorem putAs_of_encode {s : Schema} {v w : Value} {d stored : Descriptor} {p : Path}
    (h : s.encode v = .ok d) (hw : v.at? p = some w) (hstored : d.at? p = some stored) :
    PutAs s v p stored := by
  refine ⟨?_, ?_⟩
  · intro t draft r hentity hitem hr
    rw [← PutDraft.item_of_build hentity hitem h hr]
    exact hstored
  · rintro m fields rfl t entity hentity
    -- a value with something below it is not null, so it was encoded as a map
    have hv : v.isNull = false := Value.isNull_of_at? hw
    obtain ⟨entries, item, rfl, -, rfl⟩ := (encodeAt_map_eq_ok hv).1 h
    exact PutDraft.exists_build hentity h

/-- **What is compared is what is stored.** Let a path lead into a schema and, in a value that was
encoded, to a part. Then it leads into the encoded value as well, and what it finds there is the
encoding of the part with the node of the path. That is also what a put of the value stores under
the path, and what every comparison of the attribute with the part, and every assignment of the
part to it, sends. The value is asked to be encoded as a whole and not the part by itself: that
the part then has an encoding, and that it is found at the same path, is the first thing that is
said. The two structures say where this encoding turns up, on the side of what is stored and on
the side of what is sent. -/
theorem encoded_part_is_bound {s node : Schema} {v w : Value} {d : Descriptor} {p : Path}
    (h : s.encode v = .ok d) (hnode : s.resolve p = .ok node) (hw : v.at? p = some w) :
    ∃ stored, d.at? p = some stored ∧ node.encode w = .ok stored ∧
      PutAs s v p stored ∧ BoundAs s node p w stored := by
  obtain ⟨stored, hstored, hencode⟩ := exists_at?_of_encode h hnode hw
  exact ⟨stored, hstored, hencode, putAs_of_encode h hw hstored, boundAs_of_encode hnode hencode⟩

end Schema

/-- The schema of the orders of the shop. -/
def Shop.orders : Schema := .map .none Shop.orderFields

/-- An order of two items. -/
def Shop.twoItems : Value :=
  .map
    [("pk", .string "u"), ("sk", .string "order#1"), ("total", .number 12.5),
      ("items", .list
        [.map [("sku", .string "pen"), ("qty", .number 1)],
          .map [("qty", .number 2.5), ("sku", .string "ink"), ("gift", .bool true)]])]

/-- The amount of the second item is looked for as it is stored, whichever way the position
is spelled. -/
theorem Shop.twoItems_bound : ∃ d, Shop.orders.encode Shop.twoItems = .ok d ∧
    ∀ p ∈ ([⟨"items.[1].qty"⟩, ⟨"items.1.qty"⟩] : List Path),
      ∃ stored, d.at? p = some stored ∧ stored.number? = some "2.5" ∧
        PutAs Shop.orders Shop.twoItems p stored ∧
        BoundAs Shop.orders Shop.number p (.number 2.5) stored := by
  have hrun : (Shop.orders.encode Shop.twoItems).toOption.map
      (fun d => ([⟨"items.[1].qty"⟩, ⟨"items.1.qty"⟩] : List Path).map fun p =>
        (d.at? p).bind Descriptor.number?) = some [some "2.5", some "2.5"] := by
    decide +kernel
  obtain ⟨d, h, hnumbers⟩ := exists_ok_of_toOption_map hrun
  refine ⟨d, h, ?_⟩
  intro p hp
  have hnumber : (d.at? p).bind Descriptor.number? = some "2.5" := by
    have hall : ∀ number ∈ [some "2.5", some "2.5"], number = some "2.5" := by decide
    rw [← hnumbers] at hall
    exact hall _ (List.mem_map_of_mem hp)
  have hnode : Shop.orders.resolve p = .ok Shop.number := by
    rcases List.mem_pair.1 hp with rfl | rfl
    · rfl
    · rfl
  have hw : Shop.twoItems.at? p = some (.number 2.5) := by
    rcases List.mem_pair.1 hp with rfl | rfl
    · rfl
    · rfl
  obtain ⟨stored, hstored, -, hput, hbound⟩ := Schema.encoded_part_is_bound h hnode hw
  rw [hstored] at hnumber
  exact ⟨stored, hstored, hnumber, hput, hbound⟩

end ItemStore
