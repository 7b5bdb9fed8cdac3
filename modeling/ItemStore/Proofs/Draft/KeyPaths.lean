import ItemStore.Draft.Build
import ItemStore.Memory.Shop
import ItemStore.Proofs.Outcome
import ItemStore.Proofs.Schema.Combined
import ItemStore.Proofs.Schema.Descent

/-
What a query may test.

A key condition is for key attributes and a filter is for anything else. The check goes by the
names of one partition key and one sort key, whereas the combined schema of a table may well have
more fields that are marked as keys: entities need not share their keys. For a key condition that
makes no difference, since the two names are names of key fields. A filter is only kept from the
two, so a further key field passes. Filters are kept from all key fields exactly where there is no
further one that a path could reach.

The check is `check_key_paths`, and the names are those of `KeyAttributes`.
-/
set_option autoImplicit false

namespace ItemStore

/-! ## Key fields -/

/-- The names of the fields that are marked as partition or sort keys. It has all of them, whereas
`KeyAttributes` keeps the first of each mark. -/
def Schema.keyFields (s : Schema) : List String :=
  ((s.fields?.getD []).filter fun field => field.2.isKey).map Prod.fst

theorem Schema.mem_keyFields {s : Schema} {name : String} :
    name ∈ s.keyFields ↔ ∃ node, (name, node) ∈ s.fields?.getD [] ∧ node.isKey = true := by
  simp [keyFields]

theorem Schema.isKey_of_isPartitionKey {s : Schema} (h : s.isPartitionKey = true) :
    s.isKey = true := by
  cases s <;> first | rfl | cases h

theorem Schema.isKey_of_isSortKey {s : Schema} (h : s.isSortKey = true) : s.isKey = true := by
  cases s <;> first | rfl | cases h

/-- The first field with a mark of a key is a key field. -/
theorem Schema.mem_keyFields_of_findSome? {s : Schema} {mark : Schema → Bool} {name : String}
    (hmark : ∀ node, mark node = true → node.isKey = true)
    (h : ((s.fields?.getD []).findSome? fun field =>
      if mark field.2 then some field.1 else none) = some name) : name ∈ s.keyFields := by
  obtain ⟨field, hmem, hfield⟩ := List.exists_of_findSome?_eq_some h
  by_cases hmarked : mark field.2 = true
  · rw [if_pos hmarked] at hfield
    cases hfield
    exact mem_keyFields.2 ⟨field.2, hmem, hmark field.2 hmarked⟩
  · rw [if_neg hmarked] at hfield
    cases hfield

/-- The two names that the check goes by belong to key fields. -/
theorem KeyNames.mem_keyFields_of_has {s : Schema} {keys : KeyNames} (h : ofSchema s = .ok keys)
    {name : String} (hname : keys.has name = true) : name ∈ s.keyFields := by
  rw [ofSchema] at h
  split at h
  · next partition hfirst =>
    cases h
    rw [has, Bool.or_eq_true, decide_eq_true_iff, decide_eq_true_iff] at hname
    rcases hname with rfl | hsort
    · exact Schema.mem_keyFields_of_findSome? (fun _ => Schema.isKey_of_isPartitionKey) hfirst
    · exact Schema.mem_keyFields_of_findSome? (fun _ => Schema.isKey_of_isSortKey) hsort
  · cases h

/-! ## The check -/

/-- The paths that the filter tests. Every path that occurs counts, also inside groups and under a
negation. -/
def QueryDraft.filterPaths (d : QueryDraft) : List Path := (d.filter.map Condition.paths).getD []

/-- The paths that the key condition tests. It is taken apart in the same way as the filter. -/
def QueryDraft.keyPaths (d : QueryDraft) : List Path :=
  (d.keyCondition.map Condition.paths).getD []

theorem checkQueryPaths_eq_ok {schema : Schema} {c : Condition} {filter : Option Condition} :
    checkQueryPaths schema c filter = .ok () ↔ ∃ keys, KeyNames.ofSchema schema = .ok keys ∧
      (∀ p ∈ c.paths, keys.isKeyPath p = true) ∧
      ∀ p ∈ (filter.map Condition.paths).getD [], keys.has p.root = false := by
  rw [checkQueryPaths, bind_eq_ok]
  constructor
  · rintro ⟨keys, hkeys, h⟩
    refine ⟨keys, hkeys, ?_⟩
    split at h
    · cases h
    · next hkey =>
      split at h
      · cases h
      · next hfilter =>
        rw [List.find?_eq_none] at hkey hfilter
        refine ⟨fun p hp => ?_, fun p hp => Bool.eq_false_iff.2 (hfilter p hp)⟩
        simpa using hkey p hp
  · rintro ⟨keys, hkeys, hkey, hfilter⟩
    refine ⟨keys, hkeys, ?_⟩
    have hkey' : (c.paths.find? fun p => !keys.isKeyPath p) = none := by
      rw [List.find?_eq_none]
      intro p hp
      simp [hkey p hp]
    have hfilter' : (((filter.map Condition.paths).getD []).find? fun p => keys.has p.root) =
        none := by
      rw [List.find?_eq_none]
      intro p hp
      simp [hfilter p hp]
    rw [hkey', hfilter']

/-! ## Building a query -/

/-- A query is built where it has a key condition, its conditions pass the check, and all that it
has compiles. -/
theorem QueryDraft.exists_build_iff {t : Table} {d : QueryDraft} :
    (∃ r, d.build t = .ok r) ↔ ∃ schema c k f selection, t.combined d.index = .ok schema ∧
      d.keyCondition = some c ∧ checkQueryPaths schema c d.filter = .ok () ∧
      c.compile schema .start = .ok k ∧ compileOptional schema d.filter k.2 = .ok f ∧
      compileSelection schema d.projection f.2.bindings = .ok selection := by
  constructor
  · rintro ⟨r, h⟩
    rw [build] at h
    obtain ⟨schema, hschema, h⟩ := bind_eq_ok.1 h
    cases hc : d.keyCondition with
    | none =>
      rw [hc] at h
      cases h
    | some c =>
      rw [hc] at h
      obtain ⟨⟨⟩, hcheck, h⟩ := bind_eq_ok.1 h
      obtain ⟨k, hk, h⟩ := bind_eq_ok.1 h
      obtain ⟨f, hf, h⟩ := bind_eq_ok.1 h
      obtain ⟨selection, hselection, -⟩ := bind_eq_ok.1 h
      exact ⟨schema, c, k, f, selection, hschema, rfl, hcheck, hk, hf, hselection⟩
  · rintro ⟨schema, c, k, f, selection, hschema, hc, hcheck, hk, hf, hselection⟩
    simp only [build, hschema, hc, hcheck, hk, hf, hselection, bind, Except.bind]
    exact ⟨_, rfl⟩

/-- A test whether an attribute is there compiles wherever there is such a field. -/
theorem Condition.exists_compile_exists {schema : Schema} {p : Path}
    (h : ∃ node, schema.resolve p = .ok node) (progress : Progress) :
    ∃ r, (test p .exists .none).compile schema progress = .ok r := by
  obtain ⟨node, hnode⟩ := h
  rw [compile, compileTest, hnode]
  exact ⟨_, rfl⟩

/-- A path that is the name of a key field leads to it. -/
theorem Schema.exists_resolve_of_mem_keyFields {s : Schema} {name : String}
    (h : name ∈ s.keyFields) (hdot : '.' ∉ name.toList) :
    ∃ node, s.resolve ⟨name⟩ = .ok node := by
  obtain ⟨node, hmem, -⟩ := mem_keyFields.1 h
  cases s with
  | map m fields =>
    obtain ⟨found, hfound⟩ := Entries.mem_keys_iff.1 (List.mem_map_of_mem (f := Prod.fst) hmem)
    exact ⟨found, resolve_of_field? hfound hdot⟩
  | _ => cases hmem

/-- The query with the same key condition and a filter that asks whether an attribute is there. It
is how a further key field is shown to pass: such a filter asks for nothing but that the path
exists. -/
def QueryDraft.probing (d : QueryDraft) (name : String) : QueryDraft :=
  { QueryDraft.start with
    index := d.index
    keyCondition := d.keyCondition
    filter := some (.test ⟨name⟩ .exists .none) }

/-- A filter may ask for any field whose name the check does not go by. -/
theorem QueryDraft.exists_build_probing {t : Table} {d : QueryDraft} {r : QueryRequest}
    (h : d.build t = .ok r) {schema : Schema} (hschema : t.combined d.index = .ok schema)
    {keys : KeyNames} (hkeys : KeyNames.ofSchema schema = .ok keys) {name : String}
    (hname : name ∈ schema.keyFields) (hdot : '.' ∉ name.toList) (hhas : keys.has name = false) :
    ∃ r', (d.probing name).build t = .ok r' := by
  obtain ⟨schema', c, k, -, -, hschema', hc, hcheck, hk, -, -⟩ := exists_build_iff.1 ⟨r, h⟩
  rw [hschema] at hschema'
  cases hschema'
  obtain ⟨keys', hkeys', hkey, -⟩ := checkQueryPaths_eq_ok.1 hcheck
  rw [hkeys] at hkeys'
  cases hkeys'
  have hcheck' : checkQueryPaths schema c (d.probing name).filter = .ok () := by
    refine checkQueryPaths_eq_ok.2 ⟨keys, hkeys, hkey, ?_⟩
    intro p hp
    cases List.mem_singleton.1 hp
    rw [Path.root_of_isTopLevel (Path.isTopLevel_iff.2 hdot)]
    exact hhas
  obtain ⟨f, hf⟩ := Condition.exists_compile_exists
    (Schema.exists_resolve_of_mem_keyFields hname hdot) k.2
  have hfilter : compileOptional schema (d.probing name).filter k.2 = .ok (some f.1, f.2) :=
    bind_eq_ok.2 ⟨f, hf, rfl⟩
  exact exists_build_iff.2 ⟨schema, c, k, _, (none, f.2.bindings), hschema, hc, hcheck', hk,
    hfilter, rfl⟩

/-! ## What queries test -/

/-- Filters are kept from all key fields exactly where the check goes by all of them. -/
theorem QueryDraft.filters_spare_iff {t : Table} {d : QueryDraft} {r : QueryRequest}
    (h : d.build t = .ok r) {schema : Schema} (hschema : t.combined d.index = .ok schema)
    {keys : KeyNames} (hkeys : KeyNames.ofSchema schema = .ok keys) :
    (∀ (d' : QueryDraft) r', d'.index = d.index → d'.keyCondition = d.keyCondition →
        d'.build t = .ok r' → ∀ p ∈ d'.filterPaths, p.root ∉ schema.keyFields) ↔
      ∀ name ∈ schema.keyFields, '.' ∉ name.toList → keys.has name = true := by
  constructor
  · intro hall name hname hdot
    by_contra hhas
    obtain ⟨r', hr'⟩ :=
      exists_build_probing h hschema hkeys hname hdot (Bool.eq_false_iff.2 hhas)
    refine hall (d.probing name) r' rfl rfl hr' ⟨name⟩ List.mem_cons_self ?_
    rwa [Path.root_of_isTopLevel (Path.isTopLevel_iff.2 hdot)]
  · intro hall d' r' hindex _ hr' p hp hmem
    obtain ⟨schema', c', -, -, -, hschema', -, hcheck', -, -, -⟩ := exists_build_iff.1 ⟨r', hr'⟩
    rw [hindex, hschema] at hschema'
    cases hschema'
    obtain ⟨keys', hkeys', -, hfilter'⟩ := checkQueryPaths_eq_ok.1 hcheck'
    rw [hkeys] at hkeys'
    cases hkeys'
    -- a root has no dot, so it is one of the names that the check goes by
    have hhas := hall p.root hmem p.dot_notMem_root
    rw [hfilter' p hp] at hhas
    cases hhas

/-- **What a query may test.** The paths of the key condition are names of key fields of the
combined schema, each a single segment. The filter names none of the two keys that the schema is
taken to have. It is kept from all key fields, whatever it is, exactly where no further one has a
name that is a path. The key condition and the filter are checked by the same two names, which is
enough for the former and not for the latter, so the parts are of different strength. The last one
speaks of all queries with this index and key condition, because a filter that happens to be
harmless says nothing of the check. -/
theorem QueryDraft.paths_of_build {t : Table} {d : QueryDraft} {r : QueryRequest}
    (h : d.build t = .ok r) : ∃ schema keys, t.combined d.index = .ok schema ∧
      KeyNames.ofSchema schema = .ok keys ∧
      (∀ p ∈ d.keyPaths, p.isTopLevel = true ∧ p.text ∈ schema.keyFields) ∧
      (∀ p ∈ d.filterPaths, keys.has p.root = false) ∧
      ((∀ (d' : QueryDraft) r', d'.index = d.index → d'.keyCondition = d.keyCondition →
          d'.build t = .ok r' → ∀ p ∈ d'.filterPaths, p.root ∉ schema.keyFields) ↔
        ∀ name ∈ schema.keyFields, '.' ∉ name.toList → keys.has name = true) := by
  obtain ⟨schema, c, -, -, -, hschema, hc, hcheck, -, -, -⟩ := exists_build_iff.1 ⟨r, h⟩
  obtain ⟨keys, hkeys, hkey, hfilter⟩ := checkQueryPaths_eq_ok.1 hcheck
  refine ⟨schema, keys, hschema, hkeys, ?_, hfilter, filters_spare_iff h hschema hkeys⟩
  intro p hp
  rw [keyPaths, hc] at hp
  obtain ⟨htop, hhas⟩ := Bool.and_eq_true_iff.1 (hkey p hp)
  rw [Path.root_of_isTopLevel htop] at hhas
  exact ⟨htop, KeyNames.mem_keyFields_of_has hkeys hhas⟩

namespace Shop

/-- The larger orders of a user, and items with a city. -/
def largeOrders : QueryDraft :=
  { QueryDraft.start with
    keyCondition := some (.group .and
      [.test ⟨"pk"⟩ .eq (.single (.string "ada")),
        .test ⟨"sk"⟩ .beginsWith (.single (.string "order#"))])
    filter := some (.group .or
      [.test ⟨"total"⟩ .gt (.single (.number 50)), .test ⟨"address.city"⟩ .exists .none]) }

/-- The entities of the shop share their keys, so no filter gets at them. -/
theorem largeOrders_paths : ∃ t r, table .strict = .ok t ∧ largeOrders.build t = .ok r ∧
    (∀ p ∈ largeOrders.keyPaths, p.isTopLevel = true ∧ p.text ∈ t.schema.combined.keyFields) ∧
    ∀ (d : QueryDraft) r', d.index = none → d.keyCondition = largeOrders.keyCondition →
      d.build t = .ok r' → ∀ p ∈ d.filterPaths, p.root ∉ t.schema.combined.keyFields := by
  obtain ⟨t, ht⟩ : ∃ t, table .strict = .ok t := ⟨_, rfl⟩
  have hrun : ((table .strict).toOption.bind fun t =>
      (largeOrders.build t).toOption.map fun _ => ()) = some () := by
    decide +kernel
  have hkeys : ((table .strict).toOption.map fun t =>
      (t.schema.combined.keyFields, KeyNames.ofSchema t.schema.combined)) =
        some (["pk", "sk"], .ok { partition := "pk", sort := some "sk" }) := by
    rfl
  rw [ht] at hrun hkeys
  obtain ⟨r, hr, -⟩ := exists_ok_of_toOption_map hrun
  obtain ⟨hfields, hnames⟩ := Prod.mk.inj (Option.some.inj hkeys)
  obtain ⟨schema, keys, hschema, hkeys', hkey, -, hall⟩ := QueryDraft.paths_of_build hr
  cases hschema
  rw [hnames] at hkeys'
  cases hkeys'
  refine ⟨t, r, ht, hr, hkey, hall.2 ?_⟩
  rw [hfields]
  decide

end Shop

namespace Market

/-- A user is found by one attribute and an order by another one. -/
def declaration : TableDeclaration :=
  .mk
    [("users", [("uid", .partitionKey .none (.ofKind .string))]),
      ("orders", [("oid", .partitionKey .none (.ofKind .string))])] []

/-- A user, filtered by the key of an order. -/
def userOfOrder : QueryDraft :=
  { QueryDraft.start with
    keyCondition := some (.test ⟨"uid"⟩ .eq (.single (.string "u")))
    filter := some (.test ⟨"oid"⟩ .eq (.single (.string "o"))) }

/-- The query is built although its filter tests a partition key. -/
theorem userOfOrder_filters_key : ∃ schema r, declaration.build = .ok schema ∧
    userOfOrder.build { schema, config := Shop.config .strict } = .ok r ∧
    ∃ p ∈ userOfOrder.filterPaths, p.root ∈ schema.combined.keyFields := by
  obtain ⟨schema, hschema⟩ : ∃ schema, declaration.build = .ok schema := ⟨_, rfl⟩
  have hrun : (declaration.build.toOption.bind fun schema =>
      (userOfOrder.build { schema, config := Shop.config .strict }).toOption.map fun _ =>
        schema.combined.keyFields) = some ["uid", "oid"] := by
    decide +kernel
  rw [hschema] at hrun
  obtain ⟨r, hr, hfields⟩ := exists_ok_of_toOption_map hrun
  refine ⟨schema, r, hschema, hr, ⟨"oid"⟩, List.mem_cons_self, ?_⟩
  rw [hfields]
  decide

end Market

end ItemStore
