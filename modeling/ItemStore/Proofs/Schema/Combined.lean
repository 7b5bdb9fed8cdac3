import ItemStore.Proofs.Schema.Congruence
import ItemStore.Proofs.Schema.Descent
import ItemStore.Table

/-
The combined schema of a table.

The fields of all entities are put together, one entity after the other. A field that is there
already stays as it was declared first, and the later declaration only has to be the same; so of a
field that several entities share, the combined schema may have the fields inside in another order
than one of them. What holds of the outcome is said in both directions: every field of an entity
is kept in a form that is declared alike, and every field that is there is that of some entity.
-/
set_option autoImplicit false

namespace ItemStore

open Entries

/-! ## Putting fields together -/

/-- What becomes of fields that others are added to. It is said of any fields on the left, as the
fields of each entity are added to what those before it have left. -/
structure CombinesTo (before added after : List (String × Schema)) : Prop where
  /-- Nothing is taken away. -/
  grows : Grows before after
  /-- No name is repeated. -/
  nodup : (keys before).Nodup → (keys after).Nodup
  /-- What is added is there, maybe as it was declared before. -/
  kept : ∀ f ∈ added, ∃ s, get? f.1 after = some s ∧ (s = f.2 ∨ s.same f.2 = true)
  /-- There is nothing else. -/
  origin : ∀ name s, get? name after = some s → get? name before = some s ∨ (name, s) ∈ added

theorem CombinesTo.nil (fields : List (String × Schema)) : CombinesTo fields [] fields where
  grows := .refl fields
  nodup := id
  kept := fun _ hf => absurd hf List.not_mem_nil
  origin := fun _ _ hs => .inl hs

theorem CombinesTo.trans {before added between added' after : List (String × Schema)}
    (h : CombinesTo before added between) (h' : CombinesTo between added' after) :
    CombinesTo before (added ++ added') after where
  grows := h.grows.trans h'.grows
  nodup := fun hnodup => h'.nodup (h.nodup hnodup)
  kept := by
    intro f hf
    rcases List.mem_append.1 hf with hf | hf
    · obtain ⟨s, hs, hsame⟩ := h.kept f hf
      exact ⟨s, h'.grows _ _ hs, hsame⟩
    · exact h'.kept f hf
  origin := by
    intro name s hs
    rcases h'.origin name s hs with hs | hs
    · rcases h.origin name s hs with hs | hs
      · exact .inl hs
      · exact .inr (List.mem_append_left _ hs)
    · exact .inr (List.mem_append_right _ hs)

/-- A field that is there already and was declared the same. -/
theorem CombinesTo.shared {fields : List (String × Schema)} {name : String} {s node : Schema}
    (hs : get? name fields = some s) (hsame : s.same node = true) :
    CombinesTo fields [(name, node)] fields where
  grows := .refl fields
  nodup := id
  kept := by
    intro f hf
    rw [List.mem_singleton.1 hf]
    exact ⟨s, hs, .inr hsame⟩
  origin := fun _ _ h => .inl h

/-- A field with a new name. -/
theorem CombinesTo.new {fields : List (String × Schema)} {name : String} (node : Schema)
    (hname : get? name fields = none) :
    CombinesTo fields [(name, node)] (fields ++ [(name, node)]) := by
  have hmem : name ∉ keys fields := get?_eq_none_iff.1 hname
  have hget : ∀ key, get? key (fields ++ [(name, node)]) =
      if key = name then some node else get? key fields := by
    intro key
    rw [← insert_of_notMem hmem, get?_insert]
  refine ⟨?_, ?_, ?_, ?_⟩
  · intro key s hs
    rw [hget, if_neg ?_, hs]
    rintro rfl
    rw [hname] at hs
    cases hs
  · intro hnodup
    rw [keys, List.map_append, List.nodup_append]
    refine ⟨hnodup, List.nodup_cons.2 ⟨List.not_mem_nil, List.nodup_nil⟩, ?_⟩
    rintro key hkey key' hkey' rfl
    rw [List.mem_singleton.1 hkey'] at hkey
    exact hmem hkey
  · intro f hf
    rw [List.mem_singleton.1 hf]
    exact ⟨node, by rw [hget, if_pos rfl], .inl rfl⟩
  · intro key s hs
    rw [hget] at hs
    split at hs
    · next hkey =>
      cases hs
      rw [hkey]
      exact .inr List.mem_cons_self
    · exact .inl hs

theorem combinesTo_of_combineFields {fields before after : List (String × Schema)}
    (h : combineFields before fields = .ok after) : CombinesTo before fields after := by
  induction fields generalizing before with
  | nil =>
    cases h
    exact .nil _
  | cons f fields ih =>
    obtain ⟨name, node⟩ := f
    rw [combineFields] at h
    split at h
    · next s hs =>
      split at h
      · next hsame => exact (CombinesTo.shared hs hsame).trans (ih h)
      · cases h
    · next hname => exact (CombinesTo.new node hname).trans (ih h)

theorem combinesTo_of_combineAll {entities : List (String × Schema)}
    {before after : List (String × Schema)} (h : combineAll before entities = .ok after) :
    CombinesTo before (entities.flatMap fun e => e.2.fields?.getD []) after := by
  induction entities generalizing before with
  | nil =>
    cases h
    exact .nil _
  | cons e entities ih =>
    obtain ⟨name, entity⟩ := e
    obtain ⟨between, hfields, h⟩ := bind_eq_ok.1 h
    rw [List.flatMap_cons]
    exact (combinesTo_of_combineFields hfields).trans (ih h)

/-! ## Building under names -/

/-- Things that are built one after the other, each under a name of its own. It takes names that are
not repeated, and that each of them builds. -/
theorem eq_ok_iff_of_named {α β : Type} {build : α → Except Error β} {Good : α → Prop}
    {form : α → β}
    {go : List String → List (String × α) → Except Error (List (String × β))}
    (hnil : ∀ seen, go seen [] = .ok [])
    (hcons : ∀ seen name a rest, go seen ((name, a) :: rest) =
      if name ∈ seen then .error (.duplicateFieldName name)
      else build a >>= fun first => go (name :: seen) rest >>= fun built =>
        .ok ((name, first) :: built))
    {declared : List (String × α)}
    (hbuild : ∀ e ∈ declared, ∀ b, build e.2 = .ok b ↔ Good e.2 ∧ b = form e.2)
    {seen : List String} {built : List (String × β)} :
    go seen declared = .ok built ↔ ((keys declared).Nodup ∧ (∀ name ∈ keys declared, name ∉ seen)) ∧
      (∀ e ∈ declared, Good e.2) ∧ built = declared.map fun e => (e.1, form e.2) := by
  induction declared generalizing seen built with
  | nil =>
    rw [hnil]
    simp [keys, eq_comm]
  | cons e declared ih =>
    obtain ⟨name, a⟩ := e
    obtain ⟨hfirst, hrest⟩ := List.forall_mem_cons.1 hbuild
    have hkeys : keys ((name, a) :: declared) = name :: keys declared := rfl
    rw [hcons, hkeys, List.nodup_cons, List.forall_mem_cons, List.forall_mem_cons, List.map_cons]
    by_cases hname : name ∈ seen
    · rw [if_pos hname]
      simp [hname]
    · rw [if_neg hname]
      simp only [bind_eq_ok, hfirst, ih hrest]
      constructor
      · rintro ⟨_, ⟨hgood, rfl⟩, _, ⟨⟨hnodup, hseen⟩, hall, rfl⟩, he⟩
        cases he
        have hnew : name ∉ keys declared := fun hmem => hseen name hmem List.mem_cons_self
        exact ⟨⟨⟨hnew, hnodup⟩, hname, fun n hn hmem => hseen n hn (List.mem_cons_of_mem _ hmem)⟩,
          ⟨hgood, hall⟩, rfl⟩
      · rintro ⟨⟨⟨hnew, hnodup⟩, -, hseen⟩, ⟨hgood, hall⟩, rfl⟩
        refine ⟨_, ⟨hgood, rfl⟩, _, ⟨⟨hnodup, ?_⟩, hall, rfl⟩, rfl⟩
        intro n hn hmem
        rcases List.mem_cons.1 hmem with rfl | hmem
        · exact hnew hn
        · exact hseen n hn hmem

theorem buildEntities_eq_ok_iff {declared : List (String × List (String × Schema))}
    {entities : List (String × Schema)} : buildEntities [] declared = .ok entities ↔
      (keys declared).Nodup ∧ (∀ e ∈ declared, (Schema.map .none e.2).repeatedName? = none) ∧
        entities = declared.map fun e => (e.1, .map .none e.2) := by
  have hnil : ∀ seen, buildEntities seen [] = .ok [] := fun _ => by rw [buildEntities]
  have hcons : ∀ seen name fields rest, buildEntities seen ((name, fields) :: rest) =
      if name ∈ seen then .error (.duplicateFieldName name)
      else (Schema.map .none fields).validate >>= fun first =>
        buildEntities (name :: seen) rest >>= fun built => .ok ((name, first) :: built) := by
    intro seen name fields rest
    rw [buildEntities]
    split <;> rfl
  have hbuild : ∀ e ∈ declared, ∀ s, (Schema.map .none e.2).validate = .ok s ↔
      (Schema.map .none e.2).repeatedName? = none ∧ s = .map .none e.2 :=
    fun _ _ _ => Schema.validate_eq_ok_iff
  have hnamed := @eq_ok_iff_of_named _ _ (fun fields => (Schema.map .none fields).validate)
    (fun fields => (Schema.map .none fields).repeatedName? = none) (.map .none) _ hnil hcons
    declared hbuild
  rw [hnamed]
  simp

/-- Entities have different names, and each is a map without repeated names inside. -/
theorem entities_of_build {declared : List (String × List (String × Schema))}
    {entities : List (String × Schema)} (h : buildEntities [] declared = .ok entities) :
    (keys entities).Nodup ∧
      ∀ e ∈ entities, ∃ fields, e.2 = .map .none fields ∧ e.2.repeatedName? = none := by
  obtain ⟨hnodup, hbuilds, rfl⟩ := buildEntities_eq_ok_iff.1 h
  constructor
  · simpa [keys, Function.comp_def] using hnodup
  · intro e he
    obtain ⟨d, hd, rfl⟩ := List.mem_map.1 he
    exact ⟨d.2, rfl, hbuilds d hd⟩

/-- A field among those of all entities is right below one of them, and repeats no name inside. -/
theorem exists_entity_of_mem {entities : List (String × Schema)}
    (hmaps : ∀ e ∈ entities, ∃ fields, e.2 = .map .none fields ∧ e.2.repeatedName? = none)
    {segment : String} {node : Schema}
    (h : (segment, node) ∈ entities.flatMap fun e => e.2.fields?.getD []) :
    node.repeatedName? = none ∧ ∃ e ∈ entities, e.2.step? segment = some node := by
  obtain ⟨⟨name, s⟩, hmem, hfield⟩ := List.mem_flatMap.1 h
  obtain ⟨own, hown, hnames⟩ := hmaps (name, s) hmem
  dsimp only at hown hnames hfield
  subst hown
  obtain ⟨hdistinct, -, hinside⟩ := Schema.repeatedNameAmong?_eq_none hnames
  exact ⟨hinside _ hfield, _, hmem, get?_of_mem hdistinct hfield⟩

theorem TableSchema.entity_eq_ok {t : TableSchema} {name : String} {s : Schema} :
    t.entity name = .ok s ↔ get? name t.entities = some s := by
  rw [entity]
  cases hget : get? name t.entities with
  | none => simp
  | some s' => simp

/-! ## The outcome -/

/-- Every node right below the second schema is right below the first one as well, declared alike.
Only the first step is spoken of; below it the nodes are alike, and alike nodes need no further
condition. -/
def Schema.Covers (s entity : Schema) : Prop :=
  ∀ segment node, entity.step? segment = some node →
    ∃ node', s.step? segment = some node' ∧ Schema.Alike node node'

/-- The combined schema of a table has the fields of all entities and no others. Both directions
are in it, since what an item may contain and what a path may name are two different questions. -/
structure TableSchema.Combines (t : TableSchema) : Prop where
  entity : ∀ name s, t.entity name = .ok s →
    ∃ fields, s = .map .none fields ∧ s.repeatedName? = none
  combined : ∃ fields, t.combined = .map .none fields ∧ (keys fields).Nodup
  covers : ∀ name s, t.entity name = .ok s → t.combined.Covers s
  origin : ∀ segment node, t.combined.step? segment = some node →
    ∃ name s, t.entity name = .ok s ∧ s.step? segment = some node

/-- **Combining.** Whatever table is built, its combined schema is that of its entities. It is
where all that the following says of tables comes from. -/
theorem TableDeclaration.combines_of_build {declaration : TableDeclaration} {t : TableSchema}
    (h : declaration.build = .ok t) : t.Combines := by
  obtain ⟨declared, indexes⟩ := declaration
  rw [build] at h
  obtain ⟨entities, hentities, h⟩ := bind_eq_ok.1 h
  obtain ⟨built, -, h⟩ := bind_eq_ok.1 h
  obtain ⟨fields, hfields, he⟩ := bind_eq_ok.1 h
  cases he
  obtain ⟨hnodup, hmaps⟩ := entities_of_build hentities
  have hcombines := combinesTo_of_combineAll hfields
  have hentity : ∀ name s, (TableSchema.mk entities built (.map .none fields)).entity name = .ok s →
      (name, s) ∈ entities := fun name s hs => mem_of_get? (TableSchema.entity_eq_ok.1 hs)
  -- what is there is a field of some entity, and so it repeats no name either
  have horigin : ∀ segment node, get? segment fields = some node → node.repeatedName? = none ∧
      ∃ e ∈ entities, e.2.step? segment = some node := by
    intro segment node hnode
    rcases hcombines.origin segment node hnode with hnone | hadded
    · cases hnone
    · exact exists_entity_of_mem hmaps hadded
  refine ⟨?_, ⟨fields, rfl, hcombines.nodup List.nodup_nil⟩, ?_, ?_⟩
  · intro name s hs
    exact hmaps (name, s) (hentity name s hs)
  · intro name s hs segment node hnode
    have hmem := hentity name s hs
    obtain ⟨own, hown, hnames⟩ := hmaps (name, s) hmem
    dsimp only at hown hnames
    subst hown
    have hfield : (segment, node) ∈ own := mem_of_get? hnode
    have hadded : (segment, node) ∈ entities.flatMap fun e => e.2.fields?.getD [] :=
      List.mem_flatMap.2 ⟨_, hmem, hfield⟩
    obtain ⟨kept, hkept, hsame⟩ := hcombines.kept _ hadded
    refine ⟨kept, hkept, ?_⟩
    have hinside : kept.repeatedName? = none := (horigin segment kept hkept).1
    rcases hsame with rfl | hsame
    · exact .refl hinside
    · exact (Schema.alike_of_same hinside hsame).symm
  · intro segment node hnode
    obtain ⟨-, e, hmem, hfield⟩ := horigin segment node hnode
    exact ⟨e.1, e.2, TableSchema.entity_eq_ok.2 (get?_of_mem hnodup hmem), hfield⟩

/-! ## Paths -/

namespace Schema

/-- A schema that covers another one leads its paths to alike nodes. -/
theorem Covers.resolve {s entity node : Schema} (h : s.Covers entity) {p : Path}
    (hnode : entity.resolve p = .ok node) :
    ∃ node', s.resolve p = .ok node' ∧ Alike node node' := by
  rw [resolve_eq_ok, resolve?_eq] at hnode
  obtain ⟨child, hchild, hnode⟩ := Option.bind_eq_some_iff.1 hnode
  obtain ⟨child', hchild', halike⟩ := h _ _ hchild
  obtain ⟨node', hnode', hlike⟩ := halike.descend? hnode
  refine ⟨node', ?_, hlike⟩
  rw [resolve_eq_ok, resolve?_eq]
  exact Option.bind_eq_some_iff.2 ⟨child', hchild', hnode'⟩

end Schema

namespace TableSchema.Combines

variable {t : TableSchema} (h : t.Combines)
include h

/-- **Paths of the table.** A path leads somewhere in the combined schema if it does so in an
entity. An entity that has the path can be any of them, and several can. -/
theorem resolve_iff (p : Path) : (∃ node, t.combined.resolve p = .ok node) ↔
    ∃ name s node, t.entity name = .ok s ∧ s.resolve p = .ok node := by
  constructor
  · rintro ⟨node, hnode⟩
    rw [Schema.resolve_eq_ok, Schema.resolve?_eq] at hnode
    obtain ⟨child, hchild, hnode⟩ := Option.bind_eq_some_iff.1 hnode
    obtain ⟨name, s, hs, hchild'⟩ := h.origin _ _ hchild
    refine ⟨name, s, node, hs, ?_⟩
    rw [Schema.resolve_eq_ok, Schema.resolve?_eq]
    exact Option.bind_eq_some_iff.2 ⟨child, hchild', hnode⟩
  · rintro ⟨name, s, node, hs, hnode⟩
    obtain ⟨node', hnode', -⟩ := (h.covers name s hs).resolve hnode
    exact ⟨node', hnode'⟩

/-! ## Items -/

/-- **Items of the table.** An item that was encoded for an entity is decoded through the combined
schema as through the entity. Agreement covers failure as well, and the values are equal up to the
order of keys, which is that of two declarations. -/
theorem decodeItem_agree {name : String} {s : Schema} (hs : t.entity name = .ok s) {v : Value}
    {item : Item} (hitem : s.encodeItem v = .ok item) (mode : DecodeMode) :
    Agree Value.Alike (s.decodeItem mode item) (t.combined.decodeItem mode item) := by
  obtain ⟨fields, rfl, hnames⟩ := h.entity name s hs
  obtain ⟨fields', hcombined, hnodup'⟩ := h.combined
  have hcovers := h.covers name _ hs
  rw [hcombined] at hcovers ⊢
  obtain ⟨hnodup, -, -⟩ := Schema.repeatedNameAmong?_eq_none hnames
  obtain ⟨entries, -, hencode⟩ := Schema.encodeItem_map_eq_ok.1 hitem
  -- the item has names that the entity declares, and these are declared on both sides
  have hdeclared : ∀ n ∈ keys item, n ∈ keys fields :=
    fun n hn => (Schema.mem_keys_of_encodeFields hencode hn).1
  have hmem : ∀ n ∈ keys item, n ∈ keys fields ↔ n ∈ keys fields' := by
    intro n hn
    obtain ⟨node, hnode⟩ := mem_keys_iff.1 (hdeclared n hn)
    obtain ⟨node', hnode', -⟩ := hcovers n node hnode
    exact iff_of_true (hdeclared n hn) (mem_keys_iff.2 ⟨node', hnode'⟩)
  have halike : ∀ n node node', get? n fields = some node → get? n fields' = some node' →
      Schema.Alike node node' := by
    intro n node node' hnode hnode'
    obtain ⟨found, hfound, hlike⟩ := hcovers n node hnode
    have hget : get? n fields' = some found := hfound
    rw [hnode'] at hget
    cases hget
    exact hlike
  have hthere : Follows Value.Alike ((Schema.map .none fields).decodeItem mode item)
      ((Schema.map .none fields').decodeItem mode item) :=
    Schema.decodeItem_follows hnodup hnodup' hmem fun n node node' _ hnode hnode' =>
      (halike n node node' hnode hnode').decodesAlike mode
  have hback : Follows Value.Alike ((Schema.map .none fields').decodeItem mode item)
      ((Schema.map .none fields).decodeItem mode item) :=
    Schema.decodeItem_follows hnodup' hnodup (fun n hn => (hmem n hn).symm)
      fun n node node' _ hnode hnode' => (halike n node' node hnode' hnode).symm.decodesAlike mode
  exact hthere.agree hback

end TableSchema.Combines

end ItemStore
