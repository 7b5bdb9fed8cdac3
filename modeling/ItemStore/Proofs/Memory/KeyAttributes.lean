import ItemStore.Proofs.Draft.Placeholders
import ItemStore.Proofs.Memory.Meaning
import ItemStore.Proofs.Memory.Recall
import ItemStore.Proofs.Schema.Congruence

/-
The attributes that items are filed by.

A store computes the key of an entry from what it is asked to write, and then never looks at it
again. So an item stays where it belongs only if its key attributes stay as they are. A put
brings them along and a deletion takes them away; what could spoil them is an update. The compiler
refuses an action that reaches into a key attribute, and that is enough whatever the store makes of
the text: it may fail half way or misread the text, but every clause that it carries out touches
the attribute that its path starts at and no other (`get?_applyUpdate_of_isKey`). A path with
several segments is a form with a dot in it, and no token is bound under such a form.

The check is that of `compile` in the update builder, which refuses an action on a node with a key
mark.
-/
set_option autoImplicit false

namespace ItemStore

open Entries Bindings Memory

/-! ## Updates leave key attributes alone -/

/-- The name tokens of a request are tokens; above all there is no dot in them. -/
theorem isToken_of_mem_names {t : Table} {d : UpdateDraft} {r : UpdateRequest}
    (h : d.build t = .ok r) : ∀ token ∈ keys r.bindings.names, IsToken '#' token := by
  intro token htoken
  obtain ⟨text, -, hfound⟩ := List.mem_flatMap.1 (((d.balanced_build h).names token).2 htoken)
  exact isToken_of_mem_tokensOf hfound

namespace Memory

theorem attributeOf_eq_ok {b : Bindings} {token : List Char} {target : String} :
    attributeOf b token = .ok target ↔ get? (String.ofList token) b.names = some target := by
  rw [attributeOf]
  cases get? (String.ofList token) b.names <;> simp

end Memory

namespace Clause

variable {schema : Schema} {b : Bindings} {c : Clause}

/-- A form that is found among the tokens stands for the attribute that the path starts at. -/
theorem StandsIn.attribute_eq_root (h : c.StandsIn schema b)
    (htokens : ∀ token ∈ keys b.names, IsToken '#' token) {target : String}
    (hname : get? c.name b.names = some target) : target = c.action.path.root := by
  have hnames := h.names
  have hdot : '.' ∉ c.name.toList := by
    obtain ⟨word, -, hword, htoken⟩ := htokens c.name (mem_keys_iff.2 ⟨target, hname⟩)
    rw [htoken]
    exact List.not_mem_cons_of_ne_of_not_mem (by decide) (notMem_of_isWord (by decide) hword)
  rw [Path.root]
  cases hshape : c.tokens with
  | nil => exact absurd hshape h.tokens_ne_nil
  | cons token tokens =>
    rw [hshape] at hnames
    cases tokens with
    | nil =>
      rw [name, hshape, dotted, String.intercalate_singleton] at hname
      cases hsegments : c.action.path.segments with
      | nil =>
        rw [hsegments] at hnames
        cases hnames
      | cons segment segments =>
        rw [hsegments] at hnames
        obtain ⟨⟨hget, -⟩, -⟩ := List.forall₂_cons.1 hnames
        rw [hname] at hget
        exact Option.some.inj hget
    -- with a second token there is a dot in between
    | cons token' tokens =>
      refine absurd ?_ hdot
      rw [name, hshape, dotted, String.intercalate_cons_cons]
      simp

/-- A clause touches no attribute but the one that its path starts at. -/
theorem StandsIn.get?_carryOut (h : c.StandsIn schema b)
    (htokens : ∀ token ∈ keys b.names, IsToken '#' token) {other : String}
    (hother : c.action.path.root ≠ other) {item item' : Item}
    (hok : c.carryOut b item = .ok item') : get? other item' = get? other item := by
  have hattribute : ∀ target, attributeOf b c.name.toList = .ok target →
      other ≠ target := by
    intro target hname
    rw [attributeOf_eq_ok, String.ofList_toList] at hname
    rw [h.attribute_eq_root htokens hname]
    exact Ne.symm hother
  rw [carryOut] at hok
  by_cases hsends : c.action.change.sends = true
  · have hcut : Text.cut? " = ".toList c.assignment =
        some (c.name.toList, (c.action.change.source c.name c.token).toList) :=
      cut?_sign h.isPlain_name _
    rw [if_pos hsends, assign, hcut] at hok
    obtain ⟨target, hname, hok⟩ := bind_eq_ok.1 hok
    obtain ⟨value, -, he⟩ := bind_eq_ok.1 hok
    cases he
    rw [get?_insert, if_neg (hattribute target hname)]
  · rw [if_neg hsends] at hok
    obtain ⟨target, hname, he⟩ := bind_eq_ok.1 hok
    cases he
    exact get?_erase_of_ne (hattribute target hname) item

end Clause

/-- **Key attributes are not updated.** Whether the store carries out the whole update or stops
somewhere, a key attribute is as it was. The item after a failure is spoken of too, because the
store keeps it. Nothing is asked of the names of fields, unlike where the meaning of an update is
at stake: a text that is misread still names no key attribute. -/
theorem get?_applyUpdate_of_isKey {schema key : Schema} {actions : List Action} {update : Compiled}
    {b : Bindings} {name : String} (h : compileUpdate schema actions = .ok update)
    (hgrows : Bindings.Grows update.bindings b)
    (htokens : ∀ token ∈ keys b.names, IsToken '#' token) (hkey : schema.field? name = some key)
    (hmark : key.isKey = true) (item : Item) :
    get? name (applyUpdate b update.expression item).2 = get? name item := by
  obtain ⟨cs, hwrite⟩ := exists_clauses_compileUpdate h
  have hsteps : ∀ cs' ⊆ cs, get? name (steps (Clause.carryOut b) item cs').2 = get? name item := by
    intro cs' hsub
    refine steps_preserves (P := fun item' => get? name item' = get? name item) ?_ rfl
    intro item₁ item₂ c hc hkept hok
    have hstand := (hwrite.stand c (hsub hc)).grows hgrows
    rw [hstand.get?_carryOut htokens (hstand.accepted.root_ne_of_isKey hkey hmark) hok, hkept]
  by_cases hkeyword : ∃ c ∈ assigning cs, keyword <:+ c.name.toList
  · obtain ⟨before, hsub, fault, happly⟩ := hwrite.applyUpdate_of_keyword hkeyword b item
    rw [happly]
    exact hsteps before hsub
  · push Not at hkeyword
    rw [hwrite.applyUpdate_eq_steps hkeyword]
    exact hsteps _ ((List.filter_append_perm _ cs).subset)

/-! ## Items with two strings -/

/-- The item has the two strings that items are filed by. This is what an item has for
`storage_key` if its key fields are strings, as those of the shop are. -/
def Item.HasTexts (item : Item) (partition sort : String) : Prop :=
  get? partitionName item = some (.string partition) ∧ get? sortName item = some (.string sort)

namespace Memory

theorem StorageKey.ofItem_of_hasTexts {item : Item} {partition sort : String}
    (h : item.HasTexts partition sort) : ofItem item = .ok (ofTexts partition sort) :=
  ofItem_eq_ok.2 ⟨_, _, h.1, h.2, rfl⟩

end Memory

namespace Schema

theorem keys_of_encodeNamed {s : Schema} {entries : List (String × Value)} {names : List String}
    {item : Item} (h : s.encodeNamed entries names = .ok item) : keys item = names := by
  induction names generalizing item with
  | nil =>
    cases h
    rfl
  | cons name names ih =>
    obtain ⟨v, node, d, rest, -, -, -, hrest, rfl⟩ := encodeNamed_cons_eq_ok.1 h
    exact congrArg (name :: ·) (ih hrest)

/-- An item has every attribute that may not be missing. -/
theorem mem_keys_of_encodeItem {s field : Schema} {v : Value} {item : Item} {name : String}
    (h : s.encodeItem v = .ok item) (hfield : s.field? name = some field)
    (hrequired : field.isOptional = false) : name ∈ keys item := by
  cases s with
  | map m fields =>
    obtain ⟨entries, rfl, hfields⟩ := encodeItem_map_eq_ok.1 h
    have hpresent := exists_encodeFields_iff.1 ⟨item, hfields⟩ _ (mem_of_get? hfield)
    rcases hpresent with ⟨w, d, hw, -⟩ | ⟨-, hoptional⟩
    · obtain ⟨d', hd', -⟩ := get?_of_encodeFields_of_get? hfields hfield hw
      exact mem_keys_iff.2 ⟨d', hd'⟩
    · rw [hrequired] at hoptional
      cases hoptional
  | _ => cases hfield

/-- What an entity that is filed by strings makes of a value has two strings to be filed by. -/
theorem FiledByTexts.exists_hasTexts {s : Schema} (hs : s.FiledByTexts) {v : Value} {item : Item}
    (hmade : s.Makes v item) (hpartition : partitionName ∈ keys item)
    (hsort : sortName ∈ keys item) : ∃ partition sort, item.HasTexts partition sort := by
  obtain ⟨p, hp⟩ := mem_keys_iff.1 hpartition
  obtain ⟨q, hq⟩ := mem_keys_iff.1 hsort
  obtain ⟨w, node, -, hnode, hencode⟩ := hmade _ _ hp
  obtain ⟨w', node', -, hnode', hencode'⟩ := hmade _ _ hq
  rw [hs.partition] at hnode
  rw [hs.sort] at hnode'
  cases hnode
  cases hnode'
  obtain ⟨partition, -, rfl⟩ := eq_string_of_encode (.inl rfl) hencode
  obtain ⟨sort, -, rfl⟩ := eq_string_of_encode (.inr rfl) hencode'
  exact ⟨partition, sort, hp, hq⟩

end Schema

/-! ## Requests -/

theorem Draft.build_eq_update {t : Table} {d : Draft} {r : UpdateRequest}
    (h : d.build t = .ok (.update r)) : ∃ draft, d = .update draft ∧ draft.build t = .ok r := by
  cases d with
  | update draft =>
    obtain ⟨r', hbuild, he⟩ := map_eq_ok.1 h
    cases he
    exact ⟨draft, rfl, hbuild⟩
  | _ =>
    obtain ⟨_, -, he⟩ := map_eq_ok.1 h
    cases he

/-- What a store relies on to keep its items in order: a request that writes names its item by two
strings, and an update does not touch those of any item. The second part is about updates only,
because a put and a deletion replace what is under their key. -/
structure Operation.Files (operation : Operation) : Prop where
  texts : ∀ item, operation.written? = some item → ∃ partition sort, item.HasTexts partition sort
  spares : ∀ r, operation = .update r → ∀ (item : Item) (partition sort : String),
    item.HasTexts partition sort →
      Item.HasTexts (applyUpdate r.bindings r.update item).2 partition sort

/-- Every request that is made for a table whose entities are filed by strings is like that. -/
theorem Table.FiledByTexts.files {t : Table} (ht : t.FiledByTexts) {d : Draft}
    {operation : Operation} (h : d.build t = .ok operation) : operation.Files := by
  constructor
  · intro item hitem
    obtain ⟨name, s, hentity, hencoded⟩ := Draft.exists_encoded h hitem
    have hs := ht name s hentity
    rcases hencoded with ⟨v, -, hencode⟩ | hkey
    · have hmade : s.Makes v item := by
        obtain ⟨m, fields, rfl⟩ := hs.exists_fields
        exact Schema.makes_of_encodeItem hencode
      exact hs.exists_hasTexts hmade (Schema.mem_keys_of_encodeItem hencode hs.partition rfl)
        (Schema.mem_keys_of_encodeItem hencode hs.sort rfl)
    · obtain ⟨v, hv, hmade⟩ := hs.makes_of_encodeDraftKey hkey
      rw [hv] at hkey
      obtain ⟨entries, rfl, -, hnamed⟩ := (Schema.encodeKey_eq_ok hs.names).1 hkey
      have hkeys := Schema.keys_of_encodeNamed hnamed
      apply hs.exists_hasTexts hmade
      · rw [hkeys]
        decide
      · rw [hkeys]
        decide
  · rintro r rfl item partition sort ⟨hpartition, hsort⟩
    obtain ⟨d, rfl, hbuild⟩ := Draft.build_eq_update h
    obtain ⟨s, hentity, -⟩ := bind_eq_ok.1 hbuild
    have hs := ht _ s hentity
    obtain ⟨update, hcompile, htext, hgrows⟩ := UpdateDraft.build_eq_ok hentity hbuild
    have hkept : ∀ name key, s.field? name = some key → key.isKey = true →
        get? name (applyUpdate r.bindings r.update item).2 = get? name item := by
      intro name key hkey hmark
      rw [htext]
      exact get?_applyUpdate_of_isKey hcompile hgrows (isToken_of_mem_names hbuild) hkey hmark item
    exact ⟨(hkept _ _ hs.partition rfl).trans hpartition, (hkept _ _ hs.sort rfl).trans hsort⟩

/-- A put carries a condition just when it is guarded: by a condition of its own, or against
replacing an item. -/
theorem PutDraft.isSome_condition {t : Table} {d : PutDraft} {r : PutRequest}
    (h : d.build t = .ok r) : r.condition.isSome = (d.condition.isSome || d.guarded) := by
  obtain ⟨s, -, h⟩ := bind_eq_ok.1 h
  obtain ⟨item, -, h⟩ := bind_eq_ok.1 h
  obtain ⟨condition, heffective, h⟩ := bind_eq_ok.1 h
  obtain ⟨⟨text, progress⟩, hcompile, he⟩ := bind_eq_ok.1 h
  cases he
  have hcompiled : text.isSome = condition.isSome := by
    cases condition with
    | none =>
      cases hcompile
      rfl
    | some c =>
      obtain ⟨_, -, he⟩ := bind_eq_ok.1 hcompile
      cases he
      rfl
  dsimp only
  rw [hcompiled]
  rw [PutDraft.effective] at heffective
  by_cases hguarded : d.guarded = true
  · rw [if_pos hguarded] at heffective
    cases hown : d.condition with
    | some c =>
      rw [hown] at heffective
      cases heffective
    | none =>
      rw [hown] at heffective
      obtain ⟨guard, -, rfl⟩ := map_eq_ok.1 heffective
      rw [hguarded]
      rfl
  · rw [if_neg hguarded] at heffective
    cases heffective
    rw [Bool.not_eq_true] at hguarded
    rw [hguarded, Bool.or_false]

theorem ScanDraft.limit_build {t : Table} {d : ScanDraft} {r : ScanRequest}
    (h : d.build t = .ok r) : r.limit = d.limit := by
  obtain ⟨schema, -, h⟩ := bind_eq_ok.1 h
  obtain ⟨⟨filter, progress⟩, -, h⟩ := bind_eq_ok.1 h
  obtain ⟨⟨projection, bindings⟩, -, he⟩ := bind_eq_ok.1 h
  cases he
  rfl

end ItemStore
