import ItemStore.Proofs.Memory.KeyAttributes
import Mathlib.Data.String.Basic

/-
How a store keeps its items.

Items are in order, and each is filed by the two strings that it carries (`Items.Filed`). One
request keeps that (`Items.Filed.answer`), so any number of drafts do, and since different strings
are filed apart, the entry that a request writes is the entry of its own item or key and of no
other. What a store does with a draft can then be said in terms of these strings alone
(`Store.Serves`), for every store that some drafts have led to.

The store is that of `MemoryRunner`: a map from the texts that `storage_key` makes to items,
beside a log of requests.
-/
set_option autoImplicit false

namespace ItemStore

open Entries Memory

namespace Memory

/-! ## The order of entries -/

namespace StorageKey

theorem lt_iff {a b : StorageKey} :
    a < b ↔ a.partition < b.partition ∨ (a.partition = b.partition ∧ a.sort < b.sort) := Iff.rfl

instance : IsStrictTotalOrder StorageKey fun a b => a < b where
  irrefl a h := by
    rcases lt_iff.1 h with h | ⟨-, h⟩
    · exact lt_irrefl _ h
    · exact lt_irrefl _ h
  trans a b c hab hbc := by
    rw [lt_iff] at hab hbc ⊢
    rcases hab with hab | ⟨heq, hab⟩
    · rcases hbc with hbc | ⟨heq', -⟩
      · exact .inl (lt_trans hab hbc)
      · exact .inl (heq' ▸ hab)
    · rcases hbc with hbc | ⟨heq', hbc⟩
      · exact .inl (heq ▸ hbc)
      · exact .inr ⟨heq.trans heq', lt_trans hab hbc⟩
  trichotomous a b hab hba := by
    rw [lt_iff, not_or, not_and] at hab hba
    have hpartition : a.partition = b.partition :=
      le_antisymm (not_lt.1 hba.1) (not_lt.1 hab.1)
    have hsort : a.sort = b.sort :=
      le_antisymm (not_lt.1 (hba.2 hpartition.symm)) (not_lt.1 (hab.2 hpartition))
    cases a
    cases b
    cases hpartition
    cases hsort
    rfl

end StorageKey

/-! ## Filed items -/

/-- The entries are in order, and every item is filed by the two strings that it has. It has two
parts because look-ups need the order, and a key alone does not tell what its item looks like. -/
structure Items.Filed (items : Items) : Prop where
  ascending : Ascending items
  own : ∀ entry ∈ items, ∃ partition sort, entry.2.HasTexts partition sort ∧
    entry.1 = .ofTexts partition sort

theorem Items.filed_nil : Items.Filed [] := ⟨ascending_nil, by simp⟩

namespace Items.Filed

variable {items : Items} {item : Item} {partition sort : String}

/-- What is filed by two strings has these strings. -/
theorem hasTexts (h : items.Filed) (hget : get? (.ofTexts partition sort) items = some item) :
    item.HasTexts partition sort := by
  obtain ⟨partition', sort', htexts, hkey⟩ := h.own _ (mem_of_get? hget)
  obtain ⟨rfl, rfl⟩ := StorageKey.ofTexts_injective hkey
  exact htexts

theorem insertSorted (h : items.Filed) (hitem : item.HasTexts partition sort) :
    Items.Filed (Entries.insertSorted (.ofTexts partition sort) item items) := by
  refine ⟨h.ascending.insertSorted, ?_⟩
  rintro ⟨key, item'⟩ hmem
  have hget := get?_of_mem h.ascending.insertSorted.nodup hmem
  rw [get?_insertSorted] at hget
  by_cases hkey : key = .ofTexts partition sort
  · rw [if_pos hkey] at hget
    cases hget
    exact ⟨partition, sort, hitem, hkey⟩
  · rw [if_neg hkey] at hget
    exact h.own _ (mem_of_get? hget)

theorem erase (h : items.Filed) (key : StorageKey) : Items.Filed (Entries.erase key items) :=
  ⟨h.ascending.erase, fun entry hmem => h.own entry ((erase_sublist key items).subset hmem)⟩

/-- No two items have the same two strings. -/
theorem apart (h : items.Filed) : (items.map Prod.snd).Pairwise fun a b =>
    ¬ ∃ partition sort, a.HasTexts partition sort ∧ b.HasTexts partition sort := by
  rw [List.pairwise_map]
  have hkeys : items.Pairwise fun a b => a.1 ≠ b.1 := List.pairwise_map.1 h.ascending.nodup
  refine hkeys.imp_of_mem ?_
  rintro a b ha hb hne ⟨partition, sort, hatexts, hbtexts⟩
  obtain ⟨p, q, hp, hakey⟩ := h.own a ha
  obtain ⟨p', q', hp', hbkey⟩ := h.own b hb
  -- an item has its strings once only
  have hown : ∀ {item : Item} {p q : String}, item.HasTexts p q → item.HasTexts partition sort →
      StorageKey.ofTexts p q = .ofTexts partition sort := by
    intro item p q htexts htexts'
    have hkey := StorageKey.ofItem_of_hasTexts htexts
    rw [StorageKey.ofItem_of_hasTexts htexts'] at hkey
    exact (Except.ok.inj hkey).symm
  rw [hakey, hbkey, hown hp hatexts, hown hp' hbtexts] at hne
  exact hne rfl

/-- **One request.** Whatever a request does and however it is answered, the items stay filed.
This is the step; the run is an induction that does nothing but apply it. -/
theorem answer (h : items.Filed) {operation : Operation} (hfiles : operation.Files) :
    Items.Filed (Memory.answer items operation).2 := by
  cases operation with
  | put r =>
    obtain ⟨partition, sort, htexts⟩ := hfiles.texts r.item rfl
    rw [Memory.answer, put, StorageKey.ofItem_of_hasTexts htexts]
    dsimp only
    split
    · exact h
    · exact h.insertSorted htexts
  | delete r =>
    obtain ⟨partition, sort, htexts⟩ := hfiles.texts r.key rfl
    rw [Memory.answer, delete, StorageKey.ofItem_of_hasTexts htexts]
    exact h.erase _
  | update r =>
    obtain ⟨partition, sort, htexts⟩ := hfiles.texts r.key rfl
    rw [Memory.answer, update, StorageKey.ofItem_of_hasTexts htexts]
    -- the item that is updated has the strings, also when it was made of the key
    have hbase : Item.HasTexts ((get? (.ofTexts partition sort) items).getD r.key)
        partition sort := by
      cases hget : get? (.ofTexts partition sort) items with
      | none => exact htexts
      | some item => exact h.hasTexts hget
    exact h.insertSorted (hfiles.spares r rfl _ _ _ hbase)
  | get r => exact h
  | query r => exact h
  | scan r => exact h

end Items.Filed

/-! ## What a request does to filed items -/

section Request

variable {items : Items} {partition sort : String}

/-- A put with a condition is refused where an item is, and every other put stores its item. -/
theorem put_spec {r : PutRequest} (h : r.item.HasTexts partition sort) :
    if r.condition.isSome && has (.ofTexts partition sort) items then
      (∃ fault, (put items r).1 = .error fault) ∧ (put items r).2 = items
    else
      (∃ response, (put items r).1 = .ok response) ∧
        ∀ key, get? key (put items r).2 =
          if key = .ofTexts partition sort then some r.item else get? key items := by
  rw [put, StorageKey.ofItem_of_hasTexts h]
  dsimp only
  split
  · exact ⟨⟨_, rfl⟩, rfl⟩
  · exact ⟨⟨_, rfl⟩, fun key => get?_insertSorted _ key _ _⟩

theorem delete_spec {r : DeleteRequest} (hitems : items.Filed)
    (h : r.key.HasTexts partition sort) :
    (∃ response, (delete items r).1 = .ok response) ∧
      ∀ key, get? key (delete items r).2 =
        if key = .ofTexts partition sort then none else get? key items := by
  rw [delete, StorageKey.ofItem_of_hasTexts h]
  refine ⟨⟨_, rfl⟩, ?_⟩
  intro key
  by_cases hkey : key = .ofTexts partition sort
  · rw [if_pos hkey, hkey]
    exact get?_erase_self hitems.ascending.nodup
  · rw [if_neg hkey]
    exact get?_erase_of_ne hkey items

/-- An update stores what has become of the item, also when it failed half way. -/
theorem update_spec {r : UpdateRequest} (h : r.key.HasTexts partition sort) (key : StorageKey) :
    get? key (update items r).2 =
      if key = .ofTexts partition sort then
        some (applyUpdate r.bindings r.update ((get? key items).getD r.key)).2
      else get? key items := by
  rw [update, StorageKey.ofItem_of_hasTexts h]
  dsimp only
  rw [get?_insertSorted]
  by_cases hkey : key = .ofTexts partition sort
  · rw [if_pos hkey, if_pos hkey, hkey]
  · rw [if_neg hkey, if_neg hkey]

/-- A page that all items fit on. -/
theorem page_spec {shown : List Item} {limit : Option Nat}
    (h : ∀ n, limit = some n → shown.length ≤ n) :
    (page shown limit).items = shown ∧ (page shown limit).lastKey = none := by
  have htake : shown.take (limit.getD shown.length) = shown := by
    apply List.take_of_length_le
    cases limit with
    | none => exact le_refl _
    | some n => exact h n rfl
  rw [page, htake]
  simp

end Request

/-! ## Drafts one after the other -/

namespace Store

theorem filed_execute {t : Table} (ht : t.FiledByTexts) {store : Store} (h : store.items.Filed)
    (d : Draft) : (d.execute t transport store).2.items.Filed := by
  cases hbuild : d.build t with
  | error e =>
    rw [Draft.execute_of_build_eq_error hbuild]
    exact h
  | ok operation =>
    rw [Draft.execute_of_build_eq_ok hbuild]
    exact h.answer (ht.files hbuild)

theorem received_execute (t : Table) (d : Draft) (store : Store) :
    (d.execute t transport store).2.received = store.received ++ (d.build t).toOption.toList := by
  cases hbuild : d.build t with
  | error e =>
    rw [Draft.execute_of_build_eq_error hbuild]
    exact (List.append_nil _).symm
  | ok operation =>
    rw [Draft.execute_of_build_eq_ok hbuild]
    exact received_transport operation store

/-- **Items stay filed**, however many drafts are executed. The drafts may each be for another
table, as long as every entity of it is filed by two strings. -/
theorem filed_after {steps : List (Table × Draft)} (hsteps : ∀ step ∈ steps, step.1.FiledByTexts)
    {store : Store} (h : store.items.Filed) : (store.after steps).items.Filed := by
  induction steps generalizing store with
  | nil => exact h
  | cons step steps ih =>
    rw [after, List.foldl_cons]
    exact ih (fun s hs => hsteps s (List.mem_cons_of_mem step hs))
      (filed_execute (hsteps step List.mem_cons_self) h step.2)

/-- **The log of a run** are the requests that could be made, in order. It starts from any log.
Requests that the store refuses are in it, because the runner notes a request before it looks at
it. -/
theorem received_after (steps : List (Table × Draft)) (store : Store) :
    (store.after steps).received =
      store.received ++ steps.filterMap fun step => (step.2.build step.1).toOption := by
  induction steps generalizing store with
  | nil => exact (List.append_nil _).symm
  | cons step steps ih =>
    have hrun : store.after (step :: steps) =
        (step.2.execute step.1 transport store).2.after steps := rfl
    rw [hrun, ih, received_execute, List.append_assoc, List.filterMap_cons]
    cases (step.2.build step.1).toOption <;> rfl

/-! ## What a store does with a draft -/

/-- What a store says to a draft and how it is afterwards. It has one field for each thing that a
caller relies on, and each is about one draft at a given state, so that it can be used after any
run. -/
structure Serves (store : Store) (t : Table) (d : Draft) : Prop where
  /-- A draft that cannot be built leaves everything as it was, the log as well. -/
  unbuilt : ∀ e, d.build t = .error e → d.execute t transport store = (.error e, store)
  /-- A draft that can be built is added to the log. -/
  logged : ∀ operation, d.build t = .ok operation →
    (d.execute t transport store).2.received = store.received ++ [operation]
  /-- Where an item is, a guarded put fails and changes nothing. Every other put stores its item
  by the strings that this has, and leaves all other entries alone. -/
  put : ∀ draft r, d = .put draft → draft.build t = .ok r → ∃ partition sort,
    r.item.HasTexts partition sort ∧
    if (draft.condition.isSome || draft.guarded) && has (.ofTexts partition sort) store.items then
      (∃ e, (d.execute t transport store).1 = .error e) ∧
        (d.execute t transport store).2.items = store.items
    else
      (∃ response, (d.execute t transport store).1 = .ok response) ∧
        ∀ key, get? key (d.execute t transport store).2.items =
          if key = .ofTexts partition sort then some r.item else get? key store.items
  /-- A deletion removes what is filed by the strings of its key and nothing else. -/
  delete : ∀ draft r, d = .delete draft → draft.build t = .ok r → ∃ partition sort,
    r.key.HasTexts partition sort ∧
      (∃ response, (d.execute t transport store).1 = .ok response) ∧
        ∀ key, get? key (d.execute t transport store).2.items =
          if key = .ofTexts partition sort then none else get? key store.items
  /-- An update changes what is filed by the strings of its key and nothing else. -/
  update : ∀ draft r, d = .update draft → draft.build t = .ok r → ∃ partition sort,
    r.key.HasTexts partition sort ∧
      ∀ key, get? key (d.execute t transport store).2.items =
        if key = .ofTexts partition sort then
          some (applyUpdate r.bindings r.update ((get? key store.items).getD r.key)).2
        else get? key store.items
  /-- Getting, querying and scanning change nothing. -/
  reads : ∀ operation, d.build t = .ok operation → operation.kind.isWrite = false →
    (d.execute t transport store).2.items = store.items
  /-- A scan whose limit is not reached returns all items, in order, and there is nothing left. -/
  scan : ∀ draft r, d = .scan draft → draft.build t = .ok r →
    (∀ limit, draft.limit = some limit → store.items.length ≤ limit) →
      ∃ response, (d.execute t transport store).1 = .ok response ∧
        response.items = store.items.map Prod.snd ∧ response.lastKey = none

/-- A store whose items are filed serves every draft. -/
theorem serves_of_filed {t : Table} (ht : t.FiledByTexts) {store : Store} (h : store.items.Filed)
    (d : Draft) : store.Serves t d := by
  have hunbuilt : ∀ e, d.build t = .error e → d.execute t transport store = (.error e, store) :=
    fun e he => Draft.execute_of_build_eq_error he transport store
  have hlogged : ∀ operation, d.build t = .ok operation →
      (d.execute t transport store).2.received = store.received ++ [operation] := by
    intro operation hbuild
    rw [received_execute, hbuild]
    rfl
  refine ⟨hunbuilt, hlogged, ?_, ?_, ?_, ?_, ?_⟩
  · rintro draft r rfl hr
    have hbuild : (Draft.put draft).build t = .ok (.put r) := map_eq_ok.2 ⟨r, hr, rfl⟩
    obtain ⟨partition, sort, htexts⟩ := (ht.files hbuild).texts r.item rfl
    refine ⟨partition, sort, htexts, ?_⟩
    rw [Draft.execute_of_build_eq_ok hbuild, ← PutDraft.isSome_condition hr]
    have hput := @put_spec store.items partition sort r htexts
    split at hput
    · next hguarded =>
      rw [if_pos hguarded]
      obtain ⟨⟨fault, hfault⟩, hitems⟩ := hput
      refine ⟨⟨.transport fault.message, ?_⟩, hitems⟩
      show Except.mapError Error.transport ((put store.items r).1.mapError Fault.message) = _
      rw [hfault]
      rfl
    · next hfree =>
      rw [if_neg hfree]
      obtain ⟨⟨response, hresponse⟩, hitems⟩ := hput
      exact ⟨⟨response, mapError_eq_ok.2 (mapError_eq_ok.2 hresponse)⟩, hitems⟩
  · rintro draft r rfl hr
    have hbuild : (Draft.delete draft).build t = .ok (.delete r) := map_eq_ok.2 ⟨r, hr, rfl⟩
    obtain ⟨partition, sort, htexts⟩ := (ht.files hbuild).texts r.key rfl
    obtain ⟨⟨response, hresponse⟩, hitems⟩ := delete_spec h htexts
    rw [Draft.execute_of_build_eq_ok hbuild]
    exact ⟨partition, sort, htexts, ⟨response, mapError_eq_ok.2 (mapError_eq_ok.2 hresponse)⟩,
      hitems⟩
  · rintro draft r rfl hr
    have hbuild : (Draft.update draft).build t = .ok (.update r) := map_eq_ok.2 ⟨r, hr, rfl⟩
    obtain ⟨partition, sort, htexts⟩ := (ht.files hbuild).texts r.key rfl
    rw [Draft.execute_of_build_eq_ok hbuild]
    exact ⟨partition, sort, htexts, update_spec htexts⟩
  · intro operation hbuild hread
    rw [Draft.execute_of_build_eq_ok hbuild]
    exact items_transport_of_not_isWrite store hread
  · rintro draft r rfl hr hlimit
    have hbuild : (Draft.scan draft).build t = .ok (.scan r) := map_eq_ok.2 ⟨r, hr, rfl⟩
    have hfits : ∀ n, r.limit = some n → (store.items.map Prod.snd).length ≤ n := by
      rw [ScanDraft.limit_build hr, List.length_map]
      exact hlimit
    rw [Draft.execute_of_build_eq_ok hbuild]
    exact ⟨_, rfl, page_spec hfits⟩

end Store

end Memory

/-! ## The shop -/

namespace Shop

/-- **A shop's items stay where they belong.** Let any drafts for the tables of the shop be
executed one after the other by a store that is empty at first. Then every item is filed by the
two strings that it carries, and no two items carry the same ones. The log has the requests that
could be made, in order. And whatever draft comes next is served as it should be: a guarded put
fails where an item is, a write touches the entry of its own item or key alone, reading changes
nothing, a full scan returns all items, and what cannot be built leaves no trace. The four parts
say in turn what the entries are, what cannot be among them, what was noted on the way, and what
to expect next. All are about the state after any run; none asks that the drafts of the run
succeed. -/
theorem items_stay_filed {steps : List (Table × Draft)} (hsteps : ∀ step ∈ steps, IsTable step.1) :
    (Store.empty.after steps).items.Filed ∧
      ((Store.empty.after steps).items.map Prod.snd).Pairwise (fun a b =>
        ¬ ∃ partition sort, a.HasTexts partition sort ∧ b.HasTexts partition sort) ∧
      (Store.empty.after steps).received =
        (steps.filterMap fun step => (step.2.build step.1).toOption) ∧
      ∀ t d, IsTable t → (Store.empty.after steps).Serves t d := by
  have hfiled : (Store.empty.after steps).items.Filed :=
    Store.filed_after (fun step hstep => (hsteps step hstep).filedByTexts) Items.filed_nil
  exact ⟨hfiled, hfiled.apart, Store.received_after steps .empty,
    fun t d ht => Store.serves_of_filed ht.filedByTexts hfiled d⟩

/-- A put, the same put again, a draft that lacks its key, and what is asked in the meantime. -/
def visit : List (Table × Draft) :=
  (tableIn .lenient, .put putAda) :: (tableIn .strict, .put putAda) ::
    (tableIn .strict, .get (GetDraft.start "users")) :: meantime

/-- Of the seven drafts, one is not sent. Three items are stored, each by its own strings. -/
theorem visit_filed :
    (∀ step ∈ visit, IsTable step.1) ∧ (Store.empty.after visit).items.Filed ∧
      (Store.empty.after visit).Serves (tableIn .strict) (.scan .start) ∧
      (Store.empty.after visit).items.map Prod.fst =
        [.ofTexts "ada" "order#1", .ofTexts "ada" "profile", .ofTexts "bob" "profile"] ∧
      (Store.empty.after visit).received.length = 6 := by
  have htables : ∀ step ∈ visit, IsTable step.1 := by
    simp only [visit, meantime, List.forall_mem_cons]
    exact ⟨⟨_, rfl⟩, ⟨_, rfl⟩, ⟨_, rfl⟩, ⟨_, rfl⟩, ⟨_, rfl⟩, ⟨_, rfl⟩, ⟨_, rfl⟩,
      fun _ h => absurd h List.not_mem_nil⟩
  obtain ⟨hfiled, -, -, hserves⟩ := items_stay_filed htables
  exact ⟨htables, hfiled, hserves (tableIn .strict) (.scan .start) ⟨.strict, rfl⟩,
    by decide +kernel, by decide +kernel⟩

end Shop

end ItemStore
