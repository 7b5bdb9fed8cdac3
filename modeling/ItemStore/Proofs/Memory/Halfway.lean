import ItemStore.Proofs.Memory.Filing

/-
Requests that a store cannot carry out.

A request that fails has been refused before anything was changed, unless it is an update. An
update makes the item that it needs and goes through its clauses one by one, and when a clause
fails, all that was done before it stays (`Stops`). So a failure leaves what is stored as it was
except where an update has left a trace (`LeavesTrace`): its item was not there, or a clause
before the one that failed has changed it.

What stays behind are the effects of `apply_update` before its early return, and the entry that
`or_insert_with` has made for it; a put is refused before anything is written.
-/
set_option autoImplicit false

namespace ItemStore.Memory

open Entries

/-! ## Where an update stops -/

/-- Steps stop at the first one that fails, with the item that those before it have made. -/
theorem steps_eq_fault_iff {α : Type} {step : Item → α → Except Fault Item} {item item' : Item}
    {fault : Fault} {as : List α} :
    steps step item as = (some fault, item') ↔
      ∃ done a rest, as = done ++ a :: rest ∧ steps step item done = (none, item') ∧
        step item' a = .error fault := by
  constructor
  · intro h
    induction as generalizing item with
    | nil => cases h
    | cons a as ih =>
      rw [steps] at h
      cases hstep : step item a with
      | error fault' =>
        rw [hstep] at h
        cases h
        exact ⟨[], a, as, rfl, rfl, hstep⟩
      | ok item₁ =>
        rw [hstep] at h
        obtain ⟨done, a', rest, rfl, hdone, hfails⟩ := ih h
        refine ⟨a :: done, a', rest, rfl, ?_, hfails⟩
        rw [steps, hstep]
        exact hdone
  · rintro ⟨done, a, rest, rfl, hdone, hfails⟩
    rw [steps_append, hdone]
    simp only [steps, hfails]

/-- How an update stops, with what has become of the item by then: at an assignment, or at a
removal once all assignments are done. It gives the clause that fails and the item at that time.
The fault is a parameter, as the caller has it from the response. -/
inductive Stops (b : Bindings) (parts : UpdateText) (item item' : Item) (fault : Fault) :
    Prop where
  | assigning {done rest : List (List Char)} {clause : List Char}
      (split : parts.assignments = done ++ clause :: rest)
      (before : steps (assign b) item done = (none, item'))
      (fails : assign b item' clause = .error fault)
  | removing {assigned : Item} {done rest : List (List Char)} {token : List Char}
      (all : steps (assign b) item parts.assignments = (none, assigned))
      (split : parts.removals = done ++ token :: rest)
      (before : steps (remove b) assigned done = (none, item'))
      (fails : remove b item' token = .error fault)

theorem applyUpdate_eq_fault_iff {b : Bindings} {expression : String} {item item' : Item}
    {fault : Fault} :
    applyUpdate b expression item = (some fault, item') ↔
      Stops b (.ofExpression expression.toList) item item' fault := by
  rw [applyUpdate]
  constructor
  · intro h
    split at h
    · next hassign =>
      cases h
      obtain ⟨done, clause, rest, hsplit, hbefore, hfails⟩ := steps_eq_fault_iff.1 hassign
      exact .assigning hsplit hbefore hfails
    · next hassign =>
      obtain ⟨done, token, rest, hsplit, hbefore, hfails⟩ := steps_eq_fault_iff.1 h
      exact .removing hassign hsplit hbefore hfails
  · intro h
    cases h with
    | assigning hsplit hbefore hfails =>
      rw [steps_eq_fault_iff.2 ⟨_, _, _, hsplit, hbefore, hfails⟩]
    | removing hall hsplit hbefore hfails =>
      rw [hall]
      exact steps_eq_fault_iff.2 ⟨_, _, _, hsplit, hbefore, hfails⟩

/-! ## What a failure leaves behind -/

/-- The operation is an update that stops half way, and its item is not what it was before, or was
not there. It does not mention what the store answers or holds afterwards, so the equivalence
below is not about one thing said twice. -/
def LeavesTrace (items : Items) (operation : Operation) : Prop :=
  ∃ r key item fault, operation = .update r ∧ StorageKey.ofItem r.key = .ok key ∧
    Stops r.bindings (.ofExpression r.update.toList) ((get? key items).getD r.key) item fault ∧
    get? key items ≠ some item

variable {items : Items} {fault : Fault}

/-- Whatever else than an update fails was refused before anything was changed. -/
theorem items_answer_of_error {operation : Operation}
    (h : (answer items operation).1 = .error fault)
    (hother : ∀ r, operation ≠ .update r) : (answer items operation).2 = items := by
  cases operation with
  | put r =>
    rw [answer, put] at h ⊢
    split
    · rfl
    · next hkey =>
      rw [hkey] at h
      dsimp only at h ⊢
      split
      · rfl
      · next hfree =>
        rw [if_neg hfree] at h
        cases h
  | delete r =>
    rw [answer, delete] at h ⊢
    split
    · rfl
    · next hkey =>
      rw [hkey] at h
      cases h
  | update r => exact absurd rfl (hother r)
  | get r => rfl
  | query r => rfl
  | scan r => rfl

/-- An update that fails has no place to go to, or stores its item as it was when it stopped. -/
theorem update_of_error {r : UpdateRequest} (h : (update items r).1 = .error fault) :
    (StorageKey.ofItem r.key = .error fault ∧ (update items r).2 = items) ∨
      ∃ key item, StorageKey.ofItem r.key = .ok key ∧
        Stops r.bindings (.ofExpression r.update.toList) ((get? key items).getD r.key) item
          fault ∧
        (update items r).2 = insertSorted key item items := by
  rw [update] at h ⊢
  cases hkey : StorageKey.ofItem r.key with
  | error fault' =>
    rw [hkey] at h
    cases h
    exact .inl ⟨rfl, rfl⟩
  | ok key =>
    rw [hkey] at h
    dsimp only at h ⊢
    cases happly : applyUpdate r.bindings r.update ((get? key items).getD r.key) with
    | mk fault? item =>
      rw [happly] at h
      cases fault? with
      | none => cases h
      | some fault' =>
        cases h
        exact .inr ⟨key, item, rfl, applyUpdate_eq_fault_iff.1 happly, rfl⟩

/-- **One failing request.** What is stored stays as it was exactly where the request has left no
trace. The order of the entries is asked for since an item is written back by its key, and in a
list without order that might move an entry. -/
theorem items_answer_eq_iff {operation : Operation} (hitems : Ascending items)
    (h : (answer items operation).1 = .error fault) :
    (answer items operation).2 = items ↔ ¬ LeavesTrace items operation := by
  by_cases hupdate : ∃ r, operation = .update r
  · obtain ⟨r, rfl⟩ := hupdate
    rcases update_of_error h with ⟨hkey, hsame⟩ | ⟨key, item, hkey, hstops, hstored⟩
    · -- without a key there is nothing to begin with
      have hnone : ¬ LeavesTrace items (.update r) := by
        rintro ⟨_, key, _, _, he, hkey', -⟩
        cases he
        rw [hkey] at hkey'
        cases hkey'
      exact iff_of_true hsame hnone
    · have hsame : (answer items (.update r)).2 = items ↔ get? key items = some item := by
        show (update items r).2 = items ↔ _
        rw [hstored]
        exact insertSorted_eq_self_iff hitems
      rw [hsame]
      constructor
      · rintro hget ⟨_, key', item', fault', he, hkey', hstops', hne⟩
        cases he
        rw [hkey] at hkey'
        cases hkey'
        -- an update stops in one way only
        have hone := (applyUpdate_eq_fault_iff.2 hstops).symm.trans
          (applyUpdate_eq_fault_iff.2 hstops')
        cases hone
        exact hne hget
      · intro hnone
        by_contra hne
        exact hnone ⟨r, key, item, fault, rfl, hkey, hstops, hne⟩
  · have hother : ∀ r, operation ≠ .update r := fun r he => hupdate ⟨r, he⟩
    refine iff_of_true (items_answer_of_error h hother) ?_
    rintro ⟨r, -, -, -, he, -⟩
    exact hother r he

/-- Whatever a request does and however it is answered, the entries stay in order. -/
theorem ascending_answer (hitems : Ascending items) (operation : Operation) :
    Ascending (answer items operation).2 := by
  cases operation with
  | put r =>
    rw [answer, put]
    split
    · exact hitems
    · split
      · exact hitems
      · exact hitems.insertSorted
  | delete r =>
    rw [answer, delete]
    split
    · exact hitems
    · exact hitems.erase
  | update r =>
    rw [answer, update]
    split
    · exact hitems
    · exact hitems.insertSorted
  | get r => exact hitems
  | query r => exact hitems
  | scan r => exact hitems

/-! ## Failing drafts -/

namespace Store

/-- The entries are in order after any number of drafts. -/
theorem ascending_after {store : Store} (hitems : Ascending store.items)
    (steps : List (Table × Draft)) : Ascending (store.after steps).items := by
  induction steps generalizing store with
  | nil => exact hitems
  | cons step steps ih =>
    rw [after, List.foldl_cons]
    apply ih
    cases hbuild : step.2.build step.1 with
    | error e => rwa [Draft.execute_of_build_eq_error hbuild]
    | ok operation =>
      rw [Draft.execute_of_build_eq_ok hbuild]
      exact ascending_answer hitems operation

variable {t : Table} {d : Draft} {store : Store} {operation : Operation}

/-- **What a failure leaves behind.** Let a draft be sent to a store with entries in order, and
let it fail there. Then the log grows by the request, and the items are what they were unless the
request is an update that stops half way: unless it has made an item that was not there, or has
changed one before it came to the clause that fails. Even then nothing but the entry of its own
key has changed. The middle part is an equivalence, so it says both when a failure is harmless and
when it is not; the last part confines what is done otherwise to one entry. Order is all that is
asked of the store, and any run from an empty store has it. -/
theorem failure_keeps_items_iff (hitems : Ascending store.items)
    (hbuild : d.build t = .ok operation) {e : Error}
    (h : (d.execute t transport store).1 = .error e) :
    (d.execute t transport store).2.received = store.received ++ [operation] ∧
      ((d.execute t transport store).2.items = store.items ↔
        ¬ LeavesTrace store.items operation) ∧
      ∀ key, get? key (d.execute t transport store).2.items ≠ get? key store.items →
        ∃ r, operation = .update r ∧ StorageKey.ofItem r.key = .ok key := by
  rw [Draft.execute_of_build_eq_ok hbuild] at h ⊢
  have hfails : ∃ fault, (answer store.items operation).1 = .error fault := by
    cases hanswer : (answer store.items operation).1 with
    | error fault => exact ⟨fault, rfl⟩
    | ok response =>
      have hok : (transport operation store).1 = .ok response := by
        show (answer store.items operation).1.mapError Fault.message = _
        rw [hanswer]
        rfl
      rw [hok] at h
      cases h
  obtain ⟨fault, hfault⟩ := hfails
  refine ⟨rfl, items_answer_eq_iff hitems hfault, ?_⟩
  intro key hne
  by_cases hupdate : ∃ r, operation = .update r
  · obtain ⟨r, rfl⟩ := hupdate
    refine ⟨r, rfl, ?_⟩
    by_contra hkey
    have hother : ∀ item, (Operation.update r).written? = some item →
        StorageKey.ofItem item ≠ .ok key := by
      intro item hitem
      cases hitem
      exact hkey
    exact hne (get?_answer_of_ne hother)
  · have hsame : (transport operation store).2.items = store.items :=
      items_answer_of_error hfault fun r he => hupdate ⟨r, he⟩
    exact absurd (congrArg (get? key) hsame) hne

end Store

end ItemStore.Memory

/-! ## The shop -/

namespace ItemStore.Shop

open Entries Memory

/-- Renames the user and then sets a part of the address, which a store in memory cannot do. -/
def renameAndMove : UpdateDraft :=
  { UpdateDraft.start "users" with
    key := some (.map [("pk", .string "ada"), ("sk", .string "profile")])
    actions := [⟨⟨"name"⟩, .set (.string "Ada L.")⟩, ⟨⟨"address.city"⟩, .set (.string "Rome")⟩] }

/-- Adds to the visits of a user who is not there. -/
def greetBob : UpdateDraft :=
  { UpdateDraft.start "users" with
    key := some (.map [("pk", .string "bob"), ("sk", .string "profile")])
    actions := [⟨⟨"visits"⟩, .increment (.number 1)⟩] }

/-- The wire text of the name that a user in the store has. -/
def nameOf (store : Store) (user : String) : Option String :=
  (get? (.ofTexts user "profile") store.items).bind fun item =>
    (get? "name" item).map Descriptor.wire

/-- An update that renames the user before it fails leaves the new name behind, and spares the
order that is stored beside the user. -/
theorem renameAndMove_halfway : ∃ operation e store',
    (Draft.update renameAndMove).build (tableIn .strict) = .ok operation ∧
      (Draft.update renameAndMove).execute (tableIn .strict) Store.transport
        (Store.empty.after visit) = (.error e, store') ∧
      LeavesTrace (Store.empty.after visit).items operation ∧
      nameOf store' "ada" = some (Descriptor.string "Ada L.").wire ∧
      get? (.ofTexts "ada" "order#1") store'.items =
        get? (.ofTexts "ada" "order#1") (Store.empty.after visit).items := by
  have hbuilt : (((Draft.update renameAndMove).build (tableIn .strict)).toOption.map fun o =>
      o.written?.map StorageKey.ofItem) = some (some (.ok (.ofTexts "ada" "profile"))) := by
    decide +kernel
  have hfails : ((Draft.update renameAndMove).execute (tableIn .strict) Store.transport
      (Store.empty.after visit)).1.toOption.isNone = true := by
    decide +kernel
  have hbefore : nameOf (Store.empty.after visit) "ada" = some (Descriptor.string "Ada").wire := by
    decide +kernel
  have hafter : nameOf ((Draft.update renameAndMove).execute (tableIn .strict) Store.transport
      (Store.empty.after visit)).2 "ada" = some (Descriptor.string "Ada L.").wire := by
    decide +kernel
  obtain ⟨operation, hbuild, hkey⟩ := exists_ok_of_toOption_map hbuilt
  obtain ⟨e, hrun⟩ := exists_error_of_isNone hfails
  obtain ⟨-, hiff, hother⟩ :=
    Store.failure_keeps_items_iff (Store.ascending_after ascending_nil visit) hbuild hrun
  refine ⟨operation, e, _, hbuild, Prod.ext hrun rfl, ?_, hafter, ?_⟩
  · by_contra hnone
    rw [nameOf, hiff.2 hnone, ← nameOf, hbefore] at hafter
    exact absurd hafter (by decide +kernel)
  · by_contra hne
    obtain ⟨r, rfl, hown⟩ := hother _ hne
    -- the update is filed by the user, so the order is not its own entry
    have hsame : (Except.ok (.ofTexts "ada" "order#1") : Except Fault StorageKey) =
        .ok (.ofTexts "ada" "profile") := hown.symm.trans (Option.some.inj hkey)
    have hsort := (StorageKey.ofTexts_injective (Except.ok.inj hsame)).2
    exact absurd hsort (by decide)

/-- The draft for a user who is not there can be built, the request fails, and afterwards there is
a user. -/
theorem greetBob_stays : ∃ operation e,
    (Draft.update greetBob).build (tableIn .strict) = .ok operation ∧
      ((Draft.update greetBob).execute (tableIn .strict) Store.transport .empty).1 = .error e ∧
      ((Draft.update greetBob).execute (tableIn .strict) Store.transport .empty).2.items ≠
        Store.empty.items := by
  have hbuilt : (((Draft.update greetBob).build (tableIn .strict)).toOption.map fun _ => ()) =
      some () := by
    decide +kernel
  have hfails : ((Draft.update greetBob).execute (tableIn .strict) Store.transport
      .empty).1.toOption.isNone = true := by
    decide +kernel
  have hstored : ((Draft.update greetBob).execute (tableIn .strict) Store.transport
      .empty).2.items.map Prod.fst = [.ofTexts "bob" "profile"] := by
    decide +kernel
  obtain ⟨operation, hbuild, -⟩ := exists_ok_of_toOption_map hbuilt
  obtain ⟨e, hrun⟩ := exists_error_of_isNone hfails
  refine ⟨operation, e, hbuild, hrun, ?_⟩
  intro hsame
  rw [hsame] at hstored
  cases hstored

end ItemStore.Shop
