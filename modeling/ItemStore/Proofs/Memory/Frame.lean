import ItemStore.Memory.Store
import ItemStore.Proofs.Descriptor.WireForm

/-
What a request leaves alone.

A request that writes is filed by one item or key, and whatever is filed elsewhere stays as it
was; a request that reads writes nothing. That is said of one request first (`get?_answer_of_ne`)
and then of drafts that are executed one after the other (`get?_after_of_ne`). Drafts that cannot
be built and requests that the store refuses are among them: the former never arrive, and an
update that cannot be carried out has still been filed by its own key only.

Items are filed by wire texts. Two strings have different ones, so items whose key attributes are
strings are filed apart as soon as one of the strings differs.
-/
set_option autoImplicit false

namespace ItemStore

/-- The item or the key that says which stored item a request writes. What is put is an item, what
is deleted or updated is a key; `storage_key` takes either. -/
def Operation.written? : Operation → Option Item
  | .put r => some r.item
  | .delete r => some r.key
  | .update r => some r.key
  | _ => none

namespace Memory

open Entries

/-! ## One request -/

/-- **The frame of a request.** What is filed under a key that the request does not write is left
alone. The key of the request may fail to exist, and then nothing is written at all; so what is
asked is that it is not this key and not that it is another one. -/
theorem get?_answer_of_ne {items : Items} {operation : Operation} {key : StorageKey}
    (h : ∀ item, operation.written? = some item → StorageKey.ofItem item ≠ .ok key) :
    get? key (answer items operation).2 = get? key items := by
  cases operation with
  | put r =>
    have hne := h r.item rfl
    rw [answer, put]
    cases hkey : StorageKey.ofItem r.item with
    | error fault => rfl
    | ok other =>
      have hother : key ≠ other := fun he => hne (he ▸ hkey)
      dsimp only
      -- a refused put leaves everything alone
      split
      · rfl
      · rw [get?_insertSorted, if_neg hother]
  | delete r =>
    have hne := h r.key rfl
    rw [answer, delete]
    cases hkey : StorageKey.ofItem r.key with
    | error fault => rfl
    | ok other =>
      have hother : key ≠ other := fun he => hne (he ▸ hkey)
      exact get?_erase_of_ne hother items
  | update r =>
    have hne := h r.key rfl
    rw [answer, update]
    cases hkey : StorageKey.ofItem r.key with
    | error fault => rfl
    | ok other =>
      have hother : key ≠ other := fun he => hne (he ▸ hkey)
      dsimp only
      -- whether it was carried out or not, the update is filed by its key
      rw [get?_insertSorted, if_neg hother]
  | get r => rfl
  | query r => rfl
  | scan r => rfl

/-- What was put is filed under its key. -/
theorem get?_put {items : Items} {r : PutRequest} {response : Response}
    (h : (put items r).1 = .ok response) :
    ∃ key, StorageKey.ofItem r.item = .ok key ∧ get? key (put items r).2 = some r.item := by
  rw [put] at h ⊢
  cases hkey : StorageKey.ofItem r.item with
  | error fault =>
    rw [hkey] at h
    cases h
  | ok key =>
    rw [hkey] at h
    dsimp only at h ⊢
    refine ⟨key, rfl, ?_⟩
    split at h
    · cases h
    · next haccepted => rw [if_neg haccepted, get?_insertSorted_self]

/-! ## Drafts one after the other -/

namespace Store

/-- The store after some drafts were executed, each for the table beside it. This is `execute`
again and again; responses are dropped, since only what is stored afterwards is of interest here. -/
def after (store : Store) (steps : List (Table × Draft)) : Store :=
  steps.foldl (fun store step => (step.2.execute step.1 transport store).2) store

/-- The draft is not made a request that writes the key. A draft that cannot be built spares every
key. -/
def Spares (key : StorageKey) (t : Table) (d : Draft) : Prop :=
  ∀ operation, d.build t = .ok operation →
    ∀ item, operation.written? = some item → StorageKey.ofItem item ≠ .ok key

theorem get?_execute_of_spares {key : StorageKey} {t : Table} {d : Draft} (h : Spares key t d)
    (store : Store) : get? key (d.execute t transport store).2.items = get? key store.items := by
  cases hbuild : d.build t with
  | error e => rw [Draft.execute_of_build_eq_error hbuild]
  | ok operation =>
    rw [Draft.execute_of_build_eq_ok hbuild]
    exact get?_answer_of_ne (h operation hbuild)

/-- **The frame of a run.** Drafts that do not write a key leave alone what is filed under it,
however many they are. It is an induction on the drafts, and every step is the frame of a request
or a draft that never arrives. -/
theorem get?_after_of_spares {key : StorageKey} {steps : List (Table × Draft)}
    (h : ∀ step ∈ steps, Spares key step.1 step.2) (store : Store) :
    get? key (store.after steps).items = get? key store.items := by
  induction steps generalizing store with
  | nil => rfl
  | cons step steps ih =>
    have hrest := ih fun s hs => h s (List.mem_cons_of_mem step hs)
    rw [after, List.foldl_cons]
    exact (hrest _).trans (get?_execute_of_spares (h step List.mem_cons_self) store)

end Store

/-! ## Items that are filed by strings -/

/-- What items with two strings as key attributes are filed under. This is `storage_key` of such
an item: the JSON texts of the two descriptors. -/
def StorageKey.ofTexts (partition sort : String) : StorageKey :=
  { partition := (Descriptor.string partition).wire, sort := (Descriptor.string sort).wire }

/-- Different strings have different wire texts, since each can be read back. -/
theorem wire_string_injective {a b : String}
    (h : (Descriptor.string a).wire = (Descriptor.string b).wire) : a = b := by
  have hread : ∀ s : String,
      Descriptor.read (Descriptor.string s).wire = .ok (Descriptor.string s) := by
    intro s
    have hdepth : (Descriptor.string s).toDocument.depth = 1 := rfl
    exact Descriptor.read_wire_eq_wireForm rfl (hdepth ▸ by decide)
      fun _ hx => absurd hx List.not_mem_nil
  have hback := hread a
  rw [h, hread b] at hback
  cases hback
  rfl

theorem StorageKey.ofTexts_injective {partition sort partition' sort' : String}
    (h : ofTexts partition sort = ofTexts partition' sort') :
    partition = partition' ∧ sort = sort' := by
  obtain ⟨hpartition, hsort⟩ := StorageKey.mk.inj h
  exact ⟨wire_string_injective hpartition, wire_string_injective hsort⟩

end Memory

end ItemStore
