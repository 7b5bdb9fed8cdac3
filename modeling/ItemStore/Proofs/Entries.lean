import ItemStore.Entries
import Mathlib.Data.List.Basic
import Mathlib.Data.List.Forall2
import Mathlib.Data.List.Induction
import Mathlib.Data.List.Perm.Subperm

/-
Tables that only grow.

A token table is added to and never corrected, so what holds of a table while an
expression is compiled has to hold of every later one. `Grows` says that in terms of
look-ups alone: everything that is stored stays stored under its key. Which keys are
new is kept apart from it, because most proofs need only one of the two.

Token tables, the entries of maps and the fields of schemas are all kept as lists of this kind.
-/
set_option autoImplicit false

namespace ItemStore.Entries

variable {κ α : Type} [DecidableEq κ]

/-! ## Keys and look-ups -/

/-- A key is exactly something that can be looked up. -/
theorem mem_keys_iff {key : κ} {entries : List (κ × α)} :
    key ∈ keys entries ↔ ∃ a, get? key entries = some a := by
  induction entries with
  | nil => simp [keys, get?]
  | cons e entries ih =>
    obtain ⟨k, a⟩ := e
    have hkeys : keys ((k, a) :: entries) = k :: keys entries := rfl
    rw [hkeys, List.mem_cons, ih, get?]
    -- the head decides where it has the key, and the rest where it has not
    by_cases hk : k = key
    · simp [hk]
    · simp [hk, Ne.symm hk]

theorem get?_eq_none_iff {key : κ} {entries : List (κ × α)} :
    get? key entries = none ↔ key ∉ keys entries := by
  rw [mem_keys_iff, Option.eq_none_iff_forall_ne_some]
  simp

/-- Where no key is repeated, everything in the list can be looked up. -/
theorem get?_of_mem {key : κ} {a : α} {entries : List (κ × α)} (hnodup : (keys entries).Nodup)
    (h : (key, a) ∈ entries) : get? key entries = some a := by
  induction entries with
  | nil => cases h
  | cons e entries ih =>
    obtain ⟨k, b⟩ := e
    obtain ⟨hk, hrest⟩ := List.nodup_cons.1 hnodup
    rcases List.mem_cons.1 h with he | h
    · cases he
      rw [get?, if_pos rfl]
    -- an entry further on has another key than the head, so the head does not hide it
    · have hmem : key ∈ keys entries := List.mem_map.2 ⟨(key, a), h, rfl⟩
      have hne : k ≠ key := fun heq => hk (heq ▸ hmem)
      rw [get?, if_neg hne, ih hrest h]

/-- What can be looked up is in the list. -/
theorem mem_of_get? {key : κ} {a : α} {entries : List (κ × α)} (h : get? key entries = some a) :
    (key, a) ∈ entries := by
  induction entries with
  | nil => cases h
  | cons e entries ih =>
    obtain ⟨k, b⟩ := e
    rw [get?] at h
    by_cases hk : k = key
    · rw [if_pos hk] at h
      cases h
      rw [hk]
      exact List.mem_cons_self
    · rw [if_neg hk] at h
      exact List.mem_cons_of_mem _ (ih h)

/-- What stands in front is found first. -/
theorem get?_append (key : κ) (front back : List (κ × α)) :
    get? key (front ++ back) = (get? key front).or (get? key back) := by
  induction front with
  | nil => rfl
  | cons e front ih =>
    obtain ⟨k, a⟩ := e
    rw [List.cons_append, get?, get?, ih]
    by_cases hk : k = key
    · rw [if_pos hk, if_pos hk, Option.some_or]
    · rw [if_neg hk, if_neg hk]

/-- A look-up in entries with other targets finds the other target. -/
theorem get?_map_snd {β : Type} (f : α → β) (key : κ) (entries : List (κ × α)) :
    get? key (entries.map fun e => (e.1, f e.2)) = (get? key entries).map f := by
  induction entries with
  | nil => rfl
  | cons e entries ih =>
    obtain ⟨k, a⟩ := e
    rw [List.map_cons, get?, get?, ih]
    by_cases hk : k = key
    · rw [if_pos hk, if_pos hk, Option.map_some]
    · rw [if_neg hk, if_neg hk]

/-- Looking up in entries that are made from their keys. -/
theorem get?_map_self (f : κ → α) (key : κ) (names : List κ) :
    get? key (names.map fun k => (k, f k)) = if key ∈ names then some (f key) else none := by
  induction names with
  | nil => simp [get?]
  | cons k names ih =>
    rw [List.map_cons, get?, ih]
    by_cases hk : k = key
    · simp [hk]
    · simp [hk, Ne.symm hk]

/-! ## Picking entries by their keys -/

section Pick

variable {β : Type}

/-- The entries with the keys that are picked. What is picked for a key is what happens to the
targets under it. Order and repetitions stay, so what is known of the keys is known of what is
left. -/
def pick (choice : κ → Option (α → β)) : List (κ × α) → List (κ × β)
  | [] => []
  | (k, a) :: entries =>
    match choice k with
    | some f => (k, f a) :: pick choice entries
    | none => pick choice entries

omit [DecidableEq κ] in
theorem keys_pick (choice : κ → Option (α → β)) (entries : List (κ × α)) :
    keys (pick choice entries) = (keys entries).filter fun k => (choice k).isSome := by
  induction entries with
  | nil => rfl
  | cons e entries ih =>
    obtain ⟨k, a⟩ := e
    have hkeys : keys ((k, a) :: entries) = k :: keys entries := rfl
    rw [hkeys, List.filter_cons, pick]
    cases hk : choice k with
    | none => exact ih
    | some f => exact congrArg (k :: ·) ih

/-- A key is looked up as before if it is picked, and not found otherwise. Whether an entry is
picked depends on its key alone, so no entry comes out from behind another one. -/
theorem get?_pick (choice : κ → Option (α → β)) (key : κ) (entries : List (κ × α)) :
    get? key (pick choice entries) = (choice key).bind fun f => (get? key entries).map f := by
  induction entries with
  | nil => simp [pick, get?]
  | cons e entries ih =>
    obtain ⟨k, a⟩ := e
    by_cases hkey : k = key
    · subst hkey
      cases hk : choice k with
      | none => simp [pick, hk, ih]
      | some f => simp [pick, hk, get?]
    · cases hk : choice k with
      | none => simp [pick, hk, get?, hkey, ih]
      | some f => simp [pick, hk, get?, hkey, ih]

end Pick

/-! ## Lists without repeated keys -/

omit [DecidableEq κ] in
/-- No key is repeated if no entry has the key of one before it. -/
theorem nodup_keys_iff {entries : List (κ × α)} : (keys entries).Nodup ↔
    ∀ (i : Nat) (e : κ × α), entries[i]? = some e → e.1 ∉ keys (entries.take i) := by
  rw [List.Nodup, List.pairwise_iff_getElem]
  simp only [keys, List.length_map, List.getElem_map]
  constructor
  · intro h i e he hmem
    obtain ⟨hi, rfl⟩ := List.getElem?_eq_some_iff.1 he
    obtain ⟨e', he', hkey⟩ := List.mem_map.1 hmem
    obtain ⟨j, hj, rfl⟩ := List.mem_take_iff_getElem.1 he'
    exact h j i (by omega) hi (by omega) hkey
  · intro h i j hi hj hlt hkey
    apply h j entries[j] (List.getElem?_eq_getElem hj)
    exact List.mem_map.2 ⟨entries[i], List.mem_take_iff_getElem.2 ⟨i, by omega, rfl⟩, hkey⟩

omit [DecidableEq κ] in
/-- If no key is repeated and all of them are found among as many others, these are the keys. -/
theorem perm_keys_of_subset {β : Type} {entries : List (κ × α)} {entries' : List (κ × β)}
    (hnodup : (keys entries).Nodup) (hlength : entries.length = entries'.length)
    (hsubset : keys entries ⊆ keys entries') : (keys entries).Perm (keys entries') := by
  apply (List.subperm_of_subset hnodup hsubset).perm_of_length_le
  rw [keys, keys, List.length_map, List.length_map]
  exact Nat.le_of_eq hlength.symm

/-- Entries with the same keys go together one by one if what is found under each key does. -/
theorem forall₂_of_keys_eq {β : Type} {R : α → β → Prop} {entries : List (κ × α)}
    {entries' : List (κ × β)} (hnodup : (keys entries).Nodup)
    (hkeys : keys entries = keys entries')
    (h : ∀ key a b, get? key entries = some a → get? key entries' = some b → R a b) :
    List.Forall₂ (fun e e' => e.1 = e'.1 ∧ R e.2 e'.2) entries entries' := by
  have hlength : entries.length = entries'.length := by
    simpa only [keys, List.length_map] using congrArg List.length hkeys
  rw [List.forall₂_iff_get]
  refine ⟨hlength, ?_⟩
  intro i hi hi'
  have hkey : (entries.get ⟨i, hi⟩).1 = (entries'.get ⟨i, hi'⟩).1 := by
    have hat := congrArg (fun ks => ks[i]?) hkeys
    simpa [keys, hi, hi'] using hat
  refine ⟨hkey, h (entries.get ⟨i, hi⟩).1 _ _ ?_ ?_⟩
  · exact get?_of_mem hnodup (List.get_mem _ _)
  · rw [hkey]
    exact get?_of_mem (hkeys ▸ hnodup) (List.get_mem _ _)

/-- A new key comes last. -/
theorem insert_of_notMem {key : κ} {value : α} {entries : List (κ × α)}
    (h : key ∉ keys entries) : insert key value entries = entries ++ [(key, value)] := by
  induction entries with
  | nil => rfl
  | cons e entries ih =>
    obtain ⟨k, a⟩ := e
    have hkeys : ¬ (key = k ∨ key ∈ keys entries) := fun hmem => h (List.mem_cons.2 hmem)
    obtain ⟨hk, hrest⟩ := not_or.1 hkeys
    rw [insert, if_neg (Ne.symm hk), ih hrest, List.cons_append]

/-- Where no key is repeated, storing one pair after the other gives the pairs. -/
theorem ofList_eq_self {pairs : List (κ × α)} (h : (keys pairs).Nodup) : ofList pairs = pairs := by
  -- what is stored already and what is still to come make up the pairs
  have hstep : ∀ (rest done : List (κ × α)), (keys (done ++ rest)).Nodup →
      rest.foldl (fun entries e => insert e.1 e.2 entries) done = done ++ rest := by
    intro rest
    induction rest with
    | nil =>
      intro done _
      exact (List.append_nil done).symm
    | cons e rest ih =>
      intro done hnodup
      have hnew : e.1 ∉ keys done := by
        rw [keys, List.map_append, List.nodup_append] at hnodup
        exact fun hmem => hnodup.2.2 e.1 hmem e.1 List.mem_cons_self rfl
      rw [List.append_cons] at hnodup ⊢
      rw [List.foldl_cons, insert_of_notMem hnew]
      exact ih (done ++ [e]) hnodup
  exact hstep pairs [] h

/-- Storing adds one key and loses none. -/
theorem mem_keys_insert {key k : κ} {value : α} {entries : List (κ × α)} :
    k ∈ keys (insert key value entries) ↔ k = key ∨ k ∈ keys entries := by
  rw [mem_keys_iff, mem_keys_iff, get?_insert]
  by_cases hk : k = key
  · simp [hk]
  · simp [hk]

theorem nodup_keys_insert {key : κ} {value : α} {entries : List (κ × α)}
    (h : (keys entries).Nodup) : (keys (insert key value entries)).Nodup := by
  induction entries with
  | nil => simp [insert, keys]
  | cons e entries ih =>
    obtain ⟨k, a⟩ := e
    obtain ⟨hk, hrest⟩ := List.nodup_cons.1 h
    rw [insert]
    by_cases hkey : k = key
    · rw [if_pos hkey]
      exact List.nodup_cons.2 ⟨hk, hrest⟩
    · rw [if_neg hkey]
      refine List.nodup_cons.2 ⟨?_, ih hrest⟩
      intro hmem
      rcases mem_keys_insert.1 hmem with he | hmem
      · exact hkey he
      · exact hk hmem

/-! ## What is first under its key -/

/-- The entries that have a new key, in order. This is what filling a table key by key leaves if
keys that are there are not touched. -/
def firsts (entries : List (κ × α)) : List (κ × α) :=
  entries.foldl (fun kept e => if e.1 ∈ keys kept then kept else kept ++ [e]) []

theorem firsts_concat (entries : List (κ × α)) (e : κ × α) : firsts (entries ++ [e]) =
    if e.1 ∈ keys (firsts entries) then firsts entries else firsts entries ++ [e] := by
  rw [firsts, List.foldl_append]
  rfl

/-- The keys are those of all entries, each in the place where it is first. -/
theorem keys_firsts (entries : List (κ × α)) :
    keys (firsts entries) = (keys entries).eraseDups := by
  induction entries using List.reverseRecOn with
  | nil => rfl
  | append_singleton entries e ih =>
    have hkeys : keys (entries ++ [e]) = keys entries ++ [e.1] := by simp [keys]
    have hmem : e.1 ∈ keys (firsts entries) ↔ e.1 ∈ keys entries := by
      rw [ih, List.mem_eraseDups]
    rw [firsts_concat, hkeys, List.eraseDups_append, ← ih]
    by_cases he : e.1 ∈ keys entries
    · rw [if_pos (hmem.2 he)]
      simp [List.removeAll, he]
    · have hnew : [e.1].removeAll (keys entries) = [e.1] := by simp [List.removeAll, he]
      rw [if_neg (hmem.not.2 he), hnew, keys, List.map_append]
      rfl

theorem mem_keys_firsts {key : κ} {entries : List (κ × α)} :
    key ∈ keys (firsts entries) ↔ key ∈ keys entries := by
  rw [keys_firsts, List.mem_eraseDups]

theorem firsts_concat_of_mem {entries : List (κ × α)} {e : κ × α} (he : e.1 ∈ keys entries) :
    firsts (entries ++ [e]) = firsts entries := by
  rw [firsts_concat, if_pos (mem_keys_firsts.2 he)]

theorem firsts_concat_of_notMem {entries : List (κ × α)} {e : κ × α} (he : e.1 ∉ keys entries) :
    firsts (entries ++ [e]) = firsts entries ++ [e] := by
  rw [firsts_concat, if_neg (mem_keys_firsts.not.2 he)]

/-- What is first is what is found. -/
theorem get?_firsts (key : κ) (entries : List (κ × α)) :
    get? key (firsts entries) = get? key entries := by
  induction entries using List.reverseRecOn with
  | nil => rfl
  | append_singleton entries e ih =>
    rw [get?_append]
    by_cases he : e.1 ∈ keys entries
    · rw [firsts_concat_of_mem he, ih]
      by_cases hkey : e.1 = key
      -- what was found before stays in front
      · obtain ⟨a, ha⟩ := mem_keys_iff.1 (hkey ▸ he)
        rw [ha, Option.some_or]
      · simp [get?, hkey]
    · rw [firsts_concat_of_notMem he, get?_append, ih]

example : firsts [("id", 1), ("total", 2), ("id", 3), ("name", 4)] =
    [("id", 1), ("total", 2), ("name", 4)] := by
  decide

theorem nodup_keys_firsts (entries : List (κ × α)) : (keys (firsts entries)).Nodup := by
  induction entries using List.reverseRecOn with
  | nil => exact List.nodup_nil
  | append_singleton entries e ih =>
    by_cases he : e.1 ∈ keys entries
    · rwa [firsts_concat_of_mem he]
    · rw [firsts_concat_of_notMem he, ← insert_of_notMem (mem_keys_firsts.not.2 he)]
      exact nodup_keys_insert ih

/-! ## Filling from pairs -/

theorem keys_insert (key : κ) (value : α) (entries : List (κ × α)) :
    keys (insert key value entries) =
      if key ∈ keys entries then keys entries else keys entries ++ [key] := by
  induction entries with
  | nil => rfl
  | cons e entries ih =>
    obtain ⟨k, a⟩ := e
    have hkeys : keys ((k, a) :: entries) = k :: keys entries := rfl
    rw [insert, hkeys]
    by_cases hk : k = key
    · rw [if_pos hk, if_pos (List.mem_cons.2 (.inl hk.symm))]
      rfl
    · have hmem : key ∈ k :: keys entries ↔ key ∈ keys entries := by simp [Ne.symm hk]
      rw [if_neg hk, ← if_congr hmem.symm rfl rfl]
      show k :: keys (insert key value entries) = _
      rw [ih, apply_ite (k :: ·)]
      rfl

theorem ofList_concat (pairs : List (κ × α)) (e : κ × α) :
    ofList (pairs ++ [e]) = insert e.1 e.2 (ofList pairs) := by
  rw [ofList, List.foldl_append]
  rfl

/-- Every key has the place where it came first. -/
theorem keys_ofList (pairs : List (κ × α)) : keys (ofList pairs) = (keys pairs).eraseDups := by
  induction pairs using List.reverseRecOn with
  | nil => rfl
  | append_singleton pairs e ih =>
    have hkeys : keys (pairs ++ [e]) = keys pairs ++ [e.1] := by simp [keys]
    rw [ofList_concat, keys_insert, ih, hkeys, List.eraseDups_append]
    by_cases he : e.1 ∈ keys pairs
    · simp [List.removeAll, he]
    · simp [List.removeAll, he, List.eraseDups_cons]

theorem nodup_keys_ofList (pairs : List (κ × α)) : (keys (ofList pairs)).Nodup := by
  induction pairs using List.reverseRecOn with
  | nil => exact List.nodup_nil
  | append_singleton pairs e ih =>
    rw [ofList_concat]
    exact nodup_keys_insert ih

/-- Under every key stands what came last. -/
theorem get?_ofList (key : κ) (pairs : List (κ × α)) :
    get? key (ofList pairs) = get? key pairs.reverse := by
  induction pairs using List.reverseRecOn with
  | nil => rfl
  | append_singleton pairs e ih =>
    rw [ofList_concat, get?_insert, ih, List.reverse_append, List.reverse_singleton,
      List.singleton_append, get?]
    exact if_congr eq_comm rfl rfl

/-- Where no key is repeated, the last entry under a key is the first one. -/
theorem get?_reverse {key : κ} {entries : List (κ × α)} (h : (keys entries).Nodup) :
    get? key entries.reverse = get? key entries := by
  have hreverse : (keys entries.reverse).Nodup := by
    rw [keys, List.map_reverse]
    exact (List.reverse_perm _).nodup_iff.2 h
  apply Option.ext
  intro a
  constructor
  · exact fun ha => get?_of_mem h (List.mem_reverse.1 (mem_of_get? ha))
  · exact fun ha => get?_of_mem hreverse (List.mem_reverse.2 (mem_of_get? ha))

/-! ## Removing -/

theorem erase_sublist (key : κ) (entries : List (κ × α)) : (erase key entries).Sublist entries := by
  induction entries with
  | nil => exact List.Sublist.refl []
  | cons e entries ih =>
    rw [erase]
    by_cases hkey : e.1 = key
    · rw [if_pos hkey]
      exact List.sublist_cons_self e entries
    · rw [if_neg hkey]
      exact ih.cons_cons e

theorem nodup_keys_erase {key : κ} {entries : List (κ × α)} (h : (keys entries).Nodup) :
    (keys (erase key entries)).Nodup := h.sublist ((erase_sublist key entries).map Prod.fst)

/-- What was removed cannot be looked up, if it was there once only. -/
theorem get?_erase_self {key : κ} {entries : List (κ × α)} (h : (keys entries).Nodup) :
    get? key (erase key entries) = none := by
  induction entries with
  | nil => rfl
  | cons e entries ih =>
    obtain ⟨k, a⟩ := e
    obtain ⟨hk, hrest⟩ := List.nodup_cons.1 h
    rw [erase]
    by_cases hkey : k = key
    · rw [if_pos hkey, get?_eq_none_iff]
      exact hkey ▸ hk
    · rw [if_neg hkey, get?, if_neg hkey]
      exact ih hrest

section Sorted

variable [LT κ]

/-- The keys are in ascending order, so none is repeated. Tables of tokens and the items of a
store are kept like this. -/
def Ascending (entries : List (κ × α)) : Prop := (keys entries).Pairwise (· < ·)

omit [DecidableEq κ] in
theorem ascending_nil : Ascending ([] : List (κ × α)) := List.Pairwise.nil

omit [DecidableEq κ] in
theorem ascending_cons {key : κ} {value : α} {entries : List (κ × α)} :
    Ascending ((key, value) :: entries) ↔ (∀ k ∈ keys entries, key < k) ∧ Ascending entries :=
  List.pairwise_cons

theorem Ascending.erase {key : κ} {entries : List (κ × α)} (h : Ascending entries) :
    Ascending (erase key entries) := h.sublist ((erase_sublist key entries).map Prod.fst)

omit [DecidableEq κ] in
theorem Ascending.nodup [Std.Irrefl fun a b : κ => a < b] {entries : List (κ × α)}
    (h : Ascending entries) : (keys entries).Nodup := by
  refine List.Pairwise.imp ?_ h
  rintro key _ hlt rfl
  exact Std.Irrefl.irrefl key hlt

omit [DecidableEq κ] in
/-- Only one list of keys is in order. -/
theorem Ascending.keys_eq [IsStrictTotalOrder κ fun a b => a < b] {β : Type}
    {entries : List (κ × α)} {entries' : List (κ × β)} (h : Ascending entries)
    (h' : Ascending entries') (hkeys : ∀ key, key ∈ keys entries ↔ key ∈ keys entries') :
    keys entries = keys entries' := by
  have hperm : (keys entries).Perm (keys entries') :=
    (List.perm_ext_iff_of_nodup h.nodup h'.nodup).2 hkeys
  refine hperm.eq_of_pairwise ?_ h h'
  intro key key' _ _ hlt hgt
  exact absurd (IsTrans.trans _ _ _ hlt hgt) (Std.Irrefl.irrefl key)

/-- What is in order is known by its look-ups. -/
theorem Ascending.ext [IsStrictTotalOrder κ fun a b => a < b] {entries entries' : List (κ × α)}
    (h : Ascending entries) (h' : Ascending entries')
    (hget : ∀ key, get? key entries = get? key entries') : entries = entries' := by
  have hkeys : keys entries = keys entries' := by
    refine h.keys_eq h' fun key => ?_
    rw [mem_keys_iff, mem_keys_iff, hget]
  have hpairs : List.Forall₂ (fun e e' => e.1 = e'.1 ∧ e.2 = e'.2) entries entries' := by
    refine forall₂_of_keys_eq h.nodup hkeys fun key a b ha hb => ?_
    rw [hget, hb] at ha
    exact (Option.some.inj ha).symm
  exact List.forall₂_eq_eq_eq ▸ hpairs.imp fun _ _ he => Prod.ext he.1 he.2

variable [DecidableLT κ]

/-- Storing adds one key and loses none. -/
theorem mem_keys_insertSorted {key k : κ} {value : α} {entries : List (κ × α)} :
    k ∈ keys (insertSorted key value entries) ↔ k = key ∨ k ∈ keys entries := by
  rw [mem_keys_iff, mem_keys_iff, get?_insertSorted]
  by_cases hk : k = key
  · simp [hk]
  · simp [hk]

/-- Storing keeps the order. -/
theorem Ascending.insertSorted [IsStrictTotalOrder κ fun a b => a < b] {key : κ} {value : α}
    {entries : List (κ × α)} (h : Ascending entries) :
    Ascending (insertSorted key value entries) := by
  induction entries with
  | nil => exact ascending_cons.2 ⟨fun _ hk => absurd hk List.not_mem_nil, h⟩
  | cons e entries ih =>
    obtain ⟨k, a⟩ := e
    obtain ⟨hfirst, hrest⟩ := ascending_cons.1 h
    rw [Entries.insertSorted]
    by_cases hlt : key < k
    -- the new key comes before the first one, and so before all
    · rw [if_pos hlt]
      refine ascending_cons.2 ⟨?_, h⟩
      intro k' hk'
      rcases List.mem_cons.1 hk' with rfl | hk'
      · exact hlt
      · exact IsTrans.trans _ _ _ hlt (hfirst k' hk')
    · rw [if_neg hlt]
      by_cases heq : k = key
      · rw [if_pos heq]
        exact ascending_cons.2 ⟨hfirst, hrest⟩
      · rw [if_neg heq]
        have hgt : k < key := by
          by_contra hgt
          exact heq (Std.Trichotomous.trichotomous k key hgt hlt)
        refine ascending_cons.2 ⟨?_, ih hrest⟩
        intro k' hk'
        rcases mem_keys_insertSorted.1 hk' with rfl | hk'
        · exact hgt
        · exact hfirst k' hk'

/-- Storing under a key changes nothing exactly where this is what is stored there already. -/
theorem insertSorted_eq_self_iff [IsStrictTotalOrder κ fun a b => a < b] {key : κ} {value : α}
    {entries : List (κ × α)} (h : Ascending entries) :
    insertSorted key value entries = entries ↔ get? key entries = some value := by
  constructor
  · intro he
    rw [← he, get?_insertSorted_self]
  · intro hget
    induction entries with
    | nil => cases hget
    | cons e entries ih =>
      obtain ⟨k, a⟩ := e
      obtain ⟨hfirst, hrest⟩ := ascending_cons.1 h
      by_cases hk : k = key
      · subst hk
        rw [get?, if_pos rfl] at hget
        cases hget
        rw [insertSorted, if_neg (Std.Irrefl.irrefl k), if_pos rfl]
      · rw [get?, if_neg hk] at hget
        -- the key stands further on, so it does not come before the first one
        have hlt : k < key := hfirst key (mem_keys_iff.2 ⟨value, hget⟩)
        have hnot : ¬ key < k := fun hgt => Std.Irrefl.irrefl k (IsTrans.trans _ _ _ hlt hgt)
        rw [insertSorted, if_neg hnot, if_neg hk, ih hrest hget]

/-- A key behind all others comes last. -/
theorem insertSorted_of_forall_lt [IsStrictTotalOrder κ fun a b => a < b] {key : κ} {value : α}
    {entries : List (κ × α)} (h : ∀ k ∈ keys entries, k < key) :
    insertSorted key value entries = entries ++ [(key, value)] := by
  induction entries with
  | nil => rfl
  | cons e entries ih =>
    obtain ⟨k, a⟩ := e
    obtain ⟨hk, hrest⟩ := List.forall_mem_cons.1 h
    have hlt : ¬ key < k := fun hlt => Std.Irrefl.irrefl k (IsTrans.trans _ _ _ hk hlt)
    have hne : k ≠ key := by
      rintro rfl
      exact Std.Irrefl.irrefl k hk
    rw [insertSorted, if_neg hlt, if_neg hne, ih hrest, List.cons_append]

theorem ofListSorted_concat (pairs : List (κ × α)) (e : κ × α) :
    ofListSorted (pairs ++ [e]) = Entries.insertSorted e.1 e.2 (ofListSorted pairs) := by
  rw [ofListSorted, List.foldl_append]
  rfl

/-- What is filled in order is in order. -/
theorem ascending_ofListSorted [IsStrictTotalOrder κ fun a b => a < b] (pairs : List (κ × α)) :
    Ascending (ofListSorted pairs) := by
  induction pairs using List.reverseRecOn with
  | nil => exact ascending_nil
  | append_singleton pairs e ih =>
    rw [ofListSorted_concat]
    exact ih.insertSorted

/-- Under every key stands what came last. -/
theorem get?_ofListSorted (key : κ) (pairs : List (κ × α)) :
    get? key (ofListSorted pairs) = get? key pairs.reverse := by
  induction pairs using List.reverseRecOn with
  | nil => rfl
  | append_singleton pairs e ih =>
    rw [ofListSorted_concat, get?_insertSorted, ih, List.reverse_append, List.reverse_singleton,
      List.singleton_append, get?]
    exact if_congr eq_comm rfl rfl

theorem mem_keys_ofListSorted {key : κ} {pairs : List (κ × α)} :
    key ∈ keys (ofListSorted pairs) ↔ key ∈ keys pairs := by
  have hreverse : key ∈ keys pairs.reverse ↔ key ∈ keys pairs := by
    rw [keys, List.map_reverse, List.mem_reverse, keys]
  rw [← hreverse, mem_keys_iff, mem_keys_iff]
  simp only [get?_ofListSorted]

/-- Storing pairs that are in order gives the pairs. -/
theorem ofListSorted_eq_self [IsStrictTotalOrder κ fun a b => a < b] {pairs : List (κ × α)}
    (h : Ascending pairs) : ofListSorted pairs = pairs := by
  have hstep : ∀ (rest done : List (κ × α)), Ascending (done ++ rest) →
      rest.foldl (fun entries e => insertSorted e.1 e.2 entries) done = done ++ rest := by
    intro rest
    induction rest with
    | nil =>
      intro done _
      exact (List.append_nil done).symm
    | cons e rest ih =>
      intro done hascending
      have hlast : ∀ k ∈ keys done, k < e.1 := by
        rw [Ascending, keys, List.map_append, List.pairwise_append] at hascending
        exact fun k hk => hascending.2.2 k hk e.1 List.mem_cons_self
      rw [List.append_cons] at hascending ⊢
      rw [List.foldl_cons, insertSorted_of_forall_lt hlast]
      exact ih (done ++ [e]) hascending
  exact hstep pairs [] h

end Sorted

/-! ## Growing -/

/-- Everything that is stored in the first list is stored in the second one as well. It says
nothing about order or about what is new. -/
def Grows (entries entries' : List (κ × α)) : Prop :=
  ∀ key a, get? key entries = some a → get? key entries' = some a

theorem Grows.refl (entries : List (κ × α)) : Grows entries entries := fun _ _ h => h

theorem Grows.trans {e₁ e₂ e₃ : List (κ × α)} (h₁ : Grows e₁ e₂) (h₂ : Grows e₂ e₃) :
    Grows e₁ e₃ := fun key a h => h₂ key a (h₁ key a h)

/-- Storing under a key that has nothing else under it only adds. -/
theorem grows_insertSorted [LT κ] [DecidableLT κ] {key : κ} {value : α}
    {entries : List (κ × α)} (h : ∀ a, get? key entries = some a → a = value) :
    Grows entries (insertSorted key value entries) := by
  intro k a hk
  rw [get?_insertSorted]
  -- only the stored key is looked up anew, and there `h` says that nothing is lost
  by_cases hkey : k = key
  · rw [if_pos hkey, ← h a (hkey ▸ hk)]
  · rw [if_neg hkey, hk]

end ItemStore.Entries
