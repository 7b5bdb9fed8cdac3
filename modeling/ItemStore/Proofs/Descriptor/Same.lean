import ItemStore.Descriptor
import ItemStore.Proofs.Entries
import Mathlib.Data.List.Forall2

/-
When two descriptors are the same value.

Maps are compared without regard to order, by looking up the entries of one in the other.
Compared in this way a map is the same as itself only if no key hides another, which holds of
every map that was ever filled, but is not in the type of entries. So two statements are kept
apart here. Sameness is transitive in any case; it is reflexive and symmetric where the keys are
distinct. `Alike` is sameness made reflexive by force: it needs no assumption on keys, and where
the keys are distinct it says nothing more than sameness.

The comparison is the equality of descriptors, where maps are compared as sets of entries.
-/
set_option autoImplicit false

namespace ItemStore.Descriptor

open Entries

/-! ## Going down a descriptor -/

/-- Whether the descriptor holds other descriptors. Where neither side is one, sameness is
equality. -/
def isContainer : Descriptor → Bool
  | list _ => true
  | map _ => true
  | _ => false

/-- A property of descriptors holds of all of them if a list has it as soon as its items do,
and a map as soon as the targets of its entries do. -/
theorem induction {P : Descriptor → Prop} (plain : ∀ d : Descriptor, d.isContainer = false → P d)
    (list : ∀ items, (∀ d ∈ items, P d) → P (list items))
    (map : ∀ entries, (∀ e ∈ entries, P e.2) → P (map entries)) (d : Descriptor) : P d := by
  refine @Descriptor.rec P (fun items => ∀ d ∈ items, P d) (fun entries => ∀ e ∈ entries, P e.2)
    (fun e => P e.2) ?_ ?_ ?_ ?_ ?_ ?_ ?_ ?_ list map ?_ ?_ ?_ ?_ ?_ d
  · exact fun s => plain (.string s) rfl
  · exact fun text => plain (.number text) rfl
  · exact fun bytes => plain (.binary bytes) rfl
  · exact fun members => plain (.stringSet members) rfl
  · exact fun members => plain (.numberSet members) rfl
  · exact fun members => plain (.binarySet members) rfl
  · exact fun b => plain (.bool b) rfl
  · exact plain .null rfl
  · intro d hd
    cases hd
  · intro d items hd hitems d' hd'
    rcases List.mem_cons.1 hd' with rfl | hd'
    · exact hd
    · exact hitems d' hd'
  · intro e he
    cases he
  · intro e entries he hentries e' he'
    rcases List.mem_cons.1 he' with rfl | he'
    · exact he
    · exact hentries e' he'
  · exact fun _ _ h => h

/-! ## Distinct keys -/

mutual

/-- Whether no map in the descriptor has a key twice. It is a Boolean function, so that it can be
evaluated for a given descriptor. -/
def distinctKeys : Descriptor → Bool
  | list items => distinctKeysItems items
  | map entries => decide (keys entries).Nodup && distinctKeysEntries entries
  | _ => true

/-- Whether no map in one of the items has a key twice. -/
def distinctKeysItems : List Descriptor → Bool
  | [] => true
  | d :: items => d.distinctKeys && distinctKeysItems items

/-- Whether no map in the target of one of the entries has a key twice. -/
def distinctKeysEntries : List (String × Descriptor) → Bool
  | [] => true
  | (_, d) :: entries => d.distinctKeys && distinctKeysEntries entries

end

theorem distinctKeys_list {items : List Descriptor} :
    (list items).distinctKeys = true ↔ ∀ d ∈ items, d.distinctKeys = true := by
  rw [distinctKeys]
  induction items with
  | nil => simp [distinctKeysItems]
  | cons d items ih => rw [distinctKeysItems, Bool.and_eq_true, ih, List.forall_mem_cons]

theorem distinctKeys_map {entries : List (String × Descriptor)} :
    (map entries).distinctKeys = true ↔
      (keys entries).Nodup ∧ ∀ e ∈ entries, e.2.distinctKeys = true := by
  have hentries : distinctKeysEntries entries = true ↔ ∀ e ∈ entries, e.2.distinctKeys = true := by
    induction entries with
    | nil => simp [distinctKeysEntries]
    | cons e entries ih => rw [distinctKeysEntries, Bool.and_eq_true, ih, List.forall_mem_cons]
  rw [distinctKeys, Bool.and_eq_true, decide_eq_true_iff, hentries]

/-! ## Sameness -/

theorem sameItems_iff {as bs : List Descriptor} :
    sameItems as bs = true ↔ List.Forall₂ (fun a b => a.same b = true) as bs := by
  induction as generalizing bs with
  | nil =>
    cases bs with
    | nil => simp [sameItems]
    | cons b bs => simp [sameItems, List.forall₂_nil_left_iff]
  | cons a as ih =>
    cases bs with
    | nil => simp [sameItems, List.forall₂_nil_right_iff]
    | cons b bs => rw [sameItems, Bool.and_eq_true, ih, List.forall₂_cons]

/-- Entries are found in others one by one. -/
theorem sameEntries_iff {as bs : List (String × Descriptor)} :
    sameEntries as bs = true ↔ ∀ e ∈ as, ∃ b, get? e.1 bs = some b ∧ e.2.same b = true := by
  induction as with
  | nil => simp [sameEntries]
  | cons e as ih =>
    obtain ⟨k, a⟩ := e
    rw [sameEntries, Bool.and_eq_true, ih, List.forall_mem_cons]
    refine and_congr_left fun _ => ?_
    cases hk : get? k bs with
    | none => simp
    | some b => simp

/-- Descriptors that are the same are equal, unless they hold others. -/
theorem same_cases {a b : Descriptor} (h : a.same b = true) :
    a = b ∨
      (∃ as bs, a = list as ∧ b = list bs ∧
        List.Forall₂ (fun a b => a.same b = true) as bs) ∨
      (∃ as bs, a = map as ∧ b = map bs ∧ as.length = bs.length ∧
        ∀ e ∈ as, ∃ b, get? e.1 bs = some b ∧ e.2.same b = true) := by
  unfold same at h
  split at h
  case h_8 => exact .inl rfl
  case h_9 as bs => exact .inr (.inl ⟨as, bs, rfl, rfl, sameItems_iff.1 h⟩)
  case h_10 as bs =>
    rw [Bool.and_eq_true, decide_eq_true_iff] at h
    exact .inr (.inr ⟨as, bs, rfl, rfl, h.1, sameEntries_iff.1 h.2⟩)
  case h_11 => cases h
  all_goals exact .inl (by rw [of_decide_eq_true h])

theorem same_list {as bs : List Descriptor} :
    (list as).same (list bs) = true ↔ List.Forall₂ (fun a b => a.same b = true) as bs := by
  rw [same, sameItems_iff]

theorem same_map {as bs : List (String × Descriptor)} :
    (map as).same (map bs) = true ↔ as.length = bs.length ∧
      ∀ e ∈ as, ∃ b, get? e.1 bs = some b ∧ e.2.same b = true := by
  rw [same, Bool.and_eq_true, decide_eq_true_iff, sameEntries_iff]

/-- **Sameness carries over.** No assumption on the keys is needed: what is looked up is somewhere
among the entries, and is looked up in turn. This is what lets sameness be followed along any
number of steps. -/
theorem same_trans {a b c : Descriptor} (h : a.same b = true) (h' : b.same c = true) :
    a.same c = true := by
  induction a using Descriptor.induction generalizing b c with
  | plain a hplain =>
    rcases same_cases h with rfl | ⟨as, bs, rfl, -⟩ | ⟨as, bs, rfl, -⟩
    · exact h'
    · cases hplain
    · cases hplain
  | list as ih =>
    rcases same_cases h with rfl | ⟨as', bs, he, rfl, hbs⟩ | ⟨_, _, he, -⟩
    · exact h'
    · cases he
      rcases same_cases h' with rfl | ⟨bs', cs, he, rfl, hcs⟩ | ⟨_, _, he, -⟩
      · exact h
      · cases he
        rw [same_list]
        clear h h'
        -- item by item, along the list in the middle
        induction hbs generalizing cs with
        | nil =>
          cases hcs
          exact .nil
        | cons hfirst _ ih' =>
          rcases hcs with _ | ⟨hfirst', hrest'⟩
          have hhead := ih _ List.mem_cons_self hfirst hfirst'
          exact .cons hhead (ih' (fun d hd => ih d (List.mem_cons_of_mem _ hd)) _ hrest')
      · cases he
    · cases he
  | map as ih =>
    rcases same_cases h with rfl | ⟨_, _, he, -⟩ | ⟨as', bs, he, rfl, hlen, hbs⟩
    · exact h'
    · cases he
    · cases he
      rcases same_cases h' with rfl | ⟨_, _, he, -⟩ | ⟨bs', cs, he, rfl, hlen', hcs⟩
      · exact h
      · cases he
      · cases he
        rw [same_map]
        refine ⟨hlen.trans hlen', ?_⟩
        intro e he
        obtain ⟨b, hb, hsame⟩ := hbs e he
        obtain ⟨c, hc, hsame'⟩ := hcs (e.1, b) (mem_of_get? hb)
        exact ⟨c, hc, ih e he hsame hsame'⟩

/-- A descriptor with distinct keys is the same as itself. -/
theorem same_refl {a : Descriptor} (h : a.distinctKeys = true) : a.same a = true := by
  induction a using Descriptor.induction with
  | plain a hplain =>
    cases a with
    | list items => cases hplain
    | map entries => cases hplain
    | null => rw [same]
    | _ => rw [same, decide_eq_true rfl]
  | list items ih =>
    rw [distinctKeys_list] at h
    rw [same_list, List.forall₂_same]
    intro d hd
    exact ih d hd (h d hd)
  | map entries ih =>
    rw [distinctKeys_map] at h
    rw [same_map]
    refine ⟨rfl, ?_⟩
    intro e he
    -- no other entry hides this one
    exact ⟨e.2, get?_of_mem h.1 he, ih e he (h.2 e he)⟩

/-- **Sameness goes both ways**, if no key hides another on the one side. Then the other side has
no other keys, since there are as many of them. One side is enough: it is a count that brings the
other one in. -/
theorem same_symm {a b : Descriptor} (hkeys : a.distinctKeys = true) (h : a.same b = true) :
    b.same a = true := by
  induction a using Descriptor.induction generalizing b with
  | plain a hplain =>
    rcases same_cases h with rfl | ⟨as, bs, rfl, -⟩ | ⟨as, bs, rfl, -⟩
    · exact h
    · cases hplain
    · cases hplain
  | list as ih =>
    rcases same_cases h with rfl | ⟨as', bs, he, rfl, hbs⟩ | ⟨_, _, he, -⟩
    · exact h
    · cases he
      rw [distinctKeys_list] at hkeys
      rw [same_list]
      clear h
      induction hbs with
      | nil => exact .nil
      | cons hfirst _ ih' =>
        obtain ⟨hkey, hkeys⟩ := List.forall_mem_cons.1 hkeys
        have hhead := ih _ List.mem_cons_self hkey hfirst
        exact .cons hhead (ih' (fun d hd => ih d (List.mem_cons_of_mem _ hd)) hkeys)
    · cases he
  | map as ih =>
    rcases same_cases h with rfl | ⟨_, _, he, -⟩ | ⟨as', bs, he, rfl, hlength, hbs⟩
    · exact h
    · cases he
    · cases he
      obtain ⟨hnodup, hinside⟩ := distinctKeys_map.1 hkeys
      have hsubset : keys as ⊆ keys bs := by
        intro key hkey
        obtain ⟨e, he, rfl⟩ := List.mem_map.1 hkey
        obtain ⟨b, hb, -⟩ := hbs e he
        exact mem_keys_iff.2 ⟨b, hb⟩
      have hperm := perm_keys_of_subset hnodup hlength hsubset
      rw [same_map]
      refine ⟨hlength.symm, ?_⟩
      intro e he
      obtain ⟨a, ha⟩ := mem_keys_iff.1 (hperm.mem_iff.2 (List.mem_map.2 ⟨e, he, rfl⟩))
      have hmem := mem_of_get? ha
      obtain ⟨b, hb, hsame⟩ := hbs (e.1, a) hmem
      -- no other entry hides this one
      rw [get?_of_mem (hperm.nodup_iff.1 hnodup) he] at hb
      cases hb
      exact ⟨a, ha, ih (e.1, a) hmem (hinside (e.1, a) hmem) hsame⟩

/-! ## Likeness -/

/-- Descriptors that are equal, the order of the entries of maps aside. It is reflexive without a
condition, which is what tables of descriptors need. -/
def Alike (a b : Descriptor) : Prop := a = b ∨ a.same b = true

theorem Alike.refl (a : Descriptor) : Alike a a := .inl rfl

theorem Alike.trans {a b c : Descriptor} (h : Alike a b) (h' : Alike b c) : Alike a c := by
  rcases h with rfl | h
  · exact h'
  · rcases h' with rfl | h'
    · exact .inr h
    · exact .inr (same_trans h h')

end ItemStore.Descriptor
