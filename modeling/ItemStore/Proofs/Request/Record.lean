import ItemStore.Proofs.Descriptor.WireForm
import ItemStore.Request.Wire
import Mathlib.Data.String.Basic

/-
Records that travel.

A record is written member by member, and what is absent or empty is left out. Reading starts from
the record in which everything is, and goes on from member to member. So the two fit together as
soon as they do so for each member: whether a member was written or left out, the record that
reading has come to is the written one up to that member (`Carries`). The rule by which a member
is left out and what it is when it is missing are seen side by side there, and nowhere else.

Only members that a reader knows count. What stands between them is passed over, whatever it is
(`read_record`).

The members and their defaults are those of the wire types; that a missing member is an error is
said by `required`.
-/
set_option autoImplicit false

namespace ItemStore

open Entries Json

namespace RecordShape

variable {α : Type} {shape : RecordShape α} {r r₁ r₂ : α} {ms ms₁ ms₂ : List (String × Document)}

/-! ## Reading members -/

/-- Reads members one after the other, all of which are known. It is what reading comes to once
the unknown members are gone. -/
def setAll (shape : RecordShape α) : List (String × Document) → α → Except Refusal α
  | [], r => .ok r
  | (name, d) :: ms, r => do
    let r ← shape.set name d r
    shape.setAll ms r

theorem setAll_append_eq_ok (h₁ : shape.setAll ms₁ r = .ok r₁) (h₂ : shape.setAll ms₂ r₁ = .ok r₂) :
    shape.setAll (ms₁ ++ ms₂) r = .ok r₂ := by
  induction ms₁ generalizing r with
  | nil =>
    cases h₁
    exact h₂
  | cons m ms₁ ih =>
    obtain ⟨name, d⟩ := m
    obtain ⟨r', hset, hrest⟩ := bind_eq_ok.1 h₁
    exact bind_eq_ok.2 ⟨r', hset, ih hrest⟩

/-- What is not known is passed over. -/
theorem readMembers_filter (seen : List String) (ms : List (String × Document)) (r : α) :
    shape.readMembers seen ms r =
      shape.readMembers seen (ms.filter fun m => m.1 ∈ shape.members) r := by
  induction ms generalizing seen r with
  | nil => rfl
  | cons m ms ih =>
    obtain ⟨name, d⟩ := m
    by_cases hknown : name ∈ shape.members
    · rw [List.filter_cons_of_pos (by simpa using hknown), readMembers, readMembers, if_pos hknown,
        if_pos hknown]
      by_cases hseen : name ∈ seen
      · rw [if_pos hseen, if_pos hseen]
      · rw [if_neg hseen, if_neg hseen]
        exact congrArg (shape.set name d r >>= ·) (funext fun r' => ih (name :: seen) r')
    · rw [List.filter_cons_of_neg (by simpa using hknown), readMembers, if_neg hknown, ih]

/-- Known members without repetition are read one after the other. -/
theorem readMembers_of_setAll {seen : List String} (hknown : ∀ name ∈ keys ms, name ∈ shape.members)
    (hnew : ∀ name ∈ keys ms, name ∉ seen) (hnodup : (keys ms).Nodup)
    (h : shape.setAll ms r = .ok r₁) :
    shape.readMembers seen ms r = .ok (r₁, (keys ms).reverse ++ seen) := by
  induction ms generalizing seen r with
  | nil =>
    cases h
    rfl
  | cons m ms ih =>
    obtain ⟨name, d⟩ := m
    obtain ⟨r', hset, hrest⟩ := bind_eq_ok.1 h
    obtain ⟨hfirst, hnodup⟩ := List.nodup_cons.1 hnodup
    obtain ⟨hknown₁, hknown⟩ := List.forall_mem_cons.1 hknown
    obtain ⟨hnew₁, hnew⟩ := List.forall_mem_cons.1 hnew
    have hfresh : ∀ other ∈ keys ms, other ∉ name :: seen := by
      intro other hother hmem
      rcases List.mem_cons.1 hmem with rfl | hmem
      · exact hfirst hother
      · exact hnew other hother hmem
    have htail : shape.readMembers (name :: seen) ms r' =
        .ok (r₁, (keys ms).reverse ++ name :: seen) := ih hknown hfresh hnodup hrest
    have hseen : (keys ((name, d) :: ms)).reverse ++ seen = (keys ms).reverse ++ name :: seen := by
      simp [keys]
    rw [readMembers, if_pos hknown₁, if_neg hnew₁, hseen]
    exact bind_eq_ok.2 ⟨r', hset, htail⟩

/-! ## Members that carry a record -/

/-- The members have some of the given names, in the order of these; they can be written; and they
lead from one record to another when they are read. It is stated between two records so that it
can be put together member by member, whether a member was written or not. -/
structure Carries (shape : RecordShape α) (names : List String) (ms : List (String × Document))
    (r r' : α) : Prop where
  named : (keys ms).Sublist names
  written : ∀ m ∈ ms, m.2.WellWritten
  read : shape.setAll ms r = .ok r'

theorem Carries.append {names₁ names₂ : List String} (h₁ : shape.Carries names₁ ms₁ r r₁)
    (h₂ : shape.Carries names₂ ms₂ r₁ r₂) :
    shape.Carries (names₁ ++ names₂) (ms₁ ++ ms₂) r r₂ := by
  refine ⟨?_, ?_, setAll_append_eq_ok h₁.read h₂.read⟩
  · rw [keys, List.map_append]
    exact h₁.named.append h₂.named
  · exact List.forall_mem_append.2 ⟨h₁.written, h₂.written⟩

/-- Nothing written, nothing read. -/
theorem carries_nil (name : String) : shape.Carries [name] [] r r :=
  ⟨List.nil_sublist _, fun _ h => absurd h List.not_mem_nil, rfl⟩

/-- A member that is always there. -/
theorem carries_member {name : String} {d : Document} (hwritten : d.WellWritten)
    (hset : shape.set name d r = .ok r₁) : shape.Carries [name] [(name, d)] r r₁ := by
  refine ⟨List.Sublist.refl _, ?_, bind_eq_ok.2 ⟨r₁, hset, rfl⟩⟩
  intro m hm
  rw [List.mem_singleton.1 hm]
  exact hwritten

/-- A member that is left out when it is absent. Reading starts with nothing in its place. -/
theorem carries_optional {β : Type} {name : String} {write : β → Document} {a a' : Option β}
    (put : Option β → α) (hwritten : ∀ b, a = some b → (write b).WellWritten)
    (hset : ∀ b, a = some b → shape.set name (write b) (put none) = .ok (put a'))
    (hnone : a = none → a' = none) :
    shape.Carries [name] (optionalMember name write a) (put none) (put a') := by
  cases a with
  | none =>
    rw [hnone rfl]
    exact carries_nil name
  | some b => exact carries_member (hwritten b rfl) (hset b rfl)

/-- A table that is left out when it is empty. Reading starts with an empty one. -/
theorem carries_table {β : Type} {name : String} {write : β → Document}
    {table table' : List (String × β)} (put : List (String × β) → α)
    (hwritten : ∀ e ∈ table, (write e.2).WellWritten)
    (hset : shape.set name (.record (table.map fun e => (e.1, write e.2))) (put []) =
      .ok (put table'))
    (hempty : table = [] → table' = []) :
    shape.Carries [name] (tableMember name write table) (put []) (put table') := by
  rw [tableMember]
  by_cases htable : table = []
  · rw [hempty htable, htable]
    exact carries_nil name
  · rw [if_neg (by simpa using htable)]
    refine carries_member (.record fun m hm => ?_) hset
    obtain ⟨e, he, rfl⟩ := List.mem_map.1 hm
    exact hwritten e he

theorem Carries.named_written {names : List String} (h : shape.Carries names ms r r₁) :
    (keys ms).Sublist names ∧ ∀ m ∈ ms, m.2.WellWritten :=
  ⟨h.named, h.written⟩

/-- **Reading a record.** Among any other members, those that carry the record lead to it. Unknown
members are filtered out first, so where they stand does not matter, whereas the known ones keep
their order. -/
theorem Carries.read_record (h : shape.Carries shape.members ms shape.initial r)
    (hnodup : shape.members.Nodup) (hrequired : shape.required ⊆ keys ms)
    {all : List (String × Document)} (hall : (all.filter fun m => m.1 ∈ shape.members) = ms) :
    shape.read (.record all) = .ok r := by
  have hread : shape.readMembers [] all shape.initial = .ok (r, (keys ms).reverse ++ []) := by
    rw [readMembers_filter, hall]
    exact readMembers_of_setAll (fun name hname => h.named.subset hname)
      (fun name _ => List.not_mem_nil) (hnodup.sublist h.named) h.read
  have hcomplete : (shape.required.all fun name => name ∈ (keys ms).reverse ++ []) = true := by
    rw [List.all_eq_true]
    intro name hname
    simpa using hrequired hname
  exact bind_eq_ok.2 ⟨_, hread, if_pos ⟨rfl, hcomplete⟩⟩

end RecordShape

/-- A record whose members are all known is read member by member; nothing is skipped. -/
theorem scanRecordText_render {known : String → Bool} {ms : List (String × Document)}
    (hknown : ∀ m ∈ ms, known m.1 = true) (hwritten : ∀ m ∈ ms, m.2.WellWritten)
    (hdepth : ∀ m ∈ ms, m.2.depth ≤ maxLevels - 1) :
    scanRecordText known (Document.record ms).render = (.record ms, true) := by
  have hscan : ∀ m ∈ ms, ∀ rest, Number.EndsNumber rest →
      (if known m.1 then scan (maxLevels - 1) (m.2.text ++ rest)
        else scanSkipped (m.2.text ++ rest)) = (m.2, rest) := by
    intro m hm rest hrest
    rw [if_pos (hknown m hm)]
    exact scan_text (hwritten m hm) (hdepth m hm) hrest
  have hobject : scanObject
      (fun key cs => if known key then scan (maxLevels - 1) cs else scanSkipped cs)
      (Document.membersText ms ++ ['\x7d']) = (.record ms, []) := scanObject_text hscan []
  have htext : (Document.record ms).render.toList =
      '\x7b' :: (Document.membersText ms ++ ['\x7d']) := by
    rw [Document.render, String.toList_ofList, Document.text]
    rfl
  rw [scanRecordText, htext, skipSpace_cons (by decide)]
  split
  · next he =>
    cases he
    rw [hobject]
    rfl
  · next hother => exact (hother _ rfl).elim

/-! ## What members are read as -/

/-- What is written as something else than null is read as present. -/
theorem optionOfDocument_of_ne_null {α : Type} {read : Document → Except Refusal α} {d : Document}
    (h : d ≠ .null) : optionOfDocument read d = (read d).map some := by
  cases d with
  | null => exact absurd rfl h
  | _ => rfl

theorem requestChoice_string {α : Type} {ofText? : String → Option α} {text : String} {a : α}
    (h : ofText? text = some a) : requestChoice ofText? (.string text) = .ok (some a) := by
  show (choiceOfDocument ofText? isNullOrEmpty (.string text)).map some = .ok (some a)
  rw [choiceOfDocument, h]
  rfl

theorem ReturnValues.ofText?_text (v : ReturnValues) : ofText? v.text = some v := by
  cases v <;> rfl

theorem CapacityReport.ofText?_text (c : CapacityReport) : ofText? c.text = some c := by
  cases c <;> rfl

theorem CollectionReport.ofText?_text (c : CollectionReport) : ofText? c.text = some c := by
  cases c <;> rfl

theorem OperationKind.ofText?_text (kind : OperationKind) : ofText? kind.text = some kind := by
  cases kind <;> rfl

/-- A number of 32 bits is read back. -/
theorem wordOfDocument_wordDocument {n : Nat} (h : n ≤ 4294967295) :
    wordOfDocument (wordDocument n) = .ok n := by
  rw [wordDocument, wordOfDocument, if_pos (by omega), Int.toNat_natCast]

theorem wellWritten_wordDocument {n : Nat} (h : n ≤ 4294967295) :
    (wordDocument n).WellWritten :=
  .number (Number.readsBack_natCast (Nat.le_trans h (by decide)))

/-- A table of names in order is read back. -/
theorem namesOfDocument_record {names : List (String × String)} (h : Ascending names) :
    namesOfDocument (.record (names.map fun e => (e.1, .string e.2))) = .ok names := by
  have hnames : (names.map fun e => (e.1, Document.string e.2)).mapM (fun m => do
      let name ← Descriptor.stringOfDocument m.2
      Except.ok (m.1, name) : String × Document → Except Refusal (String × String)) =
        .ok (names.map id) := mapM_map_eq_ok fun e _ => rfl
  rw [List.map_id] at hnames
  refine bind_eq_ok.2 ⟨names, hnames, ?_⟩
  rw [ofListSorted_eq_self h]
  rfl

end ItemStore
