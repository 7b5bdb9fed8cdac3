import ItemStore.Proofs.Schema.Encoding
import ItemStore.Schema.Path

/-
Schemas that are declared alike.

Two declarations are the same to the library if they differ in the order of fields only. The
comparison that decides this goes through the fields of one of them and looks each of them up in
the other, which is easy to run and awkward to reason from: it is not symmetric on the face of it.
`Alike` is the relation that it decides, one constructor a kind of node, and symmetric by an
induction of a few lines. Alike schemas lead a path to alike nodes.

No name may be repeated in a map. Schemas that passed `validate` have none repeated, and the
relation has it as a part.

The comparison is what `combine` asks before it lets two entities share a field.
-/
set_option autoImplicit false

namespace ItemStore.Schema

open Entries

/-- Schemas that are equal, the order of the fields of maps aside. The fields of a map are a
permutation followed by a pairing, so that reordering and descending can be taken one at a time. -/
inductive Alike : Schema → Schema → Prop where
  | scalar (m : Modifiers) (kind : ScalarKind) : Alike (scalar m kind) (scalar m kind)
  | set (m : Modifiers) (kind : SetKind) : Alike (set m kind) (set m kind)
  | map {m : Modifiers} {fields fields' : List (String × Schema)} (nodup : (keys fields).Nodup)
      (names : (keys fields).Perm (keys fields'))
      (nodes : ∀ name s s', get? name fields = some s → get? name fields' = some s' → Alike s s') :
      Alike (map m fields) (map m fields')
  | list {m : Modifiers} {s s' : Schema} (element : Alike s s') : Alike (list m s) (list m s')
  | partitionKey {m : Modifiers} {s s' : Schema} (inner : Alike s s') :
      Alike (partitionKey m s) (partitionKey m s')
  | sortKey {m : Modifiers} {s s' : Schema} (inner : Alike s s') :
      Alike (sortKey m s) (sortKey m s')

/-! ## The comparison -/

theorem sameFields_iff {fields fields' : List (String × Schema)} :
    sameFields fields fields' = true ↔
      ∀ f ∈ fields, ∃ s', get? f.1 fields' = some s' ∧ f.2.same s' = true := by
  induction fields with
  | nil => simp [sameFields]
  | cons f fields ih =>
    obtain ⟨name, s⟩ := f
    rw [sameFields, Bool.and_eq_true, ih, List.forall_mem_cons]
    refine and_congr_left fun _ => ?_
    cases hs : get? name fields' with
    | none => simp
    | some s' => simp

/-- If all fields are found among as many others, these have the same names. -/
theorem perm_keys_of_found {fields fields' : List (String × Schema)}
    (hnodup : (keys fields).Nodup) (hlength : fields.length = fields'.length)
    (hfound : ∀ f ∈ fields, ∃ s', get? f.1 fields' = some s' ∧ f.2.same s' = true) :
    (keys fields).Perm (keys fields') := by
  refine perm_keys_of_subset hnodup hlength fun name hname => ?_
  obtain ⟨f, hf, rfl⟩ := List.mem_map.1 hname
  obtain ⟨s', hs', -⟩ := hfound f hf
  exact mem_keys_iff.2 ⟨s', hs'⟩

/-- What is compared successfully is declared alike. -/
theorem alike_of_same {s s' : Schema} (hnames : s.repeatedName? = none) (h : s.same s' = true) :
    Alike s s' := by
  induction s using Schema.induction generalizing s' with
  | scalar m kind =>
    cases s' with
    | scalar m' kind' =>
      rw [same, Bool.and_eq_true, decide_eq_true_iff, decide_eq_true_iff] at h
      rw [← h.1, ← h.2]
      exact .scalar m kind
    | _ => cases h
  | set m kind =>
    cases s' with
    | set m' kind' =>
      rw [same, Bool.and_eq_true, decide_eq_true_iff, decide_eq_true_iff] at h
      rw [← h.1, ← h.2]
      exact .set m kind
    | _ => cases h
  | map m fields ih =>
    cases s' with
    | map m' fields' =>
      obtain ⟨hnodup, -, hinside⟩ := repeatedNameAmong?_eq_none hnames
      rw [same, Bool.and_eq_true, Bool.and_eq_true, decide_eq_true_iff, decide_eq_true_iff,
        sameFields_iff] at h
      obtain ⟨⟨rfl, hlength⟩, hfields⟩ := h
      refine .map hnodup (perm_keys_of_found hnodup hlength hfields) ?_
      intro name s s' hs hs'
      have hmem : (name, s) ∈ fields := mem_of_get? hs
      obtain ⟨found, hfound, hsame⟩ := hfields (name, s) hmem
      rw [hs'] at hfound
      cases hfound
      exact ih (name, s) hmem (hinside _ hmem) hsame
    | _ => cases h
  | list m element ih =>
    cases s' with
    | list m' element' =>
      rw [same, Bool.and_eq_true, decide_eq_true_iff] at h
      rw [← h.1]
      exact .list (ih hnames h.2)
    | _ => cases h
  | partitionKey m inner ih =>
    cases s' with
    | partitionKey m' inner' =>
      rw [same, Bool.and_eq_true, decide_eq_true_iff] at h
      rw [← h.1]
      exact .partitionKey (ih hnames h.2)
    | _ => cases h
  | sortKey m inner ih =>
    cases s' with
    | sortKey m' inner' =>
      rw [same, Bool.and_eq_true, decide_eq_true_iff] at h
      rw [← h.1]
      exact .sortKey (ih hnames h.2)
    | _ => cases h

namespace Alike

variable {s s' : Schema}

/-- What is declared alike is compared successfully. -/
theorem same (h : Alike s s') : s.same s' = true := by
  induction h with
  | scalar m kind => simp [Schema.same]
  | set m kind => simp [Schema.same]
  | @map m fields fields' nodup names nodes ih =>
    have hlength : fields.length = fields'.length := by
      simpa [keys] using names.length_eq
    have hfields : sameFields fields fields' = true := by
      rw [sameFields_iff]
      intro f hf
      have hs : get? f.1 fields = some f.2 := get?_of_mem nodup hf
      obtain ⟨s', hs'⟩ := mem_keys_iff.1 (names.mem_iff.1 (mem_keys_iff.2 ⟨f.2, hs⟩))
      exact ⟨s', hs', ih f.1 f.2 s' hs hs'⟩
    simp [Schema.same, hlength, hfields]
  | list _ ih => simp [Schema.same, ih]
  | partitionKey _ ih => simp [Schema.same, ih]
  | sortKey _ ih => simp [Schema.same, ih]

theorem symm (h : Alike s s') : Alike s' s := by
  induction h with
  | scalar m kind => exact .scalar m kind
  | set m kind => exact .set m kind
  | map nodup names _ ih =>
    exact .map (names.nodup_iff.1 nodup) names.symm fun name s s' hs hs' => ih name s' s hs' hs
  | list _ ih => exact .list ih
  | partitionKey _ ih => exact .partitionKey ih
  | sortKey _ ih => exact .sortKey ih

theorem trans {s'' : Schema} (h : Alike s s') (h' : Alike s' s'') : Alike s s'' := by
  induction h generalizing s'' with
  | scalar m kind => exact h'
  | set m kind => exact h'
  | map nodup names nodes ih =>
    cases h' with
    | map nodup' names' nodes' =>
      refine .map nodup (names.trans names') fun name s s'' hs hs'' => ?_
      obtain ⟨s', hs'⟩ := mem_keys_iff.1 (names.mem_iff.1 (mem_keys_iff.2 ⟨s, hs⟩))
      exact ih name s s' hs hs' (nodes' name s' s'' hs' hs'')
  | list _ ih =>
    cases h' with
    | list element => exact .list (ih element)
  | partitionKey _ ih =>
    cases h' with
    | partitionKey inner => exact .partitionKey (ih inner)
  | sortKey _ ih =>
    cases h' with
    | sortKey inner => exact .sortKey (ih inner)

theorem refl (hnames : s.repeatedName? = none) : Alike s s := by
  induction s using Schema.induction with
  | scalar m kind => exact .scalar m kind
  | set m kind => exact .set m kind
  | map m fields ih =>
    obtain ⟨hnodup, -, hinside⟩ := repeatedNameAmong?_eq_none hnames
    refine .map hnodup (.refl _) ?_
    intro name s s' hs hs'
    rw [hs] at hs'
    cases hs'
    exact ih (name, s) (mem_of_get? hs) (hinside _ (mem_of_get? hs))
  | list m element ih => exact .list (ih hnames)
  | partitionKey m inner ih => exact .partitionKey (ih hnames)
  | sortKey m inner ih => exact .sortKey (ih hnames)

/-! ## What alike schemas have in common -/

theorem modifiers_eq (h : Alike s s') : s.modifiers = s'.modifiers := by
  cases h with
  | _ => rfl

theorem isOptional_eq (h : Alike s s') : s.isOptional = s'.isOptional :=
  congrArg Modifiers.optional h.modifiers_eq

theorem unwrapKey (h : Alike s s') : Alike s.unwrapKey s'.unwrapKey := by
  cases h with
  | partitionKey inner => exact inner
  | sortKey inner => exact inner
  | scalar m kind => exact .scalar m kind
  | set m kind => exact .set m kind
  | map nodup names nodes => exact .map nodup names nodes
  | list element => exact .list element

/-- One segment leads to alike nodes. -/
theorem step? {node : Schema} {segment : String} (h : Alike s s')
    (hnode : s.step? segment = some node) :
    ∃ node', s'.step? segment = some node' ∧ Alike node node' := by
  cases h with
  | @map m fields fields' nodup names nodes =>
    obtain ⟨node', hnode'⟩ := mem_keys_iff.1 (names.mem_iff.1 (mem_keys_iff.2 ⟨node, hnode⟩))
    exact ⟨node', hnode', nodes segment node node' hnode hnode'⟩
  | list element =>
    cases hnode
    exact ⟨_, rfl, element⟩
  | scalar m kind => cases hnode
  | set m kind => cases hnode
  | partitionKey inner => cases hnode
  | sortKey inner => cases hnode

/-- **Paths.** Any number of segments leads to alike nodes. It is what makes a path mean the same
in an entity and in a combined schema. -/
theorem descend? {node : Schema} {segments : List String} (h : Alike s s')
    (hnode : s.descend? segments = some node) :
    ∃ node', s'.descend? segments = some node' ∧ Alike node node' := by
  induction segments generalizing s s' with
  | nil =>
    cases hnode
    exact ⟨s', rfl, h⟩
  | cons segment segments ih =>
    rw [Schema.descend?, List.foldlM_cons] at hnode ⊢
    obtain ⟨child, hchild, hnode⟩ := Option.bind_eq_some_iff.1 hnode
    obtain ⟨child', hchild', halike⟩ := h.step? hchild
    obtain ⟨node', hnode', hlike⟩ := ih halike hnode
    exact ⟨node', Option.bind_eq_some_iff.2 ⟨child', hchild', hnode'⟩, hlike⟩

end Alike

end ItemStore.Schema
