import ItemStore.Proofs.Schema.Encoding
import ItemStore.Proofs.Walk

/-
Which declarations are schemas.

A declaration may repeat the name of a field, a schema may not, at any depth. Two things are shown
of `validate`, which tells the two apart. It stands for building: a tree whose maps are filled field
by field, each field under its own name, and each only after what is inside it (`assemble`), comes
to the same. And it answers a question that does not mention any order of work, namely whether no
map anywhere has a name twice (`NamesApart`). Where one has, what is reported is the first
repetition on a walk through the declaration, on which a field is a place of its own: its name is
looked at before anything inside it, and everything inside it before the next field.

Building is `build`, which makes a `SchemaNode` of an `Attribute` field by field.
-/
set_option autoImplicit false

namespace ItemStore.Schema

open Entries

/-! ## Building -/

/-- Refuses a repeated name, if there is one. -/
def unlessRepeated {α : Type} (repeated : Option String) (a : α) : Except Error α :=
  match repeated with
  | some name => .error (.duplicateFieldName name)
  | none => .ok a

mutual

/-- Builds the tree of a declaration from its leaves. It is written as a builder has to work who
stores each field when it is finished, and refuses it when its name is taken. -/
def assemble : Schema → Except Error Schema
  | scalar m kind => .ok (scalar m kind)
  | set m kind => .ok (set m kind)
  | map m fields => (assembleFields [] fields).map (map m)
  | list m element => element.assemble.map (list m)
  | partitionKey m inner => inner.assemble.map (partitionKey m)
  | sortKey m inner => inner.assemble.map (sortKey m)

/-- Builds the fields of a map one after the other and stores each of them under its name. -/
def assembleFields (built : List (String × Schema)) :
    List (String × Schema) → Except Error (List (String × Schema))
  | [] => .ok built
  | (name, node) :: fields =>
    if has name built then .error (.duplicateFieldName name)
    else do
      let node ← node.assemble
      assembleFields (insert name node built) fields

end

theorem unlessRepeated_map {α β : Type} (f : α → β) (repeated : Option String) (a : α) :
    (unlessRepeated repeated a).map f = unlessRepeated repeated (f a) := by
  cases repeated <;> rfl

theorem unlessRepeated_or {α β : Type} (first rest : Option String) (a : α) (b : β) :
    unlessRepeated (first.or rest) b =
      unlessRepeated first a >>= fun _ => unlessRepeated rest b := by
  cases first <;> rfl

theorem validate_eq_unlessRepeated (s : Schema) :
    s.validate = unlessRepeated s.repeatedName? s := by
  rw [validate]
  cases s.repeatedName? <;> rfl

/-- Fields are stored behind those that are there, in their order. -/
theorem assembleFields_eq {built fields : List (String × Schema)}
    (hfields : ∀ f ∈ fields, f.2.assemble = unlessRepeated f.2.repeatedName? f.2)
    {seen : List String} (hseen : ∀ name, name ∈ seen ↔ name ∈ keys built) :
    assembleFields built fields =
      unlessRepeated (repeatedNameAmong? seen fields) (built ++ fields) := by
  induction fields generalizing built seen with
  | nil =>
    rw [assembleFields, repeatedNameAmong?, List.append_nil]
    rfl
  | cons f fields ih =>
    obtain ⟨name, node⟩ := f
    obtain ⟨hnode, hrest⟩ := List.forall_mem_cons.1 hfields
    have hhas : has name built = true ↔ name ∈ seen := by
      rw [hseen, mem_keys_iff, has, Option.isSome_iff_exists]
    rw [assembleFields, repeatedNameAmong?]
    by_cases hname : name ∈ seen
    · rw [if_pos (hhas.2 hname), if_pos hname, unlessRepeated]
    · have hnew : name ∉ keys built := fun hmem => hname ((hseen name).2 hmem)
      have hseen' : ∀ n, n ∈ name :: seen ↔ n ∈ keys (built ++ [(name, node)]) := by
        intro n
        rw [← insert_of_notMem hnew, mem_keys_insert, List.mem_cons, hseen]
      rw [if_neg (hhas.not.2 hname), if_neg hname, hnode, unlessRepeated_or _ _ node]
      cases node.repeatedName? with
      | some repeated => rfl
      | none =>
        show assembleFields (insert name node built) fields = _
        rw [insert_of_notMem hnew, ih hrest hseen', List.append_assoc]
        rfl

/-- **Building.** A tree that is built node by node is the declaration itself, unless a name is
repeated in it. Both sides fail with the same name, although one of them finds it before it has
built anything. -/
theorem assemble_eq_validate (s : Schema) : s.assemble = s.validate := by
  rw [validate_eq_unlessRepeated]
  induction s using Schema.induction with
  | scalar m kind => rw [assemble, repeatedName?, unlessRepeated]
  | set m kind => rw [assemble, repeatedName?, unlessRepeated]
  | map m fields ih =>
    have hnone : ∀ name : String,
        name ∈ ([] : List String) ↔ name ∈ keys ([] : List (String × Schema)) :=
      fun _ => Iff.rfl
    rw [assemble, repeatedName?, assembleFields_eq ih hnone, unlessRepeated_map, List.nil_append]
  | list m element ih => rw [assemble, repeatedName?, ih, unlessRepeated_map]
  | partitionKey m inner ih => rw [assemble, repeatedName?, ih, unlessRepeated_map]
  | sortKey m inner ih => rw [assemble, repeatedName?, ih, unlessRepeated_map]

/-! ## Walking through a declaration -/

/-- A node of a declaration and where it stands: alone, like the whole, the element of a list and
what is inside a key mark, or as a field, behind the fields with the names `before`. A field is
kept with the names before it, because that is what decides whether it repeats one. -/
inductive Slot where
  | alone (node : Schema)
  | field (before : List String) (name : String) (node : Schema)

/-- What stands there. -/
def Slot.node : Slot → Schema
  | alone node => node
  | field _ _ node => node

/-- What stands right below a node. -/
def below? (s : Schema) (i : Nat) : Option Slot :=
  match s, i with
  | map _ fields, i => fields[i]?.map fun f => .field (keys (fields.take i)) f.1 f.2
  | list _ element, 0 => some (.alone element)
  | partitionKey _ inner, 0 => some (.alone inner)
  | sortKey _ inner, 0 => some (.alone inner)
  | _, _ => none

/-- A field with the name of one before it. -/
inductive Slot.Repeats : Slot → String → Prop where
  | mk {before : List String} {name : String} {node : Schema} (h : name ∈ before) :
      Repeats (.field before name node) name

/-- A declaration, walked through for repeated names. -/
def declaration : Walk Slot String where
  child? slot := slot.node.below?
  Fault := Slot.Repeats

/-- No map anywhere in the declaration has two fields of one name. It says nothing of order and
nothing of depth. -/
def NamesApart (s : Schema) : Prop :=
  ∀ site slot m fields, declaration.at? (.alone s) site = some slot → slot.node = .map m fields →
    (keys fields).Nodup

/-- The fields below a node repeat no name if the node is no map with a name twice. -/
theorem nodup_iff_forall_below (s : Schema) :
    (∀ m fields, s = map m fields → (keys fields).Nodup) ↔
      ∀ i slot, s.below? i = some slot → ∀ name, ¬ slot.Repeats name := by
  constructor
  · rintro h i slot hslot _ ⟨hmem⟩
    cases s with
    | map m fields =>
      obtain ⟨f, hf, he⟩ := Option.map_eq_some_iff.1 hslot
      cases he
      exact nodup_keys_iff.1 (h m fields rfl) i f hf hmem
    | scalar m kind => cases hslot
    | set m kind => cases hslot
    -- what is below other nodes stands alone
    | list m inner | partitionKey m inner | sortKey m inner => cases i <;> cases hslot
  · rintro h m fields rfl
    rw [nodup_keys_iff]
    intro i f hf hmem
    apply h i (.field (keys (fields.take i)) f.1 f.2) ?_ f.1 ⟨hmem⟩
    rw [below?, hf, Option.map_some]

theorem clean_iff_namesApart (s : Schema) : declaration.Clean (.alone s) ↔ s.NamesApart := by
  have halone : ∀ name, ¬ declaration.Fault (.alone s) name := by
    rintro name ⟨⟩
  rw [Walk.clean_iff_forall_child, NamesApart]
  constructor
  · rintro ⟨-, h⟩ site slot m fields hslot hnode
    exact slot.node.nodup_iff_forall_below.2 (h site slot hslot) m fields hnode
  · intro h
    exact ⟨halone, fun site slot hslot =>
      slot.node.nodup_iff_forall_below.1 fun m fields => h site slot m fields hslot⟩

/-! ## The first repetition -/

/-- The fields of a map, from one of them on. The names before it are those that were seen. -/
theorem meetsFrom_repeatedNameAmong? {slot : Slot} {m : Modifiers}
    {fields : List (String × Schema)} (hslot : slot.node = map m fields)
    (hfields : ∀ f ∈ fields, ∀ slot : Slot, slot.node = f.2 →
      declaration.MeetsFrom (fun _ name => name) slot 0 f.2.repeatedName?)
    {done rest : List (String × Schema)} (he : fields = done ++ rest) {seen : List String}
    (hseen : ∀ name, name ∈ seen ↔ name ∈ keys done) :
    declaration.MeetsFrom (fun _ name => name) slot done.length (repeatedNameAmong? seen rest) := by
  have hbelow : ∀ i, declaration.child? slot i =
      fields[i]?.map fun f => .field (keys (fields.take i)) f.1 f.2 := by
    intro i
    show slot.node.below? i = _
    rw [hslot, below?]
  induction rest generalizing done seen with
  | nil =>
    rw [repeatedNameAmong?]
    refine .none fun i hi => ?_
    rw [hbelow, he, List.append_nil, List.getElem?_eq_none hi, Option.map_none]
  | cons f rest ih =>
    obtain ⟨name, node⟩ := f
    have hchild : declaration.child? slot done.length = some (.field (keys done) name node) := by
      rw [hbelow, he]
      simp
    have hnode : declaration.MeetsFrom (fun _ name => name) (.field (keys done) name node) 0
        node.repeatedName? :=
      hfields (name, node) (by rw [he]; simp) _ rfl
    have he' : fields = (done ++ [(name, node)]) ++ rest := by simp [he]
    have hseen' : ∀ n, n ∈ name :: seen ↔ n ∈ keys (done ++ [(name, node)]) := by
      intro n
      simp [keys, hseen, or_comm]
    have hrest := ih he' hseen'
    rw [List.length_append, List.length_singleton] at hrest
    rw [repeatedNameAmong?]
    by_cases hname : name ∈ seen
    · rw [if_pos hname]
      have hrepeats : declaration.Fault (.field (keys done) name node) name :=
        ⟨(hseen name).1 hname⟩
      exact Walk.MeetsFrom.or hchild (.of_fault hrepeats) hrest
    · rw [if_neg hname]
      refine Walk.MeetsFrom.or hchild (hnode.meets ?_) hrest
      rintro n ⟨hmem⟩
      exact hname ((hseen name).2 hmem)

/-- Below any slot, the name that is found is the first one that is repeated. -/
theorem meetsFrom_repeatedName? {slot : Slot} {s : Schema} (hslot : slot.node = s) :
    declaration.MeetsFrom (fun _ name => name) slot 0 s.repeatedName? := by
  have hbelow : ∀ i, declaration.child? slot i = s.below? i := fun i => hslot ▸ rfl
  induction s using Schema.induction generalizing slot with
  | scalar m kind =>
    rw [repeatedName?]
    exact .none fun i _ => hbelow i
  | set m kind =>
    rw [repeatedName?]
    exact .none fun i _ => hbelow i
  | map m fields ih =>
    rw [repeatedName?]
    exact meetsFrom_repeatedNameAmong? hslot (fun f hf _ h => ih f hf h fun i => h ▸ rfl)
      (List.nil_append fields).symm fun _ => Iff.rfl
  | list m inner ih | partitionKey m inner ih | sortKey m inner ih =>
    have hinner : declaration.Meets (fun _ name => name) (.alone inner) inner.repeatedName? := by
      refine (ih rfl fun _ => rfl).meets ?_
      rintro name ⟨⟩
    have honly : ∀ i, 1 ≤ i → declaration.child? slot i = none := by
      intro i hi
      obtain ⟨i, rfl⟩ := Nat.exists_eq_add_of_le' hi
      exact hbelow (i + 1)
    rw [repeatedName?]
    exact .single (hbelow 0) honly hinner

theorem meets_repeatedName? (s : Schema) :
    declaration.Meets (fun _ name => name) (.alone s) s.repeatedName? := by
  refine (meetsFrom_repeatedName? rfl).meets ?_
  rintro name ⟨⟩

/-- **What can be declared.** Building a declaration succeeds exactly where no map in it has a
name twice, and then what is built is what was declared. Otherwise it fails by the name of the
first field that repeats one, and that name is the error. The three parts are that the order of
work does not matter, when there is a schema and which one, and which error comes otherwise. There
is no hypothesis. -/
theorem validates_iff_namesApart (s : Schema) : s.assemble = s.validate ∧
    (∀ built, s.validate = .ok built ↔ s.NamesApart ∧ built = s) ∧
    ∀ e, s.validate = .error e ↔ ∃ site slot name, declaration.First (.alone s) site slot name ∧
      e = .duplicateFieldName name := by
  have hmeets := meets_repeatedName? s
  have hunique : ∀ slot name name', declaration.Fault slot name → declaration.Fault slot name' →
      name = name' := by
    rintro _ _ _ ⟨-⟩ ⟨-⟩
    rfl
  have hnone : s.repeatedName? = none ↔ s.NamesApart :=
    hmeets.eq_none_iff.trans s.clean_iff_namesApart
  refine ⟨s.assemble_eq_validate, fun built => ?_, fun e => ?_⟩
  · rw [← hnone, validate_eq_unlessRepeated]
    cases s.repeatedName? with
    | none => simp [unlessRepeated, eq_comm]
    | some name => simp [unlessRepeated]
  · rw [validate_eq_unlessRepeated]
    constructor
    · intro h
      cases hname : s.repeatedName? with
      | none =>
        rw [hname] at h
        cases h
      | some name =>
        rw [hname] at h
        cases h
        obtain ⟨site, slot, repeated, hfirst, he⟩ := hmeets.first name hname
        exact ⟨site, slot, repeated, hfirst, congrArg Error.duplicateFieldName he⟩
    · rintro ⟨site, slot, name, hfirst, rfl⟩
      rw [(hmeets.eq_some_iff hunique).2 ⟨site, slot, name, hfirst, rfl⟩, unlessRepeated]

/-- A name is repeated twice over: inside the list of the first field, and by the third field. What
is inside comes first. -/
example : (map .none
    [("log", .list .none (.map .none [("at", .ofKind .date), ("at", .ofKind .number)])),
      ("id", .ofKind .string), ("log", .ofKind .string)]).repeatedName? = some "at" := by
  decide +kernel

end ItemStore.Schema
