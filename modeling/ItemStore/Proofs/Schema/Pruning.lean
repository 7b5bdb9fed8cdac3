import ItemStore.Proofs.Schema.Decoding

/-
The lenient mode is the strict mode on what is declared.

The two modes differ in what they do about an attribute that the schema does not declare: one
refuses it, the other passes over it. `prune` takes all such attributes out of a descriptor, at
any depth, and leaves the rest as it is, in its order and in whatever shape it may have. Strict
decoding of what is left does what lenient decoding does with the whole, also where both fail:
nothing that is passed over is looked into, and nothing that is looked at is taken out.

What an attribute means depends on the field of its name, so the fields of a map must have
different names. Without that the field that prunes an attribute need not be the one that decodes
it.

The modes are those of `decode_with_mode`.
-/
set_option autoImplicit false

namespace ItemStore

open Entries

/-- Something was not declared. -/
def Error.IsPathNotFound : Error → Prop
  | .pathNotFound _ => True
  | _ => False

namespace Schema

/-! ## Pruning -/

mutual

/-- The descriptor without the attributes that the schema does not declare. A descriptor of
another shape than that of the schema is not looked into. It goes by the schema alone and does not
ask whether what is left can be decoded. -/
def prune (s : Schema) (d : Descriptor) : Descriptor :=
  match s with
  | .scalar _ _ => d
  | .set _ _ => d
  | .map _ fields =>
    match d with
    | .map entries => .map (pick (pruneUnder fields) entries)
    | d => d
  | .list _ element =>
    match d with
    | .list items => .list (items.map element.prune)
    | d => d
  | .partitionKey _ inner => inner.prune d
  | .sortKey _ inner => inner.prune d

/-- What becomes of an attribute of the given name. -/
def pruneUnder (fields : List (String × Schema)) (name : String) :
    Option (Descriptor → Descriptor) :=
  match fields with
  | [] => none
  | (n, field) :: fields => if n = name then some field.prune else pruneUnder fields name

end

theorem pruneUnder_eq (fields : List (String × Schema)) (name : String) :
    pruneUnder fields name = (get? name fields).map prune := by
  induction fields with
  | nil => rfl
  | cons f fields ih =>
    obtain ⟨n, field⟩ := f
    rw [pruneUnder, get?]
    by_cases hn : n = name
    · rw [if_pos hn, if_pos hn, Option.map_some]
    · rw [if_neg hn, if_neg hn, ih]

section Maps

variable {m : Modifiers} {fields : List (String × Schema)} {entries : List (String × Descriptor)}

theorem prune_map :
    (map m fields).prune (.map entries) = .map (pick (pruneUnder fields) entries) := by
  rw [prune]

/-- Nothing is left that is not declared. -/
theorem mem_keys_of_mem_keys_pruned {name : String}
    (h : name ∈ keys (pick (pruneUnder fields) entries)) : name ∈ keys fields := by
  rw [keys_pick, List.mem_filter, pruneUnder_eq, Option.isSome_map, Option.isSome_iff_exists,
    ← mem_keys_iff] at h
  exact h.2

/-- A field finds what it found before, pruned by itself. -/
theorem get?_pruned (hnodup : (keys fields).Nodup) {f : String × Schema} (hf : f ∈ fields) :
    get? f.1 (pick (pruneUnder fields) entries) = (get? f.1 entries).map f.2.prune := by
  rw [get?_pick, pruneUnder_eq, get?_of_mem hnodup hf, Option.map_some, Option.bind_some]

end Maps

/-- Null has nothing in it to be pruned, and nothing else becomes null. -/
theorem isNull_prune (s : Schema) (d : Descriptor) : (s.prune d).isNull = d.isNull := by
  induction s using Schema.induction with
  | scalar m kind => rw [prune]
  | set m kind => rw [prune]
  | map m fields ih =>
    cases d with
    | _ => rfl
  | list m element ih =>
    cases d with
    | _ => rfl
  | partitionKey m inner ih => rw [prune, ih]
  | sortKey m inner ih => rw [prune, ih]

/-! ## Decoding what is left -/

theorem decodeAt_prune_map {m : Modifiers} {fields : List (String × Schema)} {path : String}
    {d : Descriptor} (hnodup : (keys fields).Nodup)
    (h : ∀ f ∈ fields, ∀ path d,
      f.2.decodeAt .strict path (f.2.prune d) = f.2.decodeAt .lenient path d) :
    (map m fields).decodeAt .strict path ((map m fields).prune d) =
      (map m fields).decodeAt .lenient path d := by
  cases d with
  | map entries =>
    have hnames : DecodeMode.strict.checkNames fields path (pick (pruneUnder fields) entries) =
        .ok () :=
      checkNames_strict_eq_ok.2 fun name hname => mem_keys_of_mem_keys_pruned hname
    have hfields : decodeFields .strict fields path (pick (pruneUnder fields) entries) =
        decodeFields .lenient fields path entries := by
      apply decodeFields_congr
      intro f hf
      rw [get?_pruned hnodup hf, Option.map_map]
      exact congrArg (fun decode => (get? f.1 entries).map decode) (funext (h f hf _))
    rw [prune_map, decodeAt_map, decodeAt_map, hnames, hfields]
    rfl
  | _ => rfl

/-- **Pruned descriptors.** Strict decoding of what is declared and lenient decoding of everything
come to the same value or to the same error. It is an equation between results, so errors are
equal with their places and texts. -/
theorem decodeAt_prune {s : Schema} (hnames : s.repeatedName? = none) (path : String)
    (d : Descriptor) : s.decodeAt .strict path (s.prune d) = s.decodeAt .lenient path d := by
  induction s using Schema.induction generalizing path d with
  | scalar m kind => rw [prune, decodeAt, decodeAt]
  | set m kind => rw [prune, decodeAt, decodeAt]
  | map m fields ih =>
    obtain ⟨hnodup, -, hinside⟩ := repeatedNameAmong?_eq_none hnames
    exact decodeAt_prune_map hnodup fun f hf => ih f hf (hinside f hf)
  | list m element ih =>
    cases d with
    | list items =>
      have hitems : List.Forall₂ (fun pruned d => ∀ place,
          element.decodeAt .strict place pruned = element.decodeAt .lenient place d)
          (items.map element.prune) items := by
        rw [List.forall₂_map_left_iff, List.forall₂_same]
        exact fun d _ place => ih hnames place d
      have hprune : (list m element).prune (.list items) = .list (items.map element.prune) := by
        rw [prune]
      rw [hprune, decodeAt_list, decodeAt_list, decodeItems_congr hitems]
    | _ => rfl
  | partitionKey m inner ih => rw [prune, decodeAt, decodeAt, isNull_prune, ih hnames]
  | sortKey m inner ih => rw [prune, decodeAt, decodeAt, isNull_prune, ih hnames]

/-! ## What the lenient mode never says -/

theorem avoids_decodeNumber (path text : String) :
    Avoids Error.IsPathNotFound (decodeNumber path text) := by
  unfold decodeNumber
  split
  · exact .ok _ _
  · exact .error id

theorem avoids_decodeItems {α : Type} {decode : String → α → Except Error Value}
    {bad : Error → Prop} (h : ∀ path a, Avoids bad (decode path a)) (path : String) (index : Nat)
    (items : List α) : Avoids bad (decodeItems decode path index items) := by
  induction items generalizing index with
  | nil => exact .ok _ _
  | cons a items ih =>
    exact (h _ a).bind fun first _ => (ih (index + 1)).bind fun rest _ => .ok _ _

theorem avoids_decode_scalar (kind : ScalarKind) (path : String) (d : Descriptor) :
    Avoids Error.IsPathNotFound (kind.decode path d) := by
  unfold ScalarKind.decode
  split
  · exact .ok _ _
  · exact (avoids_decodeNumber _ _).map _
  · exact .ok _ _
  · unfold decodeDate
    split
    · exact .ok _ _
    · exact .error id
  · exact .ok _ _
  · exact .error id

theorem avoids_decode_set (kind : SetKind) (path : String) (d : Descriptor) :
    Avoids Error.IsPathNotFound (kind.decode path d) := by
  unfold SetKind.decode
  split
  · exact .ok _ _
  · exact (avoids_decodeItems (fun _ _ => (avoids_decodeNumber _ _).map _) _ _ _).map _
  · exact .ok _ _
  · exact .error id

/-- A map is decoded without a complaint about names if its fields are. -/
theorem avoids_decodeFields {fields : List (String × Schema)} {path : String}
    {entries : List (String × Descriptor)}
    (h : ∀ f ∈ fields, ∀ path d, Avoids Error.IsPathNotFound (f.2.decodeAt .lenient path d)) :
    Avoids Error.IsPathNotFound (decodeFields .lenient fields path entries) := by
  induction fields with
  | nil => exact .ok _ _
  | cons f fields ih =>
    obtain ⟨name, field⟩ := f
    obtain ⟨hfirst, hrest⟩ := List.forall_mem_cons.1 h
    unfold decodeFields
    split
    · exact (hfirst _ _).bind fun first _ => (ih hrest).bind fun rest _ => .ok _ _
    · exact ih hrest

/-- The lenient mode never complains that something is not declared. -/
theorem avoids_decodeAt_lenient (s : Schema) (path : String) (d : Descriptor) :
    Avoids Error.IsPathNotFound (s.decodeAt .lenient path d) := by
  induction s using Schema.induction generalizing path d with
  | scalar m kind =>
    unfold decodeAt
    split
    · exact .ok _ _
    · exact avoids_decode_scalar kind path d
  | set m kind =>
    unfold decodeAt
    split
    · exact .ok _ _
    · exact avoids_decode_set kind path d
  | map m fields ih =>
    cases d with
    | map entries =>
      rw [decodeAt_map]
      -- the look at the names is a success, and what comes after it are the fields
      exact Avoids.bind (.ok _ ()) fun _ _ => (avoids_decodeFields ih).map _
    | null =>
      rw [decodeAt_null]
      exact .ok _ _
    | _ => exact .error id
  | list m element ih =>
    cases d with
    | list items =>
      rw [decodeAt_list]
      exact (avoids_decodeItems ih _ _ _).map _
    | null =>
      rw [decodeAt_null]
      exact .ok _ _
    | _ => exact .error id
  | partitionKey m inner ih =>
    unfold decodeAt
    split
    · exact .ok _ _
    · exact ih path d
  | sortKey m inner ih =>
    unfold decodeAt
    split
    · exact .ok _ _
    · exact ih path d

/-- **Lenient decoding is strict decoding of what is declared.** For every schema and every
descriptor the lenient mode does with the descriptor what the strict mode does with the pruned
one: it comes to the same value, or it fails with the same error. So it gives the value of the
strict mode wherever that has one, and it never says that a path was not found. The equation is
the whole of it, and the other two parts are what a caller relies on: switching to the lenient
mode changes no value, and it does away with one kind of error. -/
theorem lenient_decodes_pruned {s : Schema} (hschema : s.validate = .ok s) (d : Descriptor) :
    s.decode .lenient d = s.decode .strict (s.prune d) ∧
      (∀ v, s.decode .strict d = .ok v → s.decode .lenient d = .ok v) ∧
      ∀ path, s.decode .lenient d ≠ .error (.pathNotFound path) := by
  have hnames : s.repeatedName? = none := repeatedName?_eq_none_of_validate hschema
  refine ⟨(decodeAt_prune hnames "" d).symm, fun v hv => decodeAt_lenient hv, ?_⟩
  intro path h
  exact avoids_decodeAt_lenient s "" d _ h trivial

/-- A reading with attributes of which the gauge knows nothing, one of them inside a sample, and
with a level that is no number. -/
def untidyReading : Descriptor :=
  .map
    [("draft", .bool true), ("level", .number "0.1"),
      ("samples", .list
        [.map [("raw", .map [("level", .null)]), ("level", .string "high")]])]

/-- The strict mode stops at the draft. The lenient mode does what the strict mode does without
it: it goes on to the level, and stops there. -/
theorem untidyReading_pruned : gauge.validate = .ok gauge ∧
    gauge.prune untidyReading = .map
      [("level", .number "0.1"), ("samples", .list [.map [("level", .string "high")]])] ∧
    gauge.decode .strict untidyReading = .error (.pathNotFound "draft") ∧
    gauge.decode .lenient untidyReading = gauge.decode .strict (gauge.prune untidyReading) ∧
    gauge.decode .lenient untidyReading = .error (.shapeMismatch "samples.0.level" "N" "S") := by
  have hpruned := lenient_decodes_pruned (s := gauge) rfl untidyReading
  exact ⟨rfl, rfl, rfl, hpruned.1, rfl⟩

end Schema

end ItemStore
