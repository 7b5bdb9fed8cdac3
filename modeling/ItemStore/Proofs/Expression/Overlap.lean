import ItemStore.Proofs.Expression.Legality
import ItemStore.Proofs.Schema.Holding

/-
Updates that write one place twice.

An update is refused if a path comes twice in it, and paths are compared as they are written. A
place can be written in more than one way, though: a position of a list is spelled with brackets
or without them, and a path that ends sooner is about everything that lies below it. Neither of the
two is looked for, so any two different paths go together in an update if each of them can be
changed at all (`exists_update_iff`). No place is written twice only as long as there is nothing to
write below an attribute, that is, where every path is a single segment.

For the converse something has to be assigned to a node, whatever the node is. Every node of a
schema without repeated names has a value that can be encoded, the smallest one of its shape.
-/
set_option autoImplicit false

namespace ItemStore

open Entries

/-! ## Places -/

/-- The segment of a list in one spelling: positions without brackets. `[0]` and `0` come out
alike, and everything else as it is. -/
def Path.indexForm (segment : String) : String :=
  match position? segment with
  | some i => toString i
  | none => segment

/-- The form of a segment below a node. In a list the spellings of one position are the same. -/
def Schema.segmentForm (s : Schema) (segment : String) : String :=
  match s with
  | .list _ _ => Path.indexForm segment
  | _ => segment

/-- The place that some segments lead to: the segments, each in the form it has where it stands.
It follows the schema, because brackets have a meaning only where there is a list. -/
def Schema.place (s : Schema) : List String → List String
  | [] => []
  | segment :: segments =>
    s.segmentForm segment ::
      match s.step? segment with
      | some child => child.place segments
      | none => segments

/-- One of two paths is the other one, or it leads to something that the other one is inside of.
It is stated on places and not on paths, which is where the check for repeated paths falls short. -/
def Path.Overlaps (schema : Schema) (p q : Path) : Prop :=
  schema.place p.segments <+: schema.place q.segments ∨
    schema.place q.segments <+: schema.place p.segments

instance (schema : Schema) (p q : Path) : Decidable (p.Overlaps schema q) :=
  inferInstanceAs (Decidable (_ ∨ _))

/-- No two actions write one place. -/
def Action.Apart (schema : Schema) (actions : List Action) : Prop :=
  actions.Pairwise fun a b => ¬ a.path.Overlaps schema b.path

instance (schema : Schema) (actions : List Action) : Decidable (Action.Apart schema actions) :=
  inferInstanceAs (Decidable (actions.Pairwise _))

/-- A path that leads somewhere and not into a key. It is what `compile` of an update asks of any
path before it looks at the change. -/
structure Schema.Updatable (schema : Schema) (p : Path) : Prop where
  resolve : ∃ node, schema.resolve p = .ok node
  root : ∀ field, schema.field? p.root = some field → field.isKey = false

namespace Schema

/-- Going on does not change where one was. -/
theorem place_prefix (s : Schema) (first rest : List String) :
    s.place first <+: s.place (first ++ rest) := by
  induction first generalizing s with
  | nil => exact List.nil_prefix
  | cons segment first ih =>
    rw [List.cons_append, place, place, List.prefix_cons_inj]
    cases hstep : s.step? segment with
    | some child => exact ih child
    | none => exact List.prefix_append _ _

/-! ## Values for every node -/

theorem repeatedName?_of_step? {s node : Schema} {segment : String}
    (hnames : s.repeatedName? = none) (h : s.step? segment = some node) :
    node.repeatedName? = none := by
  cases s with
  | map m fields => exact (repeatedNameAmong?_eq_none hnames).2.2 _ (mem_of_get? h)
  | list m element =>
    cases h
    exact hnames
  | _ => cases h

theorem repeatedName?_of_descend? {s node : Schema} {segments : List String}
    (hnames : s.repeatedName? = none) (h : s.descend? segments = some node) :
    node.repeatedName? = none := by
  induction segments generalizing s with
  | nil =>
    cases h
    exact hnames
  | cons segment segments ih =>
    rw [descend?, List.foldlM_cons] at h
    obtain ⟨child, hchild, h⟩ := Option.bind_eq_some_iff.1 h
    exact ih (repeatedName?_of_step? hnames hchild) h

theorem exists_encodeAt_scalar (m : Modifiers) (kind : ScalarKind) (path : String) :
    ∃ v d, v.isNull = false ∧ (scalar m kind).encodeAt path v = .ok d := by
  cases kind with
  | string => exact ⟨.string "", _, rfl, rfl⟩
  | number => exact ⟨.number 0, .number (Decimal.plain 0), rfl, rfl⟩
  | boolean => exact ⟨.bool false, _, rfl, rfl⟩
  | date => exact ⟨.date ⟨0, 0⟩, _, rfl, rfl⟩
  | binary => exact ⟨.binary [], _, rfl, rfl⟩

theorem exists_encodeAt_set (m : Modifiers) (kind : SetKind) (path : String) :
    ∃ v d, v.isNull = false ∧ (set m kind).encodeAt path v = .ok d := by
  cases kind <;> exact ⟨.list [], _, rfl, rfl⟩

/-- **Every node can be written.** Some value other than null is encoded at it. Without repeated
names every field of the map that is built is found again under its name; that is what the
hypothesis is for. -/
theorem exists_encodeAt {s : Schema} (hnames : s.repeatedName? = none) (path : String) :
    ∃ v d, v.isNull = false ∧ s.encodeAt path v = .ok d := by
  induction s using Schema.induction generalizing path with
  | scalar m kind => exact exists_encodeAt_scalar m kind path
  | set m kind => exact exists_encodeAt_set m kind path
  | map m fields ih =>
    obtain ⟨hnodup, -, hnodes⟩ := repeatedNameAmong?_eq_none hnames
    -- a value for every name, the one that its field takes
    have hvalue : ∀ name, ∃ v : Value, ∀ node, get? name fields = some node →
        ∃ d, node.encodeAt (placeOf path name) v = .ok d := by
      intro name
      cases hnode : get? name fields with
      | none => exact ⟨.null, fun node h => by cases h⟩
      | some node =>
        have hmem := mem_of_get? hnode
        obtain ⟨v, d, -, hd⟩ := ih _ hmem (hnodes _ hmem) (placeOf path name)
        exact ⟨v, fun node' h => by cases h; exact ⟨d, hd⟩⟩
    choose value hvalue using hvalue
    have hfields : ∃ encoded, encodeFields fields path (assembled value (keys fields)) =
        .ok encoded := by
      refine exists_encodeFields_iff.2 fun f hf => ?_
      have hnode := get?_of_mem hnodup hf
      obtain ⟨d, hd⟩ := hvalue f.1 f.2 hnode
      refine .inl ⟨value f.1, d, ?_, hd⟩
      rw [assembled, get?_map_self, if_pos (mem_keys_iff.2 ⟨_, hnode⟩)]
    obtain ⟨encoded, hencoded⟩ := hfields
    exact ⟨.map _, .map encoded, rfl, (encodeAt_map_eq_ok rfl).2 ⟨_, _, rfl, hencoded, rfl⟩⟩
  | list m element ih => exact ⟨.list [], .list [], rfl, rfl⟩
  | partitionKey m inner ih =>
    obtain ⟨v, d, hv, hd⟩ := ih hnames path
    exact ⟨v, d, hv, by rw [encodeAt_partitionKey hv]; exact hd⟩
  | sortKey m inner ih =>
    obtain ⟨v, d, hv, hd⟩ := ih hnames path
    exact ⟨v, d, hv, by rw [encodeAt_sortKey hv]; exact hd⟩

/-! ## Which paths go together -/

/-- Something can be assigned at every path that leads anywhere and not into a key. -/
theorem Updatable.exists_set {schema : Schema} (hnames : schema.repeatedName? = none) {p : Path}
    (h : schema.Updatable p) : ∃ v node, Action.Legal schema ⟨p, .set v⟩ node := by
  obtain ⟨node, hnode⟩ := h.resolve
  have hinside := repeatedName?_of_descend? hnames (resolve_eq_ok.1 hnode)
  obtain ⟨v, d, -, hd⟩ := exists_encodeAt hinside ""
  exact ⟨v, node, hnode, h.root, .set hd⟩

/-- What a legal action is about can be changed. -/
theorem updatable_of_legal {schema node : Schema} {action : Action}
    (h : action.Legal schema node) : schema.Updatable action.path :=
  ⟨⟨node, h.resolve⟩, h.root⟩

/-- **Which paths go together.** Two paths are changed by one update as soon as they are written
differently and each can be changed by itself. Some change is found for any node, so only the
paths decide. -/
theorem exists_update_iff {schema : Schema} (hnames : schema.repeatedName? = none) {p q : Path} :
    (∃ a b update, a.path = p ∧ b.path = q ∧ compileUpdate schema [a, b] = .ok update) ↔
      p ≠ q ∧ schema.Updatable p ∧ schema.Updatable q := by
  constructor
  · rintro ⟨a, b, update, rfl, rfl, h⟩
    obtain ⟨-, hlegal⟩ := exists_compileUpdate_iff_allLegal.1 ⟨update, h⟩
    have hne : a.path.text ≠ b.path.text := by simpa using hlegal.nodup
    have hupdatable : ∀ action ∈ [a, b], schema.Updatable action.path := by
      intro action haction
      obtain ⟨node, hnode⟩ := hlegal.legal action haction
      exact updatable_of_legal hnode
    exact ⟨fun he => hne (congrArg Path.text he), hupdatable a (by simp), hupdatable b (by simp)⟩
  · rintro ⟨hne, hp, hq⟩
    obtain ⟨v, node, hv⟩ := hp.exists_set hnames
    obtain ⟨w, node', hw⟩ := hq.exists_set hnames
    have htexts : p.text ≠ q.text := fun he => hne (Path.text_injective he)
    have hlegal : Action.AllLegal schema [⟨p, .set v⟩, ⟨q, .set w⟩] := by
      refine ⟨by simpa using htexts, ?_⟩
      rw [List.forall_mem_cons, List.forall_mem_cons]
      exact ⟨⟨node, hv⟩, ⟨node', hw⟩, by simp⟩
    obtain ⟨update, h⟩ := exists_compileUpdate_iff_allLegal.2 ⟨by simp, hlegal⟩
    exact ⟨_, _, update, rfl, rfl, h⟩

/-! ## Paths of one segment -/

/-- In a map a path of one segment is its own place. -/
theorem place_of_isTopLevel {m : Modifiers} {fields : List (String × Schema)} {p : Path}
    (h : p.isTopLevel = true) : (map m fields).place p.segments = [p.text] := by
  rw [Path.segments_of_isTopLevel h, place]
  cases (map m fields).step? p.text with
  | some child => rfl
  | none => rfl

/-- Attributes are apart if they are different. -/
theorem overlaps_iff_of_isTopLevel {m : Modifiers} {fields : List (String × Schema)} {p q : Path}
    (hp : p.isTopLevel = true) (hq : q.isTopLevel = true) :
    p.Overlaps (map m fields) q ↔ p = q := by
  rw [Path.Overlaps, place_of_isTopLevel hp, place_of_isTopLevel hq]
  simp only [List.cons_prefix_cons, List.prefix_rfl, and_true]
  constructor
  · rintro (h | h)
    · exact Path.text_injective h
    · exact Path.text_injective h.symm
  · rintro rfl
    exact .inl rfl

/-- The attribute that a path starts from can be changed if something below it can. -/
theorem Updatable.attribute {schema : Schema} {p : Path} (h : schema.Updatable p) :
    schema.Updatable ⟨p.root⟩ := by
  have htop : Path.isTopLevel ⟨p.root⟩ = true := Path.isTopLevel_iff.2 p.dot_notMem_root
  have hroot : Path.root ⟨p.root⟩ = p.root := Path.root_of_isTopLevel htop
  obtain ⟨node, hnode⟩ := h.resolve
  rw [resolve_eq_ok, resolve?_eq] at hnode
  obtain ⟨child, hchild, -⟩ := Option.bind_eq_some_iff.1 hnode
  refine ⟨⟨child, ?_⟩, ?_⟩
  · rw [resolve_eq_ok, resolve?_eq, hroot, hchild, Path.segments_of_isTopLevel htop]
    rfl
  · rw [hroot]
    exact h.root

/-- A path overlaps with the attribute that it starts from. -/
theorem overlaps_attribute (schema : Schema) (p : Path) : Path.Overlaps schema ⟨p.root⟩ p := by
  have htop : Path.isTopLevel ⟨p.root⟩ = true := Path.isTopLevel_iff.2 p.dot_notMem_root
  have hsegments : p.segments = [p.root] ++ p.segments.tail := by
    obtain ⟨first, rest, hp⟩ := List.exists_cons_of_ne_nil p.segments_ne_nil
    rw [Path.root, hp]
    rfl
  rw [Path.Overlaps, Path.segments_of_isTopLevel htop, hsegments]
  exact .inl (schema.place_prefix _ _)

section Maps

variable {m : Modifiers} {fields : List (String × Schema)}

/-- An update of attributes writes each of them once. -/
theorem apart_of_isTopLevel {actions : List Action} {update : Compiled}
    (h : compileUpdate (map m fields) actions = .ok update)
    (htop : ∀ action ∈ actions, action.path.isTopLevel = true) :
    Action.Apart (map m fields) actions := by
  obtain ⟨-, hlegal⟩ := exists_compileUpdate_iff_allLegal.1 ⟨update, h⟩
  have hnodup := hlegal.nodup
  rw [List.Nodup, List.pairwise_map] at hnodup
  refine hnodup.imp_of_mem fun {a b} ha hb hne hoverlap => hne ?_
  rw [overlaps_iff_of_isTopLevel (htop a ha) (htop b hb)] at hoverlap
  exact congrArg Path.text hoverlap

/-- **Where no place is written twice.** That every update that compiles keeps its actions apart
means that the schema has nothing to change below an attribute. Otherwise there are paths that
overlap, and any two different paths that can be changed go together in one update. The first part
says for which schemas the promise of one change to a place holds; the second and third say that
where it does not hold nothing stands in the way of breaking it. -/
theorem apart_updates_iff (hnames : (map m fields).repeatedName? = none) :
    ((∀ actions update, compileUpdate (map m fields) actions = .ok update →
        Action.Apart (map m fields) actions) ↔
      ∀ p, (map m fields).Updatable p → p.isTopLevel = true) ∧
    (∀ p q, (∃ a b update, a.path = p ∧ b.path = q ∧
        compileUpdate (map m fields) [a, b] = .ok update) ↔
      p ≠ q ∧ (map m fields).Updatable p ∧ (map m fields).Updatable q) ∧
    ∀ actions update, compileUpdate (map m fields) actions = .ok update →
      (∀ action ∈ actions, action.path.isTopLevel = true) →
      Action.Apart (map m fields) actions := by
  refine ⟨⟨?_, ?_⟩, fun p q => exists_update_iff hnames, fun _ _ => apart_of_isTopLevel⟩
  · intro hapart p hp
    by_contra htop
    -- otherwise the path goes together with the attribute that it starts from
    have hne : (⟨p.root⟩ : Path) ≠ p := by
      intro he
      apply htop
      rw [← he]
      exact Path.isTopLevel_iff.2 p.dot_notMem_root
    obtain ⟨a, b, update, ha, hb, h⟩ := (exists_update_iff hnames).2 ⟨hne, hp.attribute, hp⟩
    have hpair := hapart _ _ h
    rw [Action.Apart, List.pairwise_pair, ha, hb] at hpair
    exact hpair (overlaps_attribute _ p)
  · intro hflat actions update h
    obtain ⟨-, hlegal⟩ := exists_compileUpdate_iff_allLegal.1 ⟨update, h⟩
    refine apart_of_isTopLevel h fun action haction => ?_
    obtain ⟨node, hnode⟩ := hlegal.legal action haction
    exact hflat _ (updatable_of_legal hnode)

end Maps

/-! ## One position, spelled twice -/

/-- An attribute with a list. -/
def tagged : Schema :=
  map .none [("id", .partitionKey .none (.ofKind .string)), ("tags", .list .none (.ofKind .string))]

/-- The first tag, with brackets and without. -/
def firstTagTwice : List Action :=
  [⟨⟨"tags.0"⟩, .set (.string "a")⟩, ⟨⟨"tags.[0]"⟩, .set (.string "b")⟩]

/-- Updates of items with tags need not keep their actions apart: both spellings can be changed, so
they go together. -/
theorem tagged_apart_updates : tagged.repeatedName? = none ∧
    (∃ a b update, a.path = ⟨"tags.0"⟩ ∧ b.path = ⟨"tags.[0]"⟩ ∧
      compileUpdate tagged [a, b] = .ok update) ∧
    ¬ ∀ actions update, compileUpdate tagged actions = .ok update →
      Action.Apart tagged actions := by
  have hnames : tagged.repeatedName? = none := by decide
  have hbare : tagged.Updatable ⟨"tags.0"⟩ :=
    ⟨⟨.ofKind .string, rfl⟩, root_spared_iff.1 (by decide)⟩
  have hbracketed : tagged.Updatable ⟨"tags.[0]"⟩ :=
    ⟨⟨.ofKind .string, rfl⟩, root_spared_iff.1 (by decide)⟩
  obtain ⟨hflat, hpairs, -⟩ := apart_updates_iff hnames
  refine ⟨hnames, (hpairs _ _).2 ⟨by decide, hbare, hbracketed⟩, fun hapart => ?_⟩
  have htop := hflat.1 hapart _ hbare
  revert htop
  decide

/-- **One tag is assigned twice.** The two spellings lead to one place, and the update with both
compiles. -/
theorem firstTagTwice_compiles : ∃ update, compileUpdate tagged firstTagTwice = .ok update ∧
    update.expression = "SET #tags.#0 = :tags_0_u0, #tags.#0_1 = :tags_0_u1" ∧
    ¬ Action.Apart tagged firstTagTwice := by
  have hrun : ((compileUpdate tagged firstTagTwice).toOption.map Compiled.expression) =
      some "SET #tags.#0 = :tags_0_u0, #tags.#0_1 = :tags_0_u1" := by
    decide +kernel
  obtain ⟨update, h, htext⟩ := exists_ok_of_toOption_map hrun
  exact ⟨update, h, htext, by decide +kernel⟩

end Schema

end ItemStore
