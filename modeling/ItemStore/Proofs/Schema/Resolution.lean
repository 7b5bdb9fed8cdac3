import ItemStore.Memory.Shop
import ItemStore.Proofs.Schema.Descent

/-
Following a path in pieces.

A path is cut at its dots and followed one segment after the other, so it does not matter where
it is put together: the segments of two texts with a dot between them are those of the first and
then those of the second, whatever the texts are. An empty text is a path too, with one empty
segment, so a dot at the end of a path is one step more.

What a segment says is only looked at in a map. A list takes any segment, and everything else
takes none.
-/
set_option autoImplicit false

namespace ItemStore

/-- The path with another text in the place of its `i`-th segment. Without a dot in the new text
it is one segment again. -/
def Path.withSegment (p : Path) (i : Nat) (segment : String) : Path :=
  ⟨".".intercalate (p.segments.set i segment)⟩

/-- Whether nothing lies below the node: it is a scalar, a set or the mark of a key. -/
def Schema.isEnd : Schema → Bool
  | scalar _ _ => true
  | set _ _ => true
  | partitionKey _ _ => true
  | sortKey _ _ => true
  | map _ _ => false
  | list _ _ => false

/-- A text without dots takes the place of a segment as one segment. -/
theorem Path.segments_withSegment {p : Path} {segment : String} (h : '.' ∉ segment.toList)
    (i : Nat) : (p.withSegment i segment).segments = p.segments.set i segment := by
  refine segments_intercalate ?_ ?_
  · intro hnil
    exact p.segments_ne_nil ((List.set_eq_nil_iff i segment).1 hnil)
  · intro other hother
    rcases List.mem_or_eq_of_mem_set hother with hother | rfl
    · exact dot_notMem_of_mem_segments hother
    · exact h

namespace Schema

/-! ## Two paths in a row -/

/-- **Two goes.** A path that is put together from two leads where the second one leads from where
the first one has led. Empty texts are included: one that is empty is a path with one empty
segment. -/
theorem resolve?_append (s : Schema) (p q : String) :
    s.resolve? ⟨p ++ "." ++ q⟩ = (s.resolve? ⟨p⟩).bind fun node => node.resolve? ⟨q⟩ := by
  rw [resolve?, Path.segments_append, descend?_append]
  rfl

/-- It leads nowhere where one of the two goes does. -/
theorem resolve?_append_eq_none_iff {s : Schema} {p q : String} :
    s.resolve? ⟨p ++ "." ++ q⟩ = none ↔
      s.resolve? ⟨p⟩ = none ∨ ∃ node, s.resolve? ⟨p⟩ = some node ∧ node.resolve? ⟨q⟩ = none := by
  rw [resolve?_append]
  cases s.resolve? ⟨p⟩ with
  | none => simp
  | some node => simp

/-- A path that leads nowhere is an error that names it. -/
theorem resolve_eq_error {s : Schema} {p : Path} {e : Error} :
    s.resolve p = .error e ↔ e = .pathNotFound p.text ∧ s.resolve? p = none := by
  rw [resolve]
  cases s.resolve? p with
  | none => simp [eq_comm]
  | some node => simp

/-! ## Segments that are not looked at -/

/-- A list takes any segment: what stands there makes no difference. -/
theorem descend?_through_list {s element : Schema} {m : Modifiers} {before : List String}
    (h : s.descend? before = some (.list m element)) (segment other : String)
    (after : List String) :
    s.descend? (before ++ segment :: after) = s.descend? (before ++ other :: after) := by
  rw [descend?_append, descend?_append, h]
  rfl

/-- The same for a segment of a path. -/
theorem resolve?_withSegment {s element : Schema} {m : Modifiers} {p : Path} {i : Nat}
    (hi : i < p.segments.length) (h : s.descend? (p.segments.take i) = some (.list m element))
    {segment : String} (hdot : '.' ∉ segment.toList) :
    s.resolve? (p.withSegment i segment) = s.resolve? p := by
  have hset : p.segments.set i segment =
      p.segments.take i ++ segment :: p.segments.drop (i + 1) :=
    List.set_eq_take_append_cons_drop.trans (if_pos hi)
  have hsplit : p.segments = p.segments.take i ++ p.segments[i] :: p.segments.drop (i + 1) := by
    rw [List.getElem_cons_drop, List.take_append_drop]
  calc s.resolve? (p.withSegment i segment)
      = s.descend? (p.segments.set i segment) := by rw [resolve?, Path.segments_withSegment hdot]
    _ = s.descend? (p.segments.take i ++ segment :: p.segments.drop (i + 1)) := by rw [hset]
    _ = s.descend? (p.segments.take i ++ p.segments[i] :: p.segments.drop (i + 1)) :=
        descend?_through_list h segment p.segments[i] _
    _ = s.resolve? p := by rw [← hsplit, resolve?]

/-! ## Where paths end -/

/-- There is no step below an end. -/
theorem step?_of_isEnd {s : Schema} (h : s.isEnd = true) (segment : String) :
    s.step? segment = none := by
  cases s with
  | map m fields => cases h
  | list m element => cases h
  | _ => rfl

/-- No path leads on from an end, since every path takes a step. -/
theorem resolve?_of_isEnd {s : Schema} (h : s.isEnd = true) (p : Path) : s.resolve? p = none := by
  rw [resolve?_eq, step?_of_isEnd h, Option.bind_none]

/-- **Paths are followed segment by segment.** A path that is put together from two texts, which
may be any, is followed in two goes, and fails, with an error that names the whole path, just when
one of the goes does. The segment that is taken at a list may be replaced by any text without a
dot, which is then a segment of the new path. And no path goes on behind a scalar, a set or the
mark of a key. The first part tells success and failure, the latter with the error of the whole
path. That no hypothesis is made about `p` and `q` is the point of it: paths are texts that
anybody may have put together. -/
theorem resolves_stepwise (s : Schema) :
    (∀ p q : String,
      s.resolve? ⟨p ++ "." ++ q⟩ = ((s.resolve? ⟨p⟩).bind fun node => node.resolve? ⟨q⟩) ∧
      ∀ e, s.resolve ⟨p ++ "." ++ q⟩ = .error e ↔ e = .pathNotFound (p ++ "." ++ q) ∧
        (s.resolve? ⟨p⟩ = none ∨
          ∃ node, s.resolve? ⟨p⟩ = some node ∧ node.resolve? ⟨q⟩ = none)) ∧
    (∀ (p : Path) (i : Nat) (m : Modifiers) (element : Schema) (segment : String),
      i < p.segments.length → s.descend? (p.segments.take i) = some (.list m element) →
      '.' ∉ segment.toList →
        (p.withSegment i segment).segments = p.segments.set i segment ∧
          s.resolve? (p.withSegment i segment) = s.resolve? p) ∧
    (∀ q : Path, s.isEnd = true → s.resolve? q = none) ∧
    ∀ (p q : String) (node : Schema), s.resolve? ⟨p⟩ = some node → node.isEnd = true →
      s.resolve? ⟨p ++ "." ++ q⟩ = none := by
  refine ⟨fun p q => ⟨resolve?_append s p q, fun e => ?_⟩, ?_, fun q h => resolve?_of_isEnd h q, ?_⟩
  · rw [resolve_eq_error, resolve?_append_eq_none_iff]
  · intro p i m element segment hi hlist hdot
    exact ⟨Path.segments_withSegment hdot i, resolve?_withSegment hi hlist hdot⟩
  · intro p q node hnode hend
    exact resolve?_append_eq_none_iff.2 (.inr ⟨node, hnode, resolve?_of_isEnd hend ⟨q⟩⟩)

/-- The items of an order are reached by any index, and nothing lies below a quantity. -/
theorem order_resolves_stepwise :
    (Schema.map .none Shop.orderFields).resolve? ⟨"items.0" ++ "." ++ "qty"⟩ =
        ((Schema.map .none Shop.orderFields).resolve? ⟨"items.0"⟩).bind
          (fun node => node.resolve? ⟨"qty"⟩) ∧
      (Schema.map .none Shop.orderFields).resolve? (Path.withSegment ⟨"items.0.qty"⟩ 1 "[n]") =
        some Shop.number ∧
      (Schema.map .none Shop.orderFields).resolve? ⟨"items.0.qty" ++ "." ++ ""⟩ = none := by
  obtain ⟨happend, hlist, -, hend⟩ := resolves_stepwise (.map .none Shop.orderFields)
  have hnumber : (Schema.map .none Shop.orderFields).resolve? ⟨"items.0.qty"⟩ =
      some Shop.number := rfl
  refine ⟨(happend "items.0" "qty").1, ?_, hend "items.0.qty" "" _ hnumber rfl⟩
  rw [(hlist ⟨"items.0.qty"⟩ 1 _ _ "[n]" (by decide) rfl (by decide)).2]
  exact hnumber

end Schema

end ItemStore
