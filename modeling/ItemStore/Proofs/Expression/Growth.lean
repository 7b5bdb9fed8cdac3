import ItemStore.Proofs.Entries
import ItemStore.Proofs.Expression.Token
import ItemStore.Proofs.Outcome
import Mathlib.Data.List.Nodup
import Mathlib.Data.List.Perm.Subperm

/-
How token tables grow.

Three things are put into the tables of an operation: a value under a token of its
own, a name under a token that is free, and nothing. This file says of each what it
does to look-ups and to the set of keys. The only search is the one for a free name
token. It goes through as many variants as there are bound names and one more; the
variants are all different, so they cannot all be taken, and the search never runs out.
-/
set_option autoImplicit false

namespace ItemStore.Bindings

open Entries

/-! ## Values -/

/-- Binding either finds the token bound to the same target or adds it. -/
theorem bindIn_eq_ok {α : Type} {same : α → α → Bool} {token : String} {target : α}
    {table table' : List (String × α)} (h : bindIn same token target table = .ok table') :
    (∃ bound, get? token table = some bound ∧ same bound target = true ∧ table' = table) ∨
      (get? token table = none ∧ table' = insertSorted token target table) := by
  unfold bindIn at h
  split at h
  · next bound hbound =>
    -- the token is bound already: to the same, or else there is a conflict
    split at h
    · next hsame =>
      cases h
      exact .inl ⟨bound, hbound, hsame, rfl⟩
    · cases h
  · next hnone =>
    cases h
    exact .inr ⟨hnone, rfl⟩

theorem grows_bindIn {α : Type} {same : α → α → Bool} {token : String} {target : α}
    {table table' : List (String × α)} (h : bindIn same token target table = .ok table') :
    Grows table table' := by
  rcases bindIn_eq_ok h with ⟨-, -, -, rfl⟩ | ⟨hnone, rfl⟩
  · exact Grows.refl _
  · refine grows_insertSorted fun a ha => ?_
    rw [hnone] at ha
    cases ha

theorem mem_keys_bindIn {α : Type} {same : α → α → Bool} {token t : String} {target : α}
    {table table' : List (String × α)} (h : bindIn same token target table = .ok table') :
    t ∈ keys table' ↔ t = token ∨ t ∈ keys table := by
  rcases bindIn_eq_ok h with ⟨bound, hbound, -, rfl⟩ | ⟨-, rfl⟩
  · constructor
    · exact .inr
    · rintro (rfl | ht)
      · exact mem_keys_iff.2 ⟨bound, hbound⟩
      · exact ht
  · exact mem_keys_insertSorted

/-- Binding a value leaves the names alone. -/
theorem bindValue_eq_ok {b b' : Bindings} {token : String} {value : Descriptor}
    (h : b.bindValue token value = .ok b') :
    b'.names = b.names ∧ bindIn Descriptor.same token value b.values = .ok b'.values := by
  obtain ⟨values, hvalues, rfl⟩ := map_eq_ok.1 h
  exact ⟨rfl, hvalues⟩

/-- A token that stands for nothing yet can always be bound. -/
theorem bindValue_of_get?_eq_none {b : Bindings} {token : String} (value : Descriptor)
    (h : get? token b.values = none) :
    b.bindValue token value = .ok { b with values := insertSorted token value b.values } := by
  simp [bindValue, bindIn, h, Except.map]

/-! ## The search for a free name token -/

theorem isUsable_iff {names : List (String × String)} {segment token : String} :
    isUsable names segment token = true ↔
      ∀ bound, get? token names = some bound → bound = segment := by
  unfold isUsable
  split
  · next bound hbound => simp [hbound]
  · next hnone => simp [hnone]

theorem isUsable_eq_false_iff {names : List (String × String)} {segment token : String} :
    isUsable names segment token = false ↔
      ∃ bound, get? token names = some bound ∧ bound ≠ segment := by
  rw [← Bool.not_eq_true, isUsable_iff]
  push Not
  rfl

/-- Among more variants than there are names, one is usable. -/
theorem exists_isUsable_tokenVariant (names : List (String × String)) (segment token : String) :
    ∃ n < names.length + 1, isUsable names segment (tokenVariant token n) = true := by
  -- otherwise all these variants are keys, and they are one more than there are names
  by_contra hnone
  push Not at hnone
  have hsub : (List.range (names.length + 1)).map (tokenVariant token) ⊆ keys names := by
    intro t ht
    obtain ⟨n, hn, rfl⟩ := List.mem_map.1 ht
    have hn' := hnone n (List.mem_range.1 hn)
    rw [Ne, Bool.not_eq_true, isUsable_eq_false_iff] at hn'
    obtain ⟨bound, hbound, -⟩ := hn'
    exact mem_keys_iff.2 ⟨bound, hbound⟩
  have hnodup : ((List.range (names.length + 1)).map (tokenVariant token)).Nodup :=
    (List.nodup_map_iff (tokenVariant_injective token)).2 List.nodup_range
  have hle := (List.subperm_of_subset hnodup hsub).length_le
  simp only [keys, List.length_map, List.length_range] at hle
  omega

/-- The search finds the first usable variant if one is in its reach. -/
theorem firstUsable_spec {names : List (String × String)} {segment token : String}
    (bound n : Nat) (h : ∃ m, n ≤ m ∧ m < n + bound ∧
      isUsable names segment (tokenVariant token m) = true) :
    ∃ m, firstUsable names segment token bound n = tokenVariant token m ∧
      isUsable names segment (tokenVariant token m) = true ∧
      ∀ k, n ≤ k → k < m → isUsable names segment (tokenVariant token k) = false := by
  -- induction on how far the search still goes; `n` is the variant it looks at
  induction bound generalizing n with
  | zero =>
    obtain ⟨m, hle, hlt, -⟩ := h
    omega
  | succ bound ih =>
    rw [firstUsable]
    by_cases hn : isUsable names segment (tokenVariant token n) = true
    · rw [if_pos hn]
      exact ⟨n, rfl, hn, fun k hle hlt => by omega⟩
    -- not this one, so there is one in what is left
    · rw [if_neg hn]
      obtain ⟨m, hle, hlt, hm⟩ := h
      have hne : n ≠ m := fun he => hn (he ▸ hm)
      obtain ⟨m', hfirst, husable, hmin⟩ := ih (n + 1) ⟨m, by omega, by omega, hm⟩
      refine ⟨m', hfirst, husable, fun k hle hlt => ?_⟩
      by_cases hk : k = n
      · rw [hk]
        exact Bool.eq_false_iff.2 hn
      · exact hmin k (by omega) hlt

/-- **A free token is found.** It is the first variant that is usable. All three parts are used:
where the token comes from, that it can be taken, and that every variant before it is taken by
another segment. The last one is why a segment gets the same token again later. -/
theorem freeToken_spec (names : List (String × String)) (segment token : String) :
    ∃ n, freeToken names segment token = tokenVariant token n ∧
      isUsable names segment (tokenVariant token n) = true ∧
      ∀ k < n, isUsable names segment (tokenVariant token k) = false := by
  obtain ⟨m, hlt, hm⟩ := exists_isUsable_tokenVariant names segment token
  obtain ⟨n, hfree, husable, hmin⟩ :=
    firstUsable_spec (names.length + 1) 0 ⟨m, by omega, by omega, hm⟩
  exact ⟨n, hfree, husable, fun k hk => hmin k (by omega) hk⟩

/-- A token that is usable is taken as it is. -/
theorem freeToken_of_isUsable {names : List (String × String)} {segment token : String}
    (h : isUsable names segment token = true) : freeToken names segment token = token := by
  obtain ⟨n, hfree, -, hmin⟩ := freeToken_spec names segment token
  cases n with
  | zero => exact hfree
  | succ n =>
    -- the token itself is the variant before all others
    have hother : isUsable names segment token = false := hmin 0 (Nat.succ_pos n)
    rw [h] at hother
    cases hother

/-- The token that is found stands for the segment or for nothing. -/
theorem isUsable_freeToken (names : List (String × String)) (segment token : String) :
    isUsable names segment (freeToken names segment token) = true := by
  obtain ⟨n, hfree, husable, -⟩ := freeToken_spec names segment token
  rw [hfree]
  exact husable

/-! ## Names -/

/-- Binding a segment to its free token only adds. -/
theorem grows_insertSorted_freeToken (names : List (String × String)) (segment token : String) :
    Grows names (insertSorted (freeToken names segment token) segment names) :=
  grows_insertSorted (isUsable_iff.1 (isUsable_freeToken names segment token))

theorem grows_bindSegments (segments names : List (String × String)) :
    Grows names (bindSegments names segments).2 := by
  induction segments generalizing names with
  | nil => exact Grows.refl names
  | cons s segments ih =>
    obtain ⟨token, segment⟩ := s
    -- one segment at a time, each into the table that the ones before it have left
    exact (grows_insertSorted_freeToken names segment token).trans (ih _)

/-- Every token that was taken stands for its segment. -/
theorem get?_bindSegments (segments names : List (String × String)) :
    List.Forall₂ (fun token s => get? token (bindSegments names segments).2 = some s.2)
      (bindSegments names segments).1 segments := by
  induction segments generalizing names with
  | nil => exact .nil
  | cons s segments ih =>
    obtain ⟨token, segment⟩ := s
    refine .cons ?_ (ih _)
    -- the first token is bound at once, and what comes after only adds
    exact grows_bindSegments segments _ _ _ (get?_insertSorted_self _ _ _)

/-- The keys that are new are the tokens that were taken. -/
theorem mem_keys_bindSegments {t : String} (segments names : List (String × String)) :
    t ∈ keys (bindSegments names segments).2 ↔
      t ∈ (bindSegments names segments).1 ∨ t ∈ keys names := by
  induction segments generalizing names with
  | nil => simp [bindSegments]
  | cons s segments ih =>
    obtain ⟨token, segment⟩ := s
    simp only [bindSegments, List.mem_cons]
    rw [ih, mem_keys_insertSorted]
    tauto

/-- Tokens with a mark are replaced by tokens with the same mark. -/
theorem isToken_bindSegments {mark : Char} (segments names : List (String × String))
    (h : ∀ s ∈ segments, IsToken mark s.1) :
    ∀ t ∈ (bindSegments names segments).1, IsToken mark t := by
  induction segments generalizing names with
  | nil => simp [bindSegments]
  | cons s segments ih =>
    obtain ⟨token, segment⟩ := s
    simp only [bindSegments, List.mem_cons]
    rintro t (rfl | ht)
    · obtain ⟨n, hfree, -⟩ := freeToken_spec names segment token
      rw [hfree]
      exact (h (token, segment) (by simp)).variant n
    · exact ih _ (fun s hs => h s (by simp [hs])) t ht

/-! ## Binding again -/

/-- A segment that was bound gets the same token in all later tables: the variants before that
token were taken by other segments, and they still are. -/
theorem freeToken_of_grows {names names' : List (String × String)} {segment token : String}
    (h : Entries.Grows (insertSorted (freeToken names segment token) segment names) names') :
    freeToken names' segment token = freeToken names segment token := by
  obtain ⟨n, hfree, -, hmin⟩ := freeToken_spec names segment token
  obtain ⟨n', hfree', husable', hmin'⟩ := freeToken_spec names' segment token
  rw [hfree] at h
  have hbound : get? (tokenVariant token n) names' = some segment :=
    h _ _ (get?_insertSorted_self _ _ _)
  have hle : n' ≤ n := by
    by_contra hlt
    obtain ⟨bound, hother, hne⟩ := isUsable_eq_false_iff.1 (hmin' n (by omega))
    rw [hbound] at hother
    cases hother
    exact hne rfl
  have hge : n ≤ n' := by
    by_contra hlt
    obtain ⟨bound, hother, hne⟩ := isUsable_eq_false_iff.1 (hmin n' (by omega))
    have hvariant : tokenVariant token n' ≠ tokenVariant token n := fun he =>
      absurd (tokenVariant_injective token he) (by omega)
    have hlater : get? (tokenVariant token n') names' = some bound := by
      refine h _ _ ?_
      rw [get?_insertSorted, if_neg hvariant, hother]
    exact hne (isUsable_iff.1 husable' bound hlater)
  rw [hfree, hfree', Nat.le_antisymm hle hge]

/-- Segments that were bound get the same tokens in all later tables. -/
theorem bindSegments_of_grows {segments names names' : List (String × String)}
    (h : Entries.Grows (bindSegments names segments).2 names') :
    (bindSegments names' segments).1 = (bindSegments names segments).1 := by
  induction segments generalizing names names' with
  | nil => rfl
  | cons s segments ih =>
    obtain ⟨token, segment⟩ := s
    rw [bindSegments] at h
    have hfirst : freeToken names' segment token = freeToken names segment token :=
      freeToken_of_grows ((grows_bindSegments segments _).trans h)
    have hrest := ih (h.trans (grows_insertSorted_freeToken names' segment token))
    exact congrArg₂ List.cons hfirst hrest

/-! ## Paths -/

/-- The tokens that a path gets in some tables. They depend on the tables, unlike the tokens that
`nameTokens` asks for. -/
def pathTokens (b : Bindings) (p : Path) (suffix : String) : List String :=
  (bindSegments b.names (p.nameTokens suffix)).1

/-- The name table after a path was bound. It is the part of `bindPath` that later steps go on
with. -/
def namesWith (b : Bindings) (p : Path) (suffix : String) : List (String × String) :=
  (bindSegments b.names (p.nameTokens suffix)).2

theorem bindPath_eq (b : Bindings) (p : Path) (suffix : String) :
    b.bindPath p suffix =
      (dotted (b.pathTokens p suffix), { b with names := b.namesWith p suffix }) :=
  rfl

theorem grows_namesWith (b : Bindings) (p : Path) (suffix : String) :
    Grows b.names (b.namesWith p suffix) := grows_bindSegments _ _

/-- The tokens of a path stand for its segments. -/
theorem get?_namesWith (b : Bindings) (p : Path) (suffix : String) :
    List.Forall₂ (fun token segment => get? token (b.namesWith p suffix) = some segment)
      (b.pathTokens p suffix) p.segments := by
  have h := get?_bindSegments (p.nameTokens suffix) b.names
  -- what is bound to the tokens are the segments themselves, not their sanitized forms
  rw [Path.nameTokens, List.forall₂_map_right_iff] at h
  exact h

theorem mem_keys_namesWith {t : String} (b : Bindings) (p : Path) (suffix : String) :
    t ∈ keys (b.namesWith p suffix) ↔ t ∈ b.pathTokens p suffix ∨ t ∈ keys b.names :=
  mem_keys_bindSegments _ _

theorem isToken_pathTokens {suffix : String} (h : IsWord suffix.toList) (b : Bindings)
    (p : Path) : ∀ t ∈ b.pathTokens p suffix, IsToken '#' t := by
  refine isToken_bindSegments _ _ fun s hs => ?_
  obtain ⟨segment, -, rfl⟩ := List.mem_map.1 hs
  exact isToken_nameToken h segment

/-- A path has at least one token. -/
theorem pathTokens_ne_nil (b : Bindings) (p : Path) (suffix : String) :
    b.pathTokens p suffix ≠ [] := by
  have hlen := (get?_namesWith b p suffix).length_eq
  intro hnil
  rw [hnil, Path.segments, List.length_map] at hlen
  exact Text.splitOn_ne_nil '.' p.text.toList (List.length_eq_zero_iff.1 hlen.symm)

/-- A path that was bound gets the same tokens in all later tables. -/
theorem pathTokens_of_grows {b b' : Bindings} {p : Path} {suffix : String}
    (h : Entries.Grows (b.namesWith p suffix) b'.names) :
    b'.pathTokens p suffix = b.pathTokens p suffix := bindSegments_of_grows h

/-! ## Pairs of tables -/

/-- Everything that stands for something keeps doing so. Values are kept as they are here; where
they are only kept up to the order of maps the relation is `Keeps`. -/
structure Grows (b b' : Bindings) : Prop where
  names : Entries.Grows b.names b'.names
  values : Entries.Grows b.values b'.values

theorem Grows.refl (b : Bindings) : Grows b b := ⟨.refl _, .refl _⟩

theorem Grows.trans {b₁ b₂ b₃ : Bindings} (h₁ : Grows b₁ b₂) (h₂ : Grows b₂ b₃) : Grows b₁ b₃ :=
  ⟨h₁.names.trans h₂.names, h₁.values.trans h₂.values⟩

theorem grows_bindValue {b b' : Bindings} {token : String} {value : Descriptor}
    (h : b.bindValue token value = .ok b') : Grows b b' := by
  obtain ⟨hnames, hvalues⟩ := bindValue_eq_ok h
  exact ⟨hnames ▸ .refl _, grows_bindIn hvalues⟩

theorem grows_bindPath (b : Bindings) (p : Path) (suffix : String) :
    Grows b (b.bindPath p suffix).2 := ⟨grows_namesWith b p suffix, .refl _⟩

end ItemStore.Bindings
