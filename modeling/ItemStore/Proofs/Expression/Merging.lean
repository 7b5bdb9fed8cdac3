import ItemStore.Memory.Shop
import ItemStore.Proofs.Expression.Fresh
import ItemStore.Proofs.Expression.History
import ItemStore.Proofs.Schema.Descent
import Mathlib.Data.String.Basic

/-
Tables that were filled apart.

Conditions of one operation may be compiled each into tables of its own and the tables put
together afterwards, if the conditions share the count of tests. The count keeps all values apart,
and it keeps names apart where a path is a single segment. The segments of a longer path have
tokens without a number. Inside one table a segment whose token is taken moves on to another
variant of it, but a condition with a table of its own does not know what is taken elsewhere: then
one token stands for different segments, and the tables do not go together. Which tokens stand for
which segments is decided by the paths and the count alone (`namesAfter`), so it can be told from
the paths whether two conditions merge.

Compiling apart is `compile_with`, and putting together is `merge`.
-/
set_option autoImplicit false

namespace ItemStore

open Entries

/-! ## Tables in order -/

namespace Bindings

/-- Both tables are in the order of their tokens. All tables that are built by binding and merging
are, so it only excludes tables that were put together in another way. -/
structure Sorted (b : Bindings) : Prop where
  names : Ascending b.names
  values : Ascending b.values

theorem sorted_empty : empty.Sorted := ⟨ascending_nil, ascending_nil⟩

theorem ascending_bindSegments (segments : List (String × String))
    {names : List (String × String)} (h : Ascending names) :
    Ascending (bindSegments names segments).2 := by
  induction segments generalizing names with
  | nil => exact h
  | cons s segments ih => exact ih h.insertSorted

theorem ascending_bindIn {α : Type} {same : α → α → Bool} {token : String} {target : α}
    {table table' : List (String × α)} (h : Ascending table)
    (hbind : bindIn same token target table = .ok table') : Ascending table' := by
  rcases bindIn_eq_ok hbind with ⟨-, -, -, rfl⟩ | ⟨-, rfl⟩
  · exact h
  · exact h.insertSorted

theorem ascending_extend {α : Type} {ours theirs : List (String × α)} (h : Ascending ours) :
    Ascending (extend ours theirs) := by
  rw [extend]
  induction theirs generalizing ours with
  | nil => exact h
  | cons e theirs ih => exact ih h.insertSorted

theorem Sorted.bindValues {slots : List (String × Descriptor)} {b b' : Bindings} (h : b.Sorted)
    (hbind : bindValues slots b = .ok b') : b'.Sorted := by
  induction slots generalizing b with
  | nil =>
    cases hbind
    exact h
  | cons s slots ih =>
    obtain ⟨b₁, hfirst, hrest⟩ := bind_eq_ok.1 hbind
    obtain ⟨hnames, hvalues⟩ := bindValue_eq_ok hfirst
    exact ih ⟨hnames ▸ h.names, ascending_bindIn h.values hvalues⟩ hrest

end Bindings

theorem sorted_compileLeaves {ls : List (Schema × Leaf)} {p p' : Progress} {texts : List String}
    (h : compileLeaves ls p = .ok (texts, p')) (hb : p.bindings.Sorted) : p'.bindings.Sorted := by
  induction ls generalizing p texts with
  | nil =>
    cases h
    exact hb
  | cons l ls ih =>
    obtain ⟨schema, leaf⟩ := l
    obtain ⟨p₁, text, rest, node, values, rfl, hleaf, hrest⟩ := compileLeaves_cons_eq_ok h
    have hnames : Ascending p₁.bindings.names := by
      rw [hleaf.names]
      exact Bindings.ascending_bindSegments _ hb.names
    have hbound : Bindings.Sorted { p.bindings with names := p₁.bindings.names } :=
      ⟨hnames, hb.values⟩
    exact ih hrest (hbound.bindValues hleaf.bind)

/-! ## Putting tables together -/

namespace Bindings

section Merging

variable {α : Type} {same : α → α → Bool} {ours theirs : List (String × α)} {token : String}

/-- A token that is bound in both tables stands for the same in both. It says nothing about tokens
that only one of the tables has. -/
def Consistent (same : α → α → Bool) (ours theirs : List (String × α)) : Prop :=
  ∀ token bound target, get? token ours = some bound → get? token theirs = some target →
    same bound target = true

theorem consistent_of_disjoint (h : ∀ t ∈ keys ours, t ∉ keys theirs) :
    Consistent same ours theirs := by
  intro token bound target hbound htarget
  exact absurd (mem_keys_iff.2 ⟨target, htarget⟩) (h token (mem_keys_iff.2 ⟨bound, hbound⟩))

/-- A clash is a token that stands for different things. -/
theorem exists_of_clash?_eq_some (htheirs : Ascending theirs)
    (h : clash? same ours theirs = some token) : ∃ bound target,
      get? token ours = some bound ∧ get? token theirs = some target ∧
        same bound target = false := by
  obtain ⟨⟨t, target⟩, hmem, hclash⟩ := List.exists_of_findSome?_eq_some h
  dsimp only at hclash
  split at hclash
  · next bound hbound =>
    split at hclash
    · cases hclash
    · next hsame =>
      cases hclash
      exact ⟨bound, target, hbound, get?_of_mem htheirs.nodup hmem, Bool.eq_false_iff.2 hsame⟩
  · cases hclash

theorem clash?_eq_none_iff (htheirs : Ascending theirs) :
    clash? same ours theirs = none ↔ Consistent same ours theirs := by
  constructor
  · intro h token bound target hbound htarget
    exact same_of_clash?_eq_none h hbound (mem_of_get? htarget)
  · intro h
    cases hclash : clash? same ours theirs with
    | none => rfl
    | some token =>
      obtain ⟨bound, target, hbound, htarget, hsame⟩ := exists_of_clash?_eq_some htheirs hclash
      rw [h token bound target hbound htarget] at hsame
      cases hsame

/-- What is added wins over what is there. -/
theorem get?_extend (htheirs : Ascending theirs) :
    get? token (extend ours theirs) = (get? token theirs).or (get? token ours) := by
  induction theirs generalizing ours with
  | nil => rfl
  | cons e theirs ih =>
    obtain ⟨k, target⟩ := e
    obtain ⟨hfirst, hrest⟩ := ascending_cons.1 htheirs
    rw [extend, List.foldl_cons]
    refine (ih hrest).trans ?_
    rw [get?_insertSorted, get?]
    by_cases hk : token = k
    · -- the token does not come again further on
      have hnone : get? k theirs = none := by
        rw [get?_eq_none_iff]
        exact fun hmem => lt_irrefl k (hfirst k hmem)
      rw [if_pos hk, if_pos hk.symm, hk, hnone]
      rfl
    · rw [if_neg hk, if_neg (Ne.symm hk)]

end Merging

variable {ours theirs b : Bindings}

/-- Merging succeeds for tables that are consistent and for no others. -/
theorem exists_merge_iff (htheirs : theirs.Sorted) : (∃ b, ours.merge theirs = .ok b) ↔
    Consistent (· = ·) ours.names theirs.names ∧
      Consistent Descriptor.same ours.values theirs.values := by
  rw [← clash?_eq_none_iff htheirs.names, ← clash?_eq_none_iff htheirs.values, merge]
  constructor
  · rintro ⟨b, h⟩
    split at h
    · cases h
    · next hnames =>
      split at h
      · cases h
      · next hvalues => exact ⟨hnames, hvalues⟩
  · rintro ⟨hnames, hvalues⟩
    rw [hnames, hvalues]
    exact ⟨_, rfl⟩

/-- Names that are not consistent end in a conflict over a token that stands for different
segments. -/
theorem merge_of_not_consistent (htheirs : theirs.Sorted)
    (h : ¬ Consistent (· = ·) ours.names theirs.names) : ∃ token segment segment',
      ours.merge theirs = .error (.placeholderConflict token) ∧
      get? token ours.names = some segment ∧ get? token theirs.names = some segment' ∧
      segment ≠ segment' := by
  rw [← clash?_eq_none_iff htheirs.names] at h
  obtain ⟨token, htoken⟩ := Option.ne_none_iff_exists'.1 h
  obtain ⟨segment, segment', hsegment, hsegment', hne⟩ :=
    exists_of_clash?_eq_some htheirs.names htoken
  refine ⟨token, segment, segment', ?_, hsegment, hsegment', of_decide_eq_false hne⟩
  rw [merge, htoken]

/-- What is merged in is there afterwards. -/
theorem grows_merge (htheirs : theirs.Sorted) (h : ours.merge theirs = .ok b) : theirs.Grows b := by
  unfold merge at h
  split at h
  · cases h
  · split at h
    · cases h
    · cases h
      constructor
      · intro token name hname
        rw [get?_extend htheirs.names, hname]
        rfl
      · intro token d hd
        rw [get?_extend htheirs.values, hd]
        rfl

theorem Sorted.merge (hours : ours.Sorted) (h : ours.merge theirs = .ok b) : b.Sorted := by
  unfold Bindings.merge at h
  split at h
  · cases h
  · split at h
    · cases h
    · cases h
      exact ⟨ascending_extend hours.names, ascending_extend hours.values⟩

end Bindings

/-! ## Conditions with tables of their own -/

/-- The value belongs to a test from the `n`-th one on and before the `m`-th one. -/
def ValueOrigin.Within (n m : Nat) (o : ValueOrigin) : Prop :=
  ∃ i, o.index? = some i ∧ n ≤ i ∧ i < m

/-- Values of different stretches of tests have different tokens. -/
theorem Bindings.From.disjoint {b b' : Bindings} {n m k : Nat}
    (h : b.From (ValueOrigin.Within n m)) (h' : b'.From (ValueOrigin.Within m k)) :
    ∀ t ∈ keys b.values, t ∉ keys b'.values := by
  intro t ht ht'
  obtain ⟨o, p, ⟨i, hi, -, hlt⟩, rfl⟩ := h t ht
  obtain ⟨o', p', ⟨j, hj, hle, -⟩, he⟩ := h' _ ht'
  rw [ValueOrigin.token_inj he, hj] at hi
  cases hi
  omega

/-- A name table after tests of some paths have bound their names, the first of them with the
number `n`. It is the whole of what merging depends on, and no schema, operator or value enters
into it. -/
def namesAfter : (n : Nat) → List Path → List (String × String) → List (String × String)
  | _, [], names => names
  | n, p :: ps, names =>
    namesAfter (n + 1) ps
      (Bindings.bindSegments names (p.nameTokens (TestSite.nameSuffix ⟨p, n⟩))).2

/-- The names depend on nothing but the paths and the count. -/
theorem names_compileLeaves {ls : List (Schema × Leaf)} {p p' : Progress} {texts : List String}
    (h : compileLeaves ls p = .ok (texts, p')) :
    p'.bindings.names = namesAfter p.position (ls.map fun l => l.2.path) p.bindings.names := by
  induction ls generalizing p texts with
  | nil =>
    cases h
    rfl
  | cons l ls ih =>
    obtain ⟨schema, leaf⟩ := l
    obtain ⟨p₁, text, rest, node, values, rfl, hleaf, hrest⟩ := compileLeaves_cons_eq_ok h
    rw [ih hrest, hleaf.position, hleaf.names]
    rfl

/-- What a condition with tables of its own is compiled to, from the count `n` up to `m`.
Everything about names is in `namesAfter` and everything about values in the count, which is why
merging can be told from the paths. -/
structure Condition.CompiledApart (c : Condition) (n : Nat) (k : Compiled) (m : Nat) : Prop where
  position : m = n + c.paths.length
  accounts : Accounts [k.expression] .empty k.bindings
  sorted : k.bindings.Sorted
  names : k.bindings.names = namesAfter n c.paths []
  values : k.bindings.From (ValueOrigin.Within n m)

theorem Condition.compiledApart {schema : Schema} {c : Condition} {n m : Nat} {k : Compiled}
    (h : c.compileFrom schema n = .ok (k, m)) : c.CompiledApart n k m := by
  obtain ⟨⟨text, progress⟩, hcompile, he⟩ := bind_eq_ok.1 h
  cases he
  obtain ⟨texts, hleaves, -⟩ := c.compile_eq_ok hcompile
  have hpaths : (c.leavesWith schema).map (fun l => l.2.path) = c.paths := by
    rw [← c.map_path_leaves, leavesWith, List.map_map]
    rfl
  refine ⟨position_compile hcompile, accounts_compile hcompile,
    sorted_compileLeaves hleaves Bindings.sorted_empty, ?_,
    from_compileLeaves_of hleaves (Bindings.from_empty _) fun o i hi hle hlt => ⟨i, hi, hle, hlt⟩⟩
  rw [← hpaths]
  exact names_compileLeaves hleaves

/-! ## What merges -/

/-- The tables of the second expression can be merged into those of the first one, and after that
both expressions read as they did. -/
def Compiled.Merges (first second : Compiled) : Prop :=
  ∃ b, first.bindings.merge second.bindings = .ok b ∧
    Lasts first.expression first.bindings b ∧ Lasts second.expression second.bindings b

/-- Two conditions with one count merge if their names do. -/
theorem Condition.CompiledApart.merges_iff {c₁ c₂ : Condition} {n m m' : Nat} {k₁ k₂ : Compiled}
    (h₁ : c₁.CompiledApart n k₁ m) (h₂ : c₂.CompiledApart m k₂ m') : k₁.Merges k₂ ↔
      Bindings.Consistent (· = ·) k₁.bindings.names k₂.bindings.names := by
  constructor
  · rintro ⟨b, hmerge, -, -⟩
    exact ((Bindings.exists_merge_iff h₂.sorted).1 ⟨b, hmerge⟩).1
  · intro hnames
    have hvalues : Bindings.Consistent Descriptor.same k₁.bindings.values k₂.bindings.values :=
      Bindings.consistent_of_disjoint (h₁.values.disjoint h₂.values)
    obtain ⟨b, hmerge⟩ := (Bindings.exists_merge_iff h₂.sorted).2 ⟨hnames, hvalues⟩
    exact ⟨b, hmerge, h₁.accounts.lasts (Bindings.keeps_merge hmerge),
      h₂.accounts.lasts (Bindings.grows_merge h₂.sorted hmerge).keeps⟩

/-! ## Paths of one segment -/

/-- Numbers tell name tokens apart, whatever the segments are. -/
theorem nameToken_number_inj {i j : Nat} {segment segment' : String}
    (h : nameToken (toString i) segment = nameToken (toString j) segment') : i = j := by
  have hform : ∀ (k : Nat) (s : String), ∃ front,
      (nameToken (toString k) s).toList = front ++ '_' :: Nat.toDigits 10 k := by
    intro k s
    have hne : toString k ≠ "" := Nat.repr_ne_empty
    have htail : (tokenTail (toString k)).toList = '_' :: Nat.toDigits 10 k := by
      rw [tokenTail, if_neg hne, String.toList_append, Nat.toString_eq_repr, Nat.toList_repr]
      rfl
    refine ⟨'#' :: (if Path.sanitize s = "" then "_" else Path.sanitize s).toList, ?_⟩
    rw [nameToken, String.toList_append, String.toList_append, htail]
    rfl
  obtain ⟨front, hi⟩ := hform i segment
  obtain ⟨front', hj⟩ := hform j segment'
  rw [h, hj] at hi
  -- the number stands behind the last low line
  exact (toDigits_injective (ValueOrigin.append_cons_inj_right Nat.underscore_not_in_toDigits
    Nat.underscore_not_in_toDigits hi).2).symm

/-- A token that stands for nothing is free itself. -/
theorem Bindings.freeToken_of_notMem {names : List (String × String)} {segment token : String}
    (h : token ∉ keys names) : freeToken names segment token = token := by
  refine freeToken_of_isUsable (isUsable_iff.2 fun bound hbound => ?_)
  exact absurd (mem_keys_iff.2 ⟨bound, hbound⟩) h

/-- Every name token has a number from `n` on and before `m`. -/
def Numbered (n m : Nat) (names : List (String × String)) : Prop :=
  ∀ token ∈ keys names, ∃ i segment, n ≤ i ∧ i < m ∧ token = nameToken (toString i) segment

theorem Numbered.disjoint {n m k : Nat} {names names' : List (String × String)}
    (h : Numbered n m names) (h' : Numbered m k names') : ∀ t ∈ keys names, t ∉ keys names' := by
  intro t ht ht'
  obtain ⟨i, segment, -, hlt, rfl⟩ := h t ht
  obtain ⟨j, segment', hle, -, he⟩ := h' _ ht'
  have hnumber := nameToken_number_inj he
  omega

/-- Paths of one segment take tokens with their numbers, since these are free. -/
theorem Numbered.namesAfter {n m : Nat} {paths : List Path} {names : List (String × String)}
    (h : Numbered n m names) (hle : n ≤ m) (htop : ∀ p ∈ paths, p.isTopLevel = true) :
    Numbered n (m + paths.length) (namesAfter m paths names) := by
  induction paths generalizing m names with
  | nil => exact h
  | cons p paths ih =>
    obtain ⟨hp, hpaths⟩ := List.forall_mem_cons.1 htop
    have hfree : nameToken (toString m) p.text ∉ keys names := by
      intro hmem
      obtain ⟨i, segment, -, hlt, he⟩ := h _ hmem
      have hnumber := nameToken_number_inj he
      omega
    have hbound : (Bindings.bindSegments names (p.nameTokens (TestSite.nameSuffix ⟨p, m⟩))).2 =
        insertSorted (nameToken (toString m) p.text) p.text names := by
      rw [Path.nameTokens, Path.segments_of_isTopLevel hp, TestSite.nameSuffix, if_pos hp]
      simp only [List.map_cons, List.map_nil, Bindings.bindSegments,
        Bindings.freeToken_of_notMem hfree]
    have hnext :
        Numbered n (m + 1) (insertSorted (nameToken (toString m) p.text) p.text names) := by
      intro token htoken
      rcases mem_keys_insertSorted.1 htoken with rfl | htoken
      · exact ⟨m, p.text, hle, Nat.lt_succ_self m, rfl⟩
      · obtain ⟨i, segment, hi, hlt, he⟩ := h token htoken
        exact ⟨i, segment, hi, by omega, he⟩
    have hrest := ih hnext (by omega) hpaths
    rw [ItemStore.namesAfter, hbound, List.length_cons]
    have hcount : m + (paths.length + 1) = m + 1 + paths.length := by omega
    rw [hcount]
    exact hrest

/-! ## Two conditions of one operation -/

/-- **What may be compiled apart.** Let two conditions be compiled one after the other with one
count, each into tables of its own. The tables go together, and both expressions keep their
meaning, exactly where no token stands for different segments in the names that the paths of
either condition bind on their own. Where one does, merging ends in a conflict over such a token.
Paths of a single segment never get in each other's way. The condition on the right is about
`namesAfter` alone and can be computed from the paths, so it can be seen in advance which
conditions may not be compiled apart. The second part tells what happens to the others, and the
third one names a kind of paths that is always safe. -/
theorem Condition.apart_merges_iff {schema : Schema} {c₁ c₂ : Condition} {n m m' : Nat}
    {k₁ k₂ : Compiled} (h₁ : c₁.compileFrom schema n = .ok (k₁, m))
    (h₂ : c₂.compileFrom schema m = .ok (k₂, m')) :
    (k₁.Merges k₂ ↔ Bindings.Consistent (· = ·) (namesAfter n c₁.paths [])
      (namesAfter (n + c₁.paths.length) c₂.paths [])) ∧
    (¬ k₁.Merges k₂ → ∃ token segment segment',
      k₁.bindings.merge k₂.bindings = .error (.placeholderConflict token) ∧
      get? token (namesAfter n c₁.paths []) = some segment ∧
      get? token (namesAfter (n + c₁.paths.length) c₂.paths []) = some segment' ∧
      segment ≠ segment') ∧
    ((∀ p ∈ c₁.paths ++ c₂.paths, p.isTopLevel = true) → k₁.Merges k₂) := by
  have hapart₁ := compiledApart h₁
  have hapart₂ := compiledApart h₂
  rw [← hapart₁.position, ← hapart₁.names, ← hapart₂.names]
  have hiff := hapart₁.merges_iff hapart₂
  refine ⟨hiff, ?_, ?_⟩
  · intro hnot
    exact Bindings.merge_of_not_consistent hapart₂.sorted (hiff.not.1 hnot)
  · intro htop
    obtain ⟨htop₁, htop₂⟩ := List.forall_mem_append.1 htop
    have hnone : ∀ k : Nat, Numbered k k [] := fun _ _ hmem => absurd hmem List.not_mem_nil
    have hnumbered₁ := (hnone n).namesAfter (Nat.le_refl n) htop₁
    have hnumbered₂ := (hnone m).namesAfter (Nat.le_refl m) htop₂
    rw [← hapart₁.names, ← hapart₁.position] at hnumbered₁
    rw [← hapart₂.names] at hnumbered₂
    exact hiff.2 (Bindings.consistent_of_disjoint (hnumbered₁.disjoint hnumbered₂))

/-- A user who lives in Rome. -/
def Shop.inRome : Condition := .test ⟨"address.city"⟩ .eq (.single (.string "Rome"))

/-- A user who has a zip code or is called Ada. -/
def Shop.zipOrAda : Condition :=
  .group .or
    [.test ⟨"address.zip"⟩ .exists .none, .test ⟨"name"⟩ .eq (.single (.string "Ada"))]

/-- The two share a token for the address and mean the same by it. -/
theorem Shop.inRome_merges_zipOrAda : ∃ k₁ k₂,
    inRome.compileFrom (.map .none userFields) 0 = .ok (k₁, 1) ∧
    zipOrAda.compileFrom (.map .none userFields) 1 = .ok (k₂, 3) ∧ k₁.Merges k₂ := by
  have hfirst : ((inRome.compileFrom (.map .none userFields) 0).toOption.map Prod.snd) =
      some 1 := by
    decide +kernel
  have hsecond : ((zipOrAda.compileFrom (.map .none userFields) 1).toOption.map Prod.snd) =
      some 3 := by
    decide +kernel
  obtain ⟨⟨k₁, -⟩, h₁, rfl⟩ := exists_ok_of_toOption_map hfirst
  obtain ⟨⟨k₂, -⟩, h₂, rfl⟩ := exists_ok_of_toOption_map hsecond
  have hnames₁ : namesAfter 0 inRome.paths [] = [("#address", "address"), ("#city", "city")] := by
    decide +kernel
  have hnames₂ : namesAfter (0 + inRome.paths.length) zipOrAda.paths [] =
      [("#address", "address"), ("#name_2", "name"), ("#zip", "zip")] := by
    decide +kernel
  have hsorted : ([("#address", "address"), ("#name_2", "name"), ("#zip", "zip")].map
      Prod.fst).Pairwise (· < ·) := by
    decide +kernel
  refine ⟨k₁, k₂, h₁, h₂, (Condition.apart_merges_iff h₁ h₂).1.2 ?_⟩
  rw [hnames₁, hnames₂]
  exact (Bindings.clash?_eq_none_iff hsorted).1 (by decide +kernel)

/-- A test of one of two fields that are spelled alike. -/
def firstTwin : Condition := .test ⟨"a-b.x"⟩ .eq (.single (.string "k"))

/-- A test of the other one. -/
def secondTwin : Condition := .test ⟨"ab.x"⟩ .eq (.single (.string "l"))

/-- Either condition takes the token `#ab` for its own field, and the tables do not go together. -/
theorem twins_conflict : ∃ k₁ k₂, firstTwin.compileFrom twins 0 = .ok (k₁, 1) ∧
    secondTwin.compileFrom twins 1 = .ok (k₂, 2) ∧
    k₁.bindings.merge k₂.bindings = .error (.placeholderConflict "#ab") := by
  have hfirst : (firstTwin.compileFrom twins 0).toOption.map (fun r => (r.2, r.1.bindings.names)) =
      some (1, [("#ab", "a-b"), ("#x", "x")]) := by
    decide +kernel
  have hsecond : (secondTwin.compileFrom twins 1).toOption.map
      (fun r => (r.2, r.1.bindings.names)) = some (2, [("#ab", "ab"), ("#x", "x")]) := by
    decide +kernel
  obtain ⟨⟨k₁, n⟩, h₁, he₁⟩ := exists_ok_of_toOption_map hfirst
  obtain ⟨⟨k₂, m⟩, h₂, he₂⟩ := exists_ok_of_toOption_map hsecond
  obtain ⟨rfl, hnames₁⟩ := Prod.mk.inj he₁
  obtain ⟨rfl, hnames₂⟩ := Prod.mk.inj he₂
  have hclash : Bindings.clash? (· = ·) k₁.bindings.names k₂.bindings.names = some "#ab" := by
    rw [hnames₁, hnames₂]
    decide +kernel
  refine ⟨k₁, k₂, h₁, h₂, ?_⟩
  rw [Bindings.merge, hclash]

end ItemStore
