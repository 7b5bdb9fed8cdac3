import ItemStore.Proofs.Expression.Failures

/-
The search for a free token.

A segment of a path asks for a token. It takes the token that is spelled after it if that one is
free or its own already, and otherwise tries the variants of the token one after the other. Such a
search has no bound of its own, and anybody may have bound any variant by hand. It ends because the
variants are all different: when as many have been tried as there are bound names, the next one is
free. `Search` is the search as it goes on by itself, without a number of tries to stop it, and
`freeToken`, which has such a number, never makes use of it (`search_freeToken`).

A search that always finds something makes binding a path safe: no segment is refused, nothing that
is bound is touched, and each token stands for the segment that got it from then on. So segments
that get one token, early or late, are the same segment.
-/
set_option autoImplicit false

namespace ItemStore

open Entries

namespace Bindings

/-! ## The search without a bound -/

/-- The search from the `n`-th variant of a token on: it goes to the next variant as long as the
present one stands for another segment. It yields the variants that were tried and the last of
them. As a relation it may fail to end or end in several ways, and that it does neither has to be
shown. -/
inductive Search (names : List (String × String)) (segment token : String) :
    (n : Nat) → (tried : List String) → (found : String) → Prop where
  | ends {n : Nat} (h : isUsable names segment (tokenVariant token n) = true) :
      Search names segment token n [tokenVariant token n] (tokenVariant token n)
  | goesOn {n : Nat} {tried : List String} {found : String}
      (h : isUsable names segment (tokenVariant token n) = false)
      (rest : Search names segment token (n + 1) tried found) :
      Search names segment token n (tokenVariant token n :: tried) found

section Search

variable {names : List (String × String)} {segment token : String}

/-- A search has one outcome. -/
theorem Search.unique {n : Nat} {tried tried' : List String} {found found' : String}
    (h : Search names segment token n tried found)
    (h' : Search names segment token n tried' found') : tried' = tried ∧ found' = found := by
  induction h generalizing tried' with
  | ends husable =>
    cases h' with
    | ends _ => exact ⟨rfl, rfl⟩
    | goesOn hother _ =>
      rw [husable] at hother
      cases hother
  | goesOn hother _ ih =>
    cases h' with
    | ends husable =>
      rw [husable] at hother
      cases hother
    | goesOn _ hrest =>
      obtain ⟨rfl, rfl⟩ := ih hrest
      exact ⟨rfl, rfl⟩

/-- A search that starts `k` variants before the first usable one tries these and that one. -/
theorem search_of_first {n k : Nat}
    (husable : isUsable names segment (tokenVariant token (n + k)) = true)
    (hmin : ∀ j < k, isUsable names segment (tokenVariant token (n + j)) = false) :
    Search names segment token n ((List.range' n (k + 1)).map (tokenVariant token))
      (tokenVariant token (n + k)) := by
  induction k generalizing n with
  | zero => exact .ends husable
  | succ k ih =>
    have hnext : n + (k + 1) = n + 1 + k := by omega
    rw [List.range'_succ, List.map_cons, hnext]
    rw [hnext] at husable
    refine .goesOn (hmin 0 (Nat.succ_pos k)) (ih husable fun j hj => ?_)
    have hlater := hmin (j + 1) (by omega)
    rwa [Nat.add_comm j 1, ← Nat.add_assoc] at hlater

/-- **The search ends.** It tries at most one variant more than there are names, and it finds the
token that is found with a bound. The number of tries is one more than there are names, and cannot
be less: all names may be variants of the token. -/
theorem search_freeToken (names : List (String × String)) (segment token : String) :
    ∃ tried, Search names segment token 0 tried (freeToken names segment token) ∧
      tried.length ≤ names.length + 1 := by
  obtain ⟨n, hfree, husable, hmin⟩ := freeToken_spec names segment token
  obtain ⟨m, hm, husable'⟩ := exists_isUsable_tokenVariant names segment token
  -- the first usable variant comes no later than one that is known to be in reach
  have hle : n ≤ m := by
    by_contra hlt
    rw [hmin m (by omega)] at husable'
    cases husable'
  have hsearch : Search names segment token 0 ((List.range' 0 (n + 1)).map (tokenVariant token))
      (tokenVariant token (0 + n)) :=
    search_of_first (by rwa [Nat.zero_add]) fun j hj => by rw [Nat.zero_add, hmin j hj]
  rw [Nat.zero_add, ← hfree] at hsearch
  refine ⟨_, hsearch, ?_⟩
  rw [List.length_map, List.length_range']
  omega

end Search

/-- The token is the one that a segment gets by the rule: the given token if it is free or stands
for the segment already, and otherwise the given token with the least number from 1 on that makes
it so. It is the rule by which `free_name_token` is described, with no mention of a search. -/
def IsFirstChoice (names : List (String × String)) (segment token found : String) : Prop :=
  (isUsable names segment token = true → found = token) ∧
  (isUsable names segment token = false → ∃ n, 1 ≤ n ∧ found = token ++ "_" ++ toString n ∧
    isUsable names segment found = true ∧
    ∀ k, 1 ≤ k → k < n → isUsable names segment (token ++ "_" ++ toString k) = false)

theorem isFirstChoice_freeToken (names : List (String × String)) (segment token : String) :
    IsFirstChoice names segment token (freeToken names segment token) := by
  refine ⟨freeToken_of_isUsable, ?_⟩
  intro hother
  obtain ⟨n, hfree, husable, hmin⟩ := freeToken_spec names segment token
  cases n with
  | zero =>
    -- the token itself is the variant without a number
    have hitself : isUsable names segment token = true := husable
    rw [hother] at hitself
    cases hitself
  | succ n =>
    refine ⟨n + 1, Nat.succ_pos n, hfree, hfree ▸ husable, ?_⟩
    intro k hk hlt
    cases k with
    | zero => omega
    | succ k => exact hmin (k + 1) hlt

/-! ## What segments get -/

/-- Each token stands for the segment of the path that it was given to. It says nothing about
tokens of other paths. -/
def Stand (b : Bindings) (tokens : List String) (p : Path) : Prop :=
  List.Forall₂ (fun token segment => get? token b.names = some segment) tokens p.segments

theorem Stand.keeps {b b' : Bindings} {tokens : List String} {p : Path} (h : b.Stand tokens p)
    (hkeeps : b.Keeps b') : b'.Stand tokens p :=
  h.imp fun token segment hget => hkeeps.names token segment hget

theorem Stand.get? {b : Bindings} {tokens : List String} {p : Path} (h : b.Stand tokens p)
    {token segment : String} (hmem : (token, segment) ∈ tokens.zip p.segments) :
    Entries.get? token b.names = some segment := (List.forall₂_iff_zip.1 h).2 hmem

end Bindings

namespace InPlace

/-- What is bound in place is what is bound otherwise. -/
theorem run_bindPath {b : Bindings} (hb : b.Sorted) (p : Path) (suffix : String) :
    run (bindPath p suffix) b = (.ok (b.bindPath p suffix).1, (b.bindPath p suffix).2) ∧
      (b.bindPath p suffix).2.Sorted :=
  (commits_bindPath p suffix).ok b _ _ hb rfl

/-- No segment of a path is refused, and each gets a token that stands for it. -/
theorem exists_run_bindSegments {b : Bindings} (hb : b.Sorted) (p : Path) (suffix : String) :
    ∃ tokens b', run (bindSegments (p.nameTokens suffix)) b = (.ok tokens, b') ∧
      run (bindPath p suffix) b = (.ok (dotted tokens), b') ∧ b'.Sorted ∧ b.Grows b' ∧
      b'.Stand tokens p := by
  obtain ⟨hrun, hsorted⟩ := run_bindPath hb p suffix
  exact ⟨b.pathTokens p suffix, (b.bindPath p suffix).2, run_bindSegments _ hb, hrun, hsorted,
    b.grows_bindPath p suffix, b.get?_namesWith p suffix⟩

/-- **Segments get tokens.** Whatever is bound in a name table, the search for a token of a
segment ends, with one outcome and after at most one try more than there are names, and what it
finds is the first choice. So every path can be bound, in place and with any suffix. Everything
keeps its meaning by that, and each token stands for its segment, whatever happens to the tables
afterwards. Where a segment gets a token that a segment has got before, of the same path or of an
earlier one, the two segments are equal. The tables have to be in order because binding in place
is part of the statement; the search alone asks nothing of them. The first part is for every
segment and every token, also for such as no path asks for. -/
theorem segments_get_tokens {b : Bindings} (hb : b.Sorted) :
    (∀ segment token, ∃ tried,
      (∀ tried' found, Bindings.Search b.names segment token 0 tried' found ↔
        tried' = tried ∧ found = Bindings.freeToken b.names segment token) ∧
      tried.length ≤ b.names.length + 1 ∧
      Bindings.IsFirstChoice b.names segment token (Bindings.freeToken b.names segment token)) ∧
    ∀ (p : Path) suffix, ∃ tokens b',
      run (bindSegments (p.nameTokens suffix)) b = (.ok tokens, b') ∧
      run (bindPath p suffix) b = (.ok (dotted tokens), b') ∧
      b.Grows b' ∧
      ∀ turns, (after b' turns).Stand tokens p ∧
        ∀ (q : Path) suffix' tokens' b'',
          run (bindSegments (q.nameTokens suffix')) (after b' turns) = (.ok tokens', b'') →
          ∀ token segment segment', (token, segment) ∈ tokens.zip p.segments →
            (token, segment') ∈ tokens.zip p.segments ++ tokens'.zip q.segments →
            segment = segment' := by
  constructor
  · intro segment token
    obtain ⟨tried, hsearch, hlength⟩ := Bindings.search_freeToken b.names segment token
    refine ⟨tried, fun tried' found => ⟨hsearch.unique, ?_⟩, hlength,
      Bindings.isFirstChoice_freeToken _ _ _⟩
    rintro ⟨rfl, rfl⟩
    exact hsearch
  · intro p suffix
    obtain ⟨tokens, b', hsegments, hpath, hsorted, hgrows, hstand⟩ :=
      exists_run_bindSegments hb p suffix
    refine ⟨tokens, b', hsegments, hpath, hgrows, fun turns => ?_⟩
    have hlater := hstand.keeps (keeps_after hsorted turns)
    refine ⟨hlater, ?_⟩
    intro q suffix' tokens' b'' hrun token segment segment' hmem hmem'
    obtain ⟨tokens₁, b₁, hrun₁, -, -, hgrows₁, hstand₁⟩ :=
      exists_run_bindSegments (sorted_after hsorted turns) q suffix'
    rw [hrun] at hrun₁
    cases hrun₁
    -- in the tables of the end the token stands for one segment
    have hlast := hlater.keeps hgrows₁.keeps
    have hget := hlast.get? hmem
    have hget' : Entries.get? token b''.names = some segment' := by
      rcases List.mem_append.1 hmem' with hmem' | hmem'
      · exact hlast.get? hmem'
      · exact hstand₁.get? hmem'
    rw [hget] at hget'
    exact Option.some.inj hget'

/-- Names that were bound by hand, where searches come by. -/
def boundByHand : Bindings :=
  { names := [("#ab", "ba"), ("#ab_1", "x"), ("#ab_1_1", "y")], values := [] }

theorem sorted_boundByHand : boundByHand.Sorted := by
  have hkeys : (keys boundByHand.names).Pairwise (· < ·) := by decide +kernel
  exact ⟨hkeys, ascending_nil⟩

/-- Three segments go past them, two of which are spelled alike. -/
theorem boundByHand_gives_tokens : boundByHand.Sorted ∧
    (∃ tried, Bindings.Search boundByHand.names "ab" "#ab" 0 tried "#ab_2" ∧ tried.length ≤ 4) ∧
    ∃ b', run (bindPath ⟨"a-b.ab.ab_1"⟩ "") boundByHand = (.ok "#ab_2.#ab_3.#ab_1_2", b') ∧
      boundByHand.Grows b' := by
  obtain ⟨hsearches, hpaths⟩ := segments_get_tokens sorted_boundByHand
  refine ⟨sorted_boundByHand, ?_, ?_⟩
  · obtain ⟨tried, hsearch, hlength, -⟩ := hsearches "ab" "#ab"
    have hfree : Bindings.freeToken boundByHand.names "ab" "#ab" = "#ab_2" := by decide +kernel
    exact ⟨tried, (hsearch tried "#ab_2").2 ⟨rfl, hfree.symm⟩, hlength⟩
  · obtain ⟨tokens, b', -, hrun, hgrows, -⟩ := hpaths ⟨"a-b.ab.ab_1"⟩ ""
    have htext : (run (bindPath ⟨"a-b.ab.ab_1"⟩ "") boundByHand).1.toOption =
        some "#ab_2.#ab_3.#ab_1_2" := by
      decide +kernel
    rw [hrun] at htext
    rw [← Option.some.inj htext]
    exact ⟨b', hrun, hgrows⟩

end InPlace

end ItemStore
