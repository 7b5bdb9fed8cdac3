import ItemStore.Expression.Workbench
import ItemStore.Proofs.Descriptor.Same
import ItemStore.Proofs.Expression.Balance
import ItemStore.Proofs.Expression.Reading

/-
What a token stands for, it stands for from then on.

The tables of an operation are written to by many: tokens are bound one by one, conditions and
projections bind tokens while they are compiled, and other tables are merged in, which writes
over entries that are there. Whatever is done, and whether it succeeds or fails, a name token
keeps its name, and a value token keeps its value up to the order in maps. `Keeps` is that
relation between an earlier and a later state. It holds across one step, and so across any
number of them, with whatever schema and count each step is taken.

So an expression has to be looked at only once, in the tables it was compiled into. Every later
state reads it in the same way.
-/
set_option autoImplicit false

namespace ItemStore

open Entries

namespace Bindings

/-! ## Keeping -/

/-- Every token that stands for something goes on standing for the same. Values are kept up to the
order of entries in maps, since `merge` may replace one by another of that kind. -/
structure Keeps (b b' : Bindings) : Prop where
  names : Entries.Grows b.names b'.names
  values : ∀ token d, get? token b.values = some d →
    ∃ d', get? token b'.values = some d' ∧ d.Alike d'

theorem Grows.keeps {b b' : Bindings} (h : Grows b b') : Keeps b b' :=
  ⟨h.names, fun token d hd => ⟨d, h.values token d hd, .refl d⟩⟩

theorem Keeps.refl (b : Bindings) : Keeps b b := (Grows.refl b).keeps

theorem Keeps.trans {b₁ b₂ b₃ : Bindings} (h : Keeps b₁ b₂) (h' : Keeps b₂ b₃) :
    Keeps b₁ b₃ := by
  refine ⟨h.names.trans h'.names, ?_⟩
  intro token d hd
  obtain ⟨d', hd', halike⟩ := h.values token d hd
  obtain ⟨d'', hd'', halike'⟩ := h'.values token d' hd'
  exact ⟨d'', hd'', halike.trans halike'⟩

/-! ## What each operation keeps -/

theorem grows_bindName {b b' : Bindings} {token name : String}
    (h : b.bindName token name = .ok b') : Grows b b' := by
  obtain ⟨names, hnames, rfl⟩ := map_eq_ok.1 h
  exact ⟨grows_bindIn hnames, .refl _⟩

section Merging

variable {α : Type} {same : α → α → Bool} {ours theirs : List (String × α)} {token : String}

/-- Where nothing clashes, what is bound in both tables is the same in both. -/
theorem same_of_clash?_eq_none (h : clash? same ours theirs = none) {bound target : α}
    (hbound : get? token ours = some bound) (htarget : (token, target) ∈ theirs) :
    same bound target = true := by
  have hnone := List.findSome?_eq_none_iff.1 h (token, target) htarget
  dsimp only at hnone
  rw [hbound] at hnone
  by_contra hsame
  dsimp only at hnone
  rw [if_neg hsame] at hnone
  cases hnone

/-- What is bound to a token in a table that is extended comes from one table or the other. -/
theorem exists_get?_extend {P : α → Prop} (hours : ∃ a, get? token ours = some a ∧ P a)
    (htheirs : ∀ a, (token, a) ∈ theirs → P a) :
    ∃ a, get? token (extend ours theirs) = some a ∧ P a := by
  -- entry by entry; every entry may write over the one that is there
  induction theirs generalizing ours with
  | nil => exact hours
  | cons e theirs ih =>
    obtain ⟨k, target⟩ := e
    rw [extend, List.foldl_cons]
    refine ih ?_ fun a ha => htheirs a (List.mem_cons_of_mem _ ha)
    rw [get?_insertSorted]
    by_cases hk : token = k
    · rw [if_pos hk]
      exact ⟨target, rfl, htheirs target (hk ▸ List.mem_cons_self)⟩
    · rw [if_neg hk]
      exact hours

end Merging

/-- **Merging.** It writes over entries, but only with what they stand for already. It needs no
hypothesis but success, which is where the clash of tokens is excluded. -/
theorem keeps_merge {ours theirs b : Bindings} (h : ours.merge theirs = .ok b) :
    Keeps ours b := by
  unfold merge at h
  split at h
  · cases h
  · next hnames =>
    split at h
    · cases h
    · next hvalues =>
      cases h
      refine ⟨?_, ?_⟩
      · intro token name hname
        obtain ⟨name', hname', rfl⟩ : ∃ name', get? token (extend ours.names theirs.names) =
            some name' ∧ name = name' := by
          refine exists_get?_extend ⟨name, hname, rfl⟩ fun target htarget => ?_
          exact of_decide_eq_true (same_of_clash?_eq_none hnames hname htarget)
        exact hname'
      · intro token d hd
        refine exists_get?_extend ⟨d, hd, .refl d⟩ fun target htarget => ?_
        exact .inr (same_of_clash?_eq_none hvalues hd htarget)

end Bindings

theorem Condition.grows_compile {schema : Schema} {c : Condition} {progress progress' : Progress}
    {text : String} (h : c.compile schema progress = .ok (text, progress')) :
    Bindings.Grows progress.bindings progress'.bindings := by
  obtain ⟨texts, hleaves, -⟩ := c.compile_eq_ok h
  exact grows_compileLeaves hleaves

theorem Condition.grows_compileAll {schema : Schema} {cs : List Condition}
    {progress progress' : Progress} {parts : List String}
    (h : compileAll schema cs progress = .ok (parts, progress')) :
    Bindings.Grows progress.bindings progress'.bindings := by
  obtain ⟨texts, hleaves, -⟩ := compileAll_eq_ok cs h
  exact grows_compileLeaves hleaves

theorem grows_projectPaths {schema : Schema} {paths : List Path} {written parts : List String}
    {b b' : Bindings} (h : projectPaths schema written paths b = .ok (parts, b')) :
    b.Grows b' := by
  induction paths generalizing written b with
  | nil =>
    cases h
    exact .refl _
  | cons p paths ih =>
    obtain ⟨node, -, h⟩ := bind_eq_ok.1 h
    rw [Bindings.bindPath_eq] at h
    exact (Bindings.grows_bindPath b p "").trans (ih h)

theorem grows_compileProjection {schema : Schema} {paths : List Path} {text : String}
    {b b' : Bindings} (h : compileProjection schema paths b = .ok (text, b')) : b.Grows b' := by
  obtain ⟨⟨parts, b₁⟩, hparts, he⟩ := bind_eq_ok.1 h
  cases he
  exact grows_projectPaths hparts

/-! ## Steps and histories -/

/-- A step on shared tables, with everything it needs beside them. Everything but the tables is
part of the turn, so that a history can go through several schemas and counts. -/
structure Turn where
  /-- The schema that paths are followed in. -/
  schema : Schema
  /-- The number of the next test. -/
  position : Nat
  /-- The tables that may be merged in. -/
  last : Bindings
  step : Step

/-- What a turn yields, and what it leaves the tables as. -/
def Turn.run (turn : Turn) (b : Bindings) : Except Error Yield × Bindings :=
  let w : Workbench :=
    { progress := { position := turn.position, bindings := b }, last := turn.last }
  let (yield, w) := w.run turn.schema turn.step
  (yield, w.progress.bindings)

/-- The tables after some turns, of which any may fail. Failing turns are among them and leave no
trace. -/
def Bindings.after (b : Bindings) (turns : List Turn) : Bindings :=
  turns.foldl (fun b turn => (turn.run b).2) b

theorem Bindings.after_append (b : Bindings) (turns turns' : List Turn) :
    b.after (turns ++ turns') = (b.after turns).after turns' := List.foldl_append

/-- A step that succeeds keeps what the shared tables say. -/
theorem Workbench.keeps_attempt {schema : Schema} {w w' : Workbench} {step : Step} {yield : Yield}
    (h : w.attempt schema step = .ok (yield, w')) :
    w.progress.bindings.Keeps w'.progress.bindings := by
  cases step with
  | condition c destination =>
    cases destination with
    | shared =>
      obtain ⟨⟨text, progress⟩, hcompile, he⟩ := bind_eq_ok.1 h
      cases he
      exact (Condition.grows_compile hcompile).keeps
    -- with tables of its own a condition leaves the shared ones alone
    | _ =>
      obtain ⟨_, -, he⟩ := bind_eq_ok.1 h
      cases he
      exact .refl _
  | projection paths destination =>
    cases destination with
    | shared =>
      obtain ⟨⟨text, b⟩, hcompile, he⟩ := bind_eq_ok.1 h
      cases he
      exact (grows_compileProjection hcompile).keeps
    | _ =>
      obtain ⟨_, -, he⟩ := bind_eq_ok.1 h
      cases he
      exact .refl _
  | update actions =>
    obtain ⟨_, -, he⟩ := bind_eq_ok.1 h
    cases he
    exact .refl _
  | bindName token name =>
    obtain ⟨b, hbind, he⟩ := bind_eq_ok.1 h
    cases he
    exact (Bindings.grows_bindName hbind).keeps
  | bindValue token value =>
    obtain ⟨b, hbind, he⟩ := bind_eq_ok.1 h
    cases he
    exact (Bindings.grows_bindValue hbind).keeps
  | bindPath path suffix =>
    cases h
    exact (Bindings.grows_bindPath _ path suffix).keeps
  | mergeLast =>
    obtain ⟨b, hmerge, he⟩ := bind_eq_ok.1 h
    cases he
    exact Bindings.keeps_merge hmerge
  | merge names values =>
    obtain ⟨theirs, -, h⟩ := bind_eq_ok.1 h
    obtain ⟨b, hmerge, he⟩ := bind_eq_ok.1 h
    cases he
    exact Bindings.keeps_merge hmerge
  | tokens path suffix =>
    cases h
    exact .refl _

/-- **One step.** Whether it succeeds or fails, it keeps what the tables say. There are nine kinds
of steps and every one of them is covered, those that work on tables of their own included. -/
theorem Turn.keeps_run (turn : Turn) (b : Bindings) : b.Keeps (turn.run b).2 := by
  unfold run Workbench.run
  dsimp only
  split
  · next yield w' h => exact Workbench.keeps_attempt h
  · exact .refl _

/-- **Any number of steps.** It is the step taken as often as there are turns. -/
theorem Bindings.keeps_after (b : Bindings) (turns : List Turn) : b.Keeps (b.after turns) := by
  induction turns generalizing b with
  | nil => exact .refl b
  | cons turn turns ih => exact (turn.keeps_run b).trans (ih _)

/-! ## Expressions -/

/-- A row of name tokens goes on standing for the same path. -/
theorem Bindings.Keeps.path? {b b' : Bindings} (h : b.Keeps b') {tokens : List String}
    {path : String} (hpath : b.path? tokens = some path) : b'.path? tokens = some path := by
  obtain ⟨segments, hsegments, rfl⟩ := Option.map_eq_some_iff.1 hpath
  refine Option.map_eq_some_iff.2 ⟨segments, ?_, rfl⟩
  clear hpath
  induction tokens generalizing segments with
  | nil => exact hsegments
  | cons token tokens ih =>
    rw [List.mapM_cons] at hsegments ⊢
    obtain ⟨segment, hsegment, hrest⟩ := Option.bind_eq_some_iff.1 hsegments
    obtain ⟨segments', hsegments', he⟩ := Option.bind_eq_some_iff.1 hrest
    cases he
    refine Option.bind_eq_some_iff.2 ⟨segment, h.names token segment hsegment, ?_⟩
    exact Option.bind_eq_some_iff.2 ⟨segments', ih segments' hsegments', rfl⟩

/-- Tokens that are bound are a path. -/
theorem Bindings.exists_path? {b : Bindings} {tokens : List String}
    (h : ∀ t ∈ tokens, t ∈ keys b.names) : ∃ path, b.path? tokens = some path := by
  induction tokens with
  | nil => exact ⟨_, rfl⟩
  | cons token tokens ih =>
    obtain ⟨segment, hsegment⟩ := mem_keys_iff.1 (h token List.mem_cons_self)
    obtain ⟨path, hpath⟩ := ih fun t ht => h t (List.mem_cons_of_mem _ ht)
    obtain ⟨segments, hsegments, -⟩ := Option.map_eq_some_iff.1 hpath
    refine ⟨_, Option.map_eq_some_iff.2 ⟨segment :: segments, ?_, rfl⟩⟩
    rw [List.mapM_cons]
    exact Option.bind_eq_some_iff.2
      ⟨segment, hsegment, Option.bind_eq_some_iff.2 ⟨segments, hsegments, rfl⟩⟩

/-- A text reads in later tables as in the present ones: its name tokens in any row are the same
path, and its value tokens are equal values. It is said of rows of tokens and not of single ones,
because a path is a row. -/
structure Lasts (text : String) (now later : Bindings) : Prop where
  paths : ∀ tokens, tokens ⊆ tokensOf '#' text →
    ∃ path, now.path? tokens = some path ∧ later.path? tokens = some path
  values : ∀ token ∈ tokensOf ':' text, ∃ d d',
    get? token now.values = some d ∧ get? token later.values = some d' ∧ d.Alike d'

/-- A text whose tokens are all bound lasts. -/
theorem Accounts.lasts {text : String} {b now later : Bindings} (h : Accounts [text] b now)
    (hkeeps : now.Keeps later) : Lasts text now later := by
  refine ⟨?_, ?_⟩
  · intro tokens htokens
    obtain ⟨path, hpath⟩ : ∃ path, now.path? tokens = some path := by
      refine Bindings.exists_path? fun t ht => ?_
      rw [h.names, List.flatMap_singleton]
      exact .inl (htokens ht)
    exact ⟨path, hpath, hkeeps.path? hpath⟩
  · intro token htoken
    obtain ⟨d, hd⟩ : ∃ d, get? token now.values = some d := by
      rw [← mem_keys_iff, h.values, List.flatMap_singleton]
      exact .inl htoken
    obtain ⟨d', hd', halike⟩ := hkeeps.values token d hd
    exact ⟨d, d', hd, hd', halike⟩

/-- The expression of a step reads in later tables as in the present ones. A path can be bound
with any suffix, even one that does not fit into a token, so its tokens are named. -/
def Step.ReadsAlike (step : Step) (text : String) (now later : Bindings) : Prop :=
  match step with
  | .bindPath path _ => ∃ tokens, text = dotted tokens ∧
      now.path? tokens = some path.text ∧ later.path? tokens = some path.text
  | _ => Lasts text now later

/-- An expression reads in all later tables as in those it was made with. -/
theorem Workbench.readsAlike_of_attempt {schema : Schema} {w w' : Workbench} {step : Step}
    {text : String} (h : w.attempt schema step = .ok (.expression text, w')) {later : Bindings}
    (hkeeps : w'.progress.bindings.Keeps later) :
    step.ReadsAlike text w'.progress.bindings later := by
  cases step with
  | condition c destination =>
    cases destination with
    | shared =>
      obtain ⟨⟨text', progress⟩, hcompile, he⟩ := bind_eq_ok.1 h
      cases he
      exact (Condition.accounts_compile hcompile).lasts hkeeps
    | _ =>
      obtain ⟨_, -, he⟩ := bind_eq_ok.1 h
      cases he
  | projection paths destination =>
    cases destination with
    | shared =>
      obtain ⟨⟨text', b⟩, hcompile, he⟩ := bind_eq_ok.1 h
      cases he
      exact (accounts_compileProjection hcompile).lasts hkeeps
    | _ =>
      obtain ⟨_, -, he⟩ := bind_eq_ok.1 h
      cases he
  | bindPath path suffix =>
    cases h
    have hpath : ((w.progress.bindings.bindPath path suffix).2).path?
        (w.progress.bindings.pathTokens path suffix) = some path.text :=
      path?_eq_some (Bindings.get?_namesWith w.progress.bindings path suffix)
    exact ⟨_, rfl, hpath, hkeeps.path? hpath⟩
  -- no other step yields an expression over the shared tables
  | merge names values =>
    obtain ⟨_, -, h⟩ := bind_eq_ok.1 h
    obtain ⟨_, -, he⟩ := bind_eq_ok.1 h
    cases he
  | tokens path suffix => cases h
  | _ =>
    obtain ⟨_, -, he⟩ := bind_eq_ok.1 h
    cases he

/-- The expression that a turn yields reads alike ever after. -/
theorem Turn.readsAlike_of_run {turn : Turn} {b : Bindings} {text : String}
    (h : (turn.run b).1 = .ok (.expression text)) {later : Bindings}
    (hkeeps : (turn.run b).2.Keeps later) :
    turn.step.ReadsAlike text (turn.run b).2 later := by
  unfold run Workbench.run at h hkeeps ⊢
  dsimp only at h hkeeps ⊢
  split at h
  · next yield w' hattempt =>
    cases h
    rw [hattempt] at hkeeps
    exact Workbench.readsAlike_of_attempt hattempt hkeeps
  · cases h

namespace Bindings

/-- **Meanings last.** Let any steps be taken on any tables, each of them with any schema, any
count and any tables to merge in, and let any of them fail. Then from every moment on every token
that is bound stands for the same name, or for an equal value. So the expression that a step
yields reads the same in the tables right after it and in all later ones. The turn stands between
turns before and turns after it, so it is about any moment of any history. The first part is about
the tables and the second one about what was said with them; neither asks anything of the tables
that the history starts with. -/
theorem meanings_last (b : Bindings) (before : List Turn) (turn : Turn) (after : List Turn) :
    (b.after before).Keeps (b.after (before ++ after)) ∧
      ∀ text, (turn.run (b.after before)).1 = .ok (.expression text) →
        turn.step.ReadsAlike text (b.after (before ++ [turn]))
          (b.after (before ++ turn :: after)) := by
  refine ⟨?_, ?_⟩
  · rw [after_append]
    exact keeps_after _ _
  · intro text h
    rw [after_append, after_append]
    exact Turn.readsAlike_of_run h (keeps_after _ _)

end Bindings

/-- A turn with two fields that are spelled alike. -/
def twinsTurn (step : Step) : Turn :=
  { schema := twins, position := 0, last := .empty, step }

/-- A comparison of the field that is spelled like another. -/
def twinsTest : Turn := twinsTurn (.condition (.test ⟨"ab.x"⟩ .eq (.single (.string "l"))) .shared)

/-- The renamed token keeps its name, although the next step fails and another one merges. -/
theorem twinsTest_lasts :
    (twinsTest.run (Bindings.empty.after [twinsTurn (.bindPath ⟨"a-b.x"⟩ "")])).1 =
      .ok (.expression "#ab_1.#x = :ab_x_0") ∧
    Lasts "#ab_1.#x = :ab_x_0"
      (Bindings.empty.after [twinsTurn (.bindPath ⟨"a-b.x"⟩ ""), twinsTest])
      (Bindings.empty.after [twinsTurn (.bindPath ⟨"a-b.x"⟩ ""), twinsTest,
        twinsTurn (.bindName "#ab" "ab"), twinsTurn (.merge [("#x", "x"), ("#y", "y")] [])]) := by
  have hrun : (twinsTest.run (Bindings.empty.after [twinsTurn (.bindPath ⟨"a-b.x"⟩ "")])).1 =
      .ok (.expression "#ab_1.#x = :ab_x_0") := by
    rfl
  refine ⟨hrun, ?_⟩
  exact (Bindings.meanings_last .empty [twinsTurn (.bindPath ⟨"a-b.x"⟩ "")] twinsTest
    [twinsTurn (.bindName "#ab" "ab"), twinsTurn (.merge [("#x", "x"), ("#y", "y")] [])]).2 _ hrun

end ItemStore
