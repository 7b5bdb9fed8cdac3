import ItemStore.Proofs.Expression.Acceptance
import ItemStore.Proofs.Expression.Balance
import ItemStore.Proofs.Expression.Reading
import ItemStore.Proofs.Schema.Descent

/-
What a projection names.

The paths of a projection are not compared with each other. What is compared is how they are
written, and a path is left out if a part of the same form is there already. That this takes away
repeated paths and nothing else has two reasons. A path that was bound is bound to the same tokens
ever after, however much is bound in between, so a path that comes again is written as before.
And the tokens of a part stand for one row of segments, so different paths are written differently,
also where their segments are spelled with the same characters.

`Denotes` says both of one part, for the tables as they are and for all that they may become. The
invariant of the compiler is that the parts written so far denote, in a row, the paths gone through
so far without the repeated ones. What is in the tables at the beginning does not matter.
-/
set_option autoImplicit false

namespace ItemStore

open Entries

namespace Bindings

/-- The paths that a projection names: it is cut at the commas and its parts are cut at the dots,
and the tokens are looked up. It is the reader that a store would be, and knows nothing of how
paths are written. -/
def projected? (b : Bindings) (text : String) : Option (List Path) :=
  if text = "" then some []
  else (Text.splitList text.toList).mapM fun part =>
    (b.path? (Path.segments ⟨String.ofList part⟩)).map Path.mk

/-! ## One part -/

/-- The part is how the path is written and is read as the path, from now on. The first part is
about writing and the second about reading, and both are about all later tables. -/
structure Denotes (b : Bindings) (part : String) (p : Path) : Prop where
  written : ∀ b' : Bindings, Entries.Grows b.names b'.names → (b'.bindPath p "").1 = part
  read : ∀ b' : Bindings, Entries.Grows b.names b'.names →
    b'.path? (Path.segments ⟨part⟩) = some p.text
  comma_notMem : ',' ∉ part.toList
  nonempty : part ≠ ""

theorem Denotes.grows {b b' : Bindings} {part : String} {p : Path} (h : Denotes b part p)
    (hgrows : Entries.Grows b.names b'.names) : Denotes b' part p :=
  ⟨fun b'' hlater => h.written b'' (hgrows.trans hlater),
    fun b'' hlater => h.read b'' (hgrows.trans hlater), h.comma_notMem, h.nonempty⟩

/-- A part denotes one path, and a path is denoted by one part. -/
theorem biUnique_denotes (b : Bindings) : Relator.BiUnique (Denotes b) := by
  constructor
  · intro part p part' h h'
    exact (h.written b (.refl _)).symm.trans (h'.written b (.refl _))
  · intro part p q h h'
    have htext : some p.text = some q.text := (h.read b (.refl _)).symm.trans (h'.read b (.refl _))
    exact Path.text_injective (Option.some.inj htext)

/-- A part is cut into its tokens. -/
theorem segments_dotted {tokens : List String} (hne : tokens ≠ [])
    (h : ∀ t ∈ tokens, IsToken '#' t) : Path.segments ⟨dotted tokens⟩ = tokens :=
  Path.segments_intercalate hne fun t ht => (h t ht).notMem (by decide) (by decide)

theorem comma_notMem_dotted {tokens : List String} (h : ∀ t ∈ tokens, IsToken '#' t) :
    ',' ∉ (dotted tokens).toList := by
  rw [dotted, Text.toList_intercalate]
  intro hmem
  rcases Text.mem_joinWith hmem with hdot | ⟨piece, hpiece, hmem⟩
  · exact absurd hdot (by decide)
  · obtain ⟨t, ht, rfl⟩ := List.mem_map.1 hpiece
    exact (h t ht).notMem (by decide) (by decide) hmem

/-- **A path that was bound.** What it was written as denotes it. There is no hypothesis on the
tables: any names may be bound in them already. -/
theorem denotes_bindPath (b : Bindings) (p : Path) :
    Denotes (b.bindPath p "").2 (b.bindPath p "").1 p := by
  have hwords : IsWord "".toList := by simpa using isWord_nil
  have htokens : ∀ t ∈ b.pathTokens p "", IsToken '#' t := isToken_pathTokens hwords b p
  have hne : b.pathTokens p "" ≠ [] := pathTokens_ne_nil b p ""
  have hcut := segments_dotted hne htokens
  rw [bindPath_eq]
  refine ⟨?_, ?_, comma_notMem_dotted htokens, ?_⟩
  · intro b' hlater
    rw [bindPath_eq, pathTokens_of_grows hlater]
  · intro b' hlater
    rw [hcut]
    exact path?_eq_some ((get?_namesWith b p "").imp fun token segment h => hlater token segment h)
  · -- the empty text would be cut into one empty token
    intro (hempty : dotted (b.pathTokens p "") = "")
    rw [hempty] at hcut
    obtain ⟨word, -, -, htoken⟩ := htokens "" (hcut ▸ List.mem_singleton_self "")
    cases htoken

end Bindings

/-! ## All parts -/

/-- The parts denote the paths in a row, repeated ones aside. Repeated paths are taken out of the
list and not out of the text, since the text has no repetition. -/
def Covers (b : Bindings) (written : List String) (paths : List Path) : Prop :=
  List.Forall₂ b.Denotes written paths.eraseDups

/-- **One path more.** It is one turn of the loop in `compile_into`. -/
theorem Covers.bindPath {b : Bindings} {written : List String} {done : List Path}
    (h : Covers b written done) (p : Path) :
    Covers (b.bindPath p "").2
      (if (b.bindPath p "").1 ∈ written then written else written ++ [(b.bindPath p "").1])
      (done ++ [p]) := by
  have hdone : List.Forall₂ (b.bindPath p "").2.Denotes written done.eraseDups :=
    List.Forall₂.imp (fun part q hpart => hpart.grows (Bindings.grows_bindPath b p "").names) h
  have hnew := Bindings.denotes_bindPath b p
  -- a part is there already exactly where its path is
  have hmem : (b.bindPath p "").1 ∈ written ↔ p ∈ done.eraseDups :=
    List.rel_mem (Bindings.biUnique_denotes _) hnew hdone
  rw [List.mem_eraseDups] at hmem
  unfold Covers
  rw [List.eraseDups_append]
  by_cases hp : p ∈ done
  · have hnothing : [p].removeAll done = [] := by simp [List.removeAll, hp]
    rw [if_pos (hmem.2 hp), hnothing, List.eraseDups_nil, List.append_nil]
    exact hdone
  · have hsingle : [p].removeAll done = [p] := by simp [List.removeAll, hp]
    rw [if_neg (mt hmem.1 hp), hsingle]
    exact List.rel_append hdone (.cons hnew .nil)

theorem Covers.projectPaths {schema : Schema} {paths done : List Path}
    {written parts : List String} {b b' : Bindings}
    (hdone : Covers b written done) (h : projectPaths schema written paths b = .ok (parts, b')) :
    Covers b' parts (done ++ paths) := by
  induction paths generalizing written b done with
  | nil =>
    cases h
    rw [List.append_nil]
    exact hdone
  | cons p paths ih =>
    obtain ⟨node, -, h⟩ := bind_eq_ok.1 h
    rw [List.append_cons]
    exact ih (hdone.bindPath p) h

/-- Every part is read as the path that it denotes. -/
theorem mapM_path?_of_denotes {b : Bindings} {parts : List String} {paths : List Path}
    (h : List.Forall₂ b.Denotes parts paths) :
    (parts.map String.toList).mapM (fun part =>
      (b.path? (Path.segments ⟨String.ofList part⟩)).map Path.mk) = some paths := by
  induction h with
  | nil => rfl
  | @cons part p parts paths hpart _ ih =>
    have hread : b.path? (Path.segments ⟨part⟩) = some p.text := hpart.read b (.refl _)
    rw [List.map_cons, List.mapM_cons, ih, String.ofList_toList, hread]
    rfl

section Reading

variable {b : Bindings} {parts : List String} {paths : List Path} (h : Covers b parts paths)
include h

theorem Covers.exists_denotes {part : String} (hpart : part ∈ parts) :
    ∃ p, b.Denotes part p := by
  obtain ⟨i, hi⟩ := List.mem_iff_getElem?.1 hpart
  obtain ⟨p, -, hdenotes⟩ := exists_getElem?_of_forall₂ h hi
  exact ⟨p, hdenotes⟩

/-- The text is cut into its parts, unless there is none. -/
theorem Covers.splitList_eq (hne : parts ≠ []) :
    Text.splitList (", ".intercalate parts).toList = parts.map String.toList := by
  rw [Text.toList_intercalate]
  refine Text.splitList_joinWith (by simpa using hne) fun piece hpiece => ?_
  obtain ⟨part, hpart, rfl⟩ := List.mem_map.1 hpiece
  obtain ⟨p, hdenotes⟩ := h.exists_denotes hpart
  exact hdenotes.comma_notMem

theorem Covers.intercalate_eq_empty_iff : ", ".intercalate parts = "" ↔ parts = [] := by
  constructor
  · intro hempty
    by_contra hne
    have hcut := h.splitList_eq hne
    rw [hempty] at hcut
    -- the empty text would be one empty part
    have hpart : "" ∈ parts := by
      have hmem : [] ∈ parts.map String.toList := hcut ▸ List.mem_singleton_self []
      obtain ⟨part, hpart, he⟩ := List.mem_map.1 hmem
      rwa [String.toList_eq_nil_iff.1 he] at hpart
    obtain ⟨p, hdenotes⟩ := h.exists_denotes hpart
    exact hdenotes.nonempty rfl
  · rintro rfl
    rfl

theorem Covers.text_eq_empty_iff : ", ".intercalate parts = "" ↔ paths = [] := by
  rw [h.intercalate_eq_empty_iff, ← List.length_eq_zero_iff, List.Forall₂.length_eq h,
    List.length_eq_zero_iff]
  cases paths with
  | nil => simp
  | cons p paths => simp [List.eraseDups_cons]

/-- The paths are read back from the text. -/
theorem Covers.projected?_eq : b.projected? (", ".intercalate parts) = some paths.eraseDups := by
  unfold Bindings.projected?
  by_cases hempty : ", ".intercalate parts = ""
  · rw [if_pos hempty, h.text_eq_empty_iff.1 hempty, List.eraseDups_nil]
  · have hne : parts ≠ [] := mt h.intercalate_eq_empty_iff.2 hempty
    rw [if_neg hempty, h.splitList_eq hne]
    exact mapM_path?_of_denotes h

end Reading

/-! ## Paths that lead nowhere -/

theorem fault?_projectPaths (schema : Schema) (paths : List Path) (written : List String)
    (b : Bindings) : fault? (projectPaths schema written paths b) =
      paths.findSome? fun p => fault? (schema.resolve p) := by
  induction paths generalizing written b with
  | nil => rfl
  | cons p paths ih =>
    rw [List.findSome?_cons, projectPaths]
    cases schema.resolve p with
    | ok node => exact ih _ _
    | error e => rfl

/-- The first path that leads nowhere is the only fault that a projection can have. -/
theorem fault?_compileProjection (schema : Schema) (paths : List Path) (b : Bindings) :
    fault? (compileProjection schema paths b) =
      paths.findSome? fun p => fault? (schema.resolve p) := by
  rw [← fault?_projectPaths schema paths [] b, compileProjection]
  cases projectPaths schema [] paths b with
  | ok result => rfl
  | error e => rfl

theorem findSome?_resolve_eq {schema : Schema} {before after : List Path} {p : Path}
    (hbefore : ∀ q ∈ before, ∃ node, schema.resolve q = .ok node)
    (hp : schema.resolve? p = none) :
    (before ++ p :: after).findSome? (fun q => fault? (schema.resolve q)) =
      some (.pathNotFound p.text) := by
  have hnone : before.findSome? (fun q => fault? (schema.resolve q)) = none :=
    List.findSome?_eq_none_iff.2 fun q hq => fault?_eq_none_iff.2 (hbefore q hq)
  rw [List.findSome?_append, hnone, Option.none_or, List.findSome?_cons, Schema.resolve, hp]
  rfl

/-- **What a projection names.** In whatever tables it is compiled, a projection compiles if all
of its paths lead somewhere, and otherwise the first that does not is the error. It binds no
value. Its text, cut apart and looked up in the tables that it leaves behind, names the paths in
the order in which they came first, each of them once; and it is empty if there are none. The
first two parts say when it compiles and what the error is otherwise; the third one describes
every text that comes out. The tables are any tables, as those of a query have been filled by its
conditions before. -/
theorem compileProjection_spec (schema : Schema) (paths : List Path) (b : Bindings) :
    ((∃ text b', compileProjection schema paths b = .ok (text, b')) ↔
      ∀ p ∈ paths, ∃ node, schema.resolve p = .ok node) ∧
    (∀ before p after, paths = before ++ p :: after →
      (∀ q ∈ before, ∃ node, schema.resolve q = .ok node) → schema.resolve? p = none →
        compileProjection schema paths b = .error (.pathNotFound p.text)) ∧
    ∀ text b', compileProjection schema paths b = .ok (text, b') →
      b'.values = b.values ∧ b'.projected? text = some paths.eraseDups ∧
        (text = "" ↔ paths = []) := by
  refine ⟨?_, ?_, ?_⟩
  · have hfault : fault? (compileProjection schema paths b) = none ↔
        ∀ p ∈ paths, ∃ node, schema.resolve p = .ok node := by
      rw [fault?_compileProjection, List.findSome?_eq_none_iff]
      exact forall₂_congr fun p _ => fault?_eq_none_iff
    rw [← hfault, fault?_eq_none_iff, Prod.exists]
  · rintro before p after rfl hbefore hp
    rw [← fault?_eq_some_iff, fault?_compileProjection]
    exact findSome?_resolve_eq hbefore hp
  · intro text b' h
    obtain ⟨⟨parts, b₁⟩, hparts, he⟩ := bind_eq_ok.1 h
    cases he
    have hnone : Covers b [] [] := .nil
    have hcovers : Covers b' parts paths := hnone.projectPaths hparts
    exact ⟨values_projectPaths hparts, hcovers.projected?_eq, hcovers.text_eq_empty_iff⟩

/-- Names as other expressions may have left them: the token that both twins are spelled like
stands for neither of them, and its first variant stands for one of them already. It is there to
show that a projection finds its way when all obvious tokens are taken. -/
def crowdedNames : Bindings := { names := [("#ab", "a b"), ("#ab_1", "ab")], values := [] }

/-- The twins are told apart, and the first of them is named once. The path that leads nowhere is
found before the next one that does. -/
theorem twins_compileProjection :
    (∃ b', compileProjection twins [⟨"a-b.x"⟩, ⟨"ab.x"⟩, ⟨"a-b.x"⟩] crowdedNames =
        .ok ("#ab_2.#x, #ab_1.#x", b') ∧
      b'.projected? "#ab_2.#x, #ab_1.#x" = some [⟨"a-b.x"⟩, ⟨"ab.x"⟩]) ∧
    compileProjection twins [⟨"ab"⟩, ⟨"ab.y"⟩, ⟨"abc"⟩] crowdedNames =
      .error (.pathNotFound "ab.y") := by
  constructor
  · obtain ⟨-, -, hnames⟩ :=
      compileProjection_spec twins [⟨"a-b.x"⟩, ⟨"ab.x"⟩, ⟨"a-b.x"⟩] crowdedNames
    have hrun : ((compileProjection twins [⟨"a-b.x"⟩, ⟨"ab.x"⟩, ⟨"a-b.x"⟩]
        crowdedNames).toOption.map Prod.fst) = some "#ab_2.#x, #ab_1.#x" := by
      decide +kernel
    obtain ⟨⟨text, b'⟩, hcompile, rfl⟩ := exists_ok_of_toOption_map hrun
    exact ⟨b', hcompile, (hnames _ b' hcompile).2.1⟩
  · obtain ⟨-, herror, -⟩ := compileProjection_spec twins [⟨"ab"⟩, ⟨"ab.y"⟩, ⟨"abc"⟩] crowdedNames
    have hfirst : ∃ node, twins.resolve ⟨"ab"⟩ = .ok node := ⟨_, rfl⟩
    exact herror [⟨"ab"⟩] ⟨"ab.y"⟩ [⟨"abc"⟩] rfl (by simpa using hfirst) rfl

end ItemStore
