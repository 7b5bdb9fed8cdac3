import ItemStore.Proofs.Expression.Balance
import ItemStore.Proofs.Expression.Fresh
import ItemStore.Proofs.Schema.Descent
import ItemStore.Proofs.Text.Cut

/-
Finding a comparison in an expression.

A reader that has the text of an expression and its tables can look for an attribute by a token that
stands for it, and take what is behind the equals sign up to a blank or a bracket. That this is the
value that the attribute was compared with does not go without saying: a token can be the beginning
of another one, several tokens can stand for one attribute, and the text has other tests in it. A
text in which the attribute is named in one place only (`Comparison.SinglesOut`) is read correctly,
whatever is bound later on. Texts of conditions are like that if one of their tests compares the
attribute and the others are about other attributes (`Condition.Fixes`).

The reader is `partition_value` of the store, which finds the partition of a query in the text of
its key condition.
-/
set_option autoImplicit false

namespace ItemStore

open Entries Bindings

/-! ## Looking for a token -/

theorem occurrences_subset_append (mark : Char) (cs ds : List Char) :
    occurrences mark ds ⊆ occurrences mark (cs ++ ds) := by
  induction cs with
  | nil => exact List.Subset.refl _
  | cons c cs ih =>
    rw [List.cons_append, occurrences]
    split
    · exact List.subset_cons_of_subset _ ih
    · exact ih

/-- In front of a text, pieces that are kept apart add their own tokens. -/
theorem Separates.occurrences_flatMap_append {mark : Char} {sep : String} (h : Separates mark sep)
    (pieces : List String) (cs : List Char) :
    occurrences mark ((pieces.flatMap fun piece => piece.toList ++ sep.toList) ++ cs) =
      pieces.flatMap (tokensOf mark) ++ occurrences mark cs := by
  induction pieces with
  | nil => rfl
  | cons piece pieces ih =>
    rw [List.flatMap_cons, List.flatMap_cons, List.append_assoc, h, ih, List.append_assoc]
    rfl

/-- A token with an equals sign behind it occurs where the two stand together. -/
theorem mem_occurrences_of_inside {token : String} (h : IsToken '#' token) {cs : List Char}
    (hinside : (token ++ " = ").toList <:+: cs) : token ∈ occurrences '#' cs := by
  obtain ⟨before, after, rfl⟩ := hinside
  have hblank : IsSeparator '#' ' ' := IsMark.isSeparator (.inl rfl) (by decide)
  have hown : token ∈ occurrences '#' token.toList := by
    have hsingle : occurrences '#' token.toList = [token] := tokensOf_token (by decide) h
    rw [hsingle]
    exact List.mem_singleton_self token
  have hcut : before ++ (token ++ " = ").toList ++ after =
      (before ++ token.toList) ++ ' ' :: ('=' :: ' ' :: after) := by
    simp
  rw [hcut, occurrences_append_cons hblank]
  exact List.mem_append_left _ (occurrences_subset_append '#' before _ hown)

/-- A token that does not occur in front of a comparison is found there. -/
theorem cut?_token {token : String} (h : IsToken '#' token) {before : List Char}
    (hbefore : token ∉ occurrences '#' before) (rest : List Char) :
    Text.cut? (token ++ " = ").toList (before ++ ((token ++ " = ").toList ++ rest)) =
      some (before, rest) := by
  have hinside : ¬ (token ++ " = ").toList <:+: before :=
    fun hinside => hbefore (mem_occurrences_of_inside h hinside)
  obtain ⟨word, -, hword, htoken⟩ := h
  have hmark : (token ++ " = ").toList = '#' :: (word ++ [' ', '=', ' ']) := by
    simp [htoken]
  have hplain : '#' ∉ word ++ [' ', '=', ' '] := by
    rw [List.mem_append, not_or]
    exact ⟨notMem_of_isWord (by decide) hword, by decide⟩
  rw [hmark] at hinside ⊢
  exact Text.cut?_of_not_inside hplain hinside rest

/-! ## What tokens stand for -/

/-- The token stands for an attribute that is not the given one. -/
def Bindings.NamesOther (b : Bindings) (target token : String) : Prop :=
  ∃ other, get? token b.names = some other ∧ other ≠ target

theorem Bindings.NamesOther.grows {b b' : Bindings} {target token : String}
    (h : b.NamesOther target token) (hb : Bindings.Grows b b') :
    b'.NamesOther target token := by
  obtain ⟨other, hother, hne⟩ := h
  exact ⟨other, hb.names _ _ hother, hne⟩

theorem Bindings.NamesOther.get?_ne {b : Bindings} {target token : String}
    (h : b.NamesOther target token) : get? token b.names ≠ some target := by
  obtain ⟨other, hother, hne⟩ := h
  rw [hother]
  exact fun he => hne (Option.some.inj he)

/-- Tests of other attributes have tokens that stand for others. -/
theorem namesOther_compileLeaves {ls : List (Schema × Leaf)} {p p' : Progress}
    {texts : List String} (h : compileLeaves ls p = .ok (texts, p')) {target : String}
    (hls : ∀ l ∈ ls, target ∉ l.2.path.segments) :
    ∀ token ∈ texts.flatMap (tokensOf '#'), p'.bindings.NamesOther target token := by
  induction ls generalizing p texts with
  | nil =>
    cases h
    intro token htoken
    cases htoken
  | cons l ls ih =>
    obtain ⟨schema, leaf⟩ := l
    obtain ⟨p₁, text, rest, node, values, rfl, hleaf, hrest⟩ := compileLeaves_cons_eq_ok h
    intro token htoken
    rcases List.mem_append.1 htoken with htoken | htoken
    · rw [hleaf.tokensOf_name] at htoken
      obtain ⟨k, hk⟩ := List.mem_iff_getElem?.1 htoken
      obtain ⟨segment, hsegment, hbound⟩ := exists_getElem?_of_forall₂ (get?_namesWith _ _ _) hk
      rw [← hleaf.names] at hbound
      refine ⟨segment, (grows_compileLeaves hrest).names _ _ hbound, ?_⟩
      rintro rfl
      exact hls _ List.mem_cons_self (List.mem_of_getElem? hsegment)
    · exact ih hrest (fun l hl => hls l (List.mem_cons_of_mem _ hl)) token htoken

/-! ## One comparison in a text -/

/-- A text that is cut around a comparison of a name token with a value token. Cutting the text in
three says at once that nothing before the comparison names the attribute and nothing behind it
does. -/
structure Comparison where
  before : List Char
  name : String
  value : String
  after : List Char

namespace Comparison

/-- The text as a whole. -/
def text (c : Comparison) : List Char :=
  c.before ++ ((c.name ++ " = ").toList ++ (c.value.toList ++ c.after))

/-- The comparison is the only place of the text where the attribute is named, and it compares the
attribute with the value. The tables are those of the end, because names that are bound after the
key condition stand in the same table. -/
structure SinglesOut (c : Comparison) (b : Bindings) (target : String) (d : Descriptor) : Prop where
  isName : IsToken '#' c.name
  isValue : IsToken ':' c.value
  get?_name : get? c.name b.names = some target
  get?_value : get? c.value b.values = some d
  ends : ∀ x ∈ c.after.head?, x = ' ' ∨ x = ')'
  before : ∀ token ∈ occurrences '#' c.before, b.NamesOther target token
  other : ∀ token ∈ occurrences '#' c.text, token = c.name ∨ b.NamesOther target token

variable {c : Comparison} {b : Bindings} {target : String} {d : Descriptor}

theorem SinglesOut.grows (h : c.SinglesOut b target d) {b' : Bindings} (hb : Bindings.Grows b b') :
    c.SinglesOut b' target d where
  isName := h.isName
  isValue := h.isValue
  get?_name := hb.names _ _ h.get?_name
  get?_value := hb.values _ _ h.get?_value
  ends := h.ends
  before := fun token htoken => (h.before token htoken).grows hb
  other := fun token htoken => (h.other token htoken).imp_right fun hother => hother.grows hb

/-- A token that stands for the attribute is the one in the comparison or in no place. -/
theorem SinglesOut.notMem (h : c.SinglesOut b target d) {token : String}
    (htoken : get? token b.names = some target) (hne : token ≠ c.name) :
    token ∉ occurrences '#' c.text := by
  intro hmem
  rcases h.other token hmem with he | hother
  · exact hne he
  · exact hother.get?_ne htoken

/-- The value is what stands behind the equals sign up to a blank or a bracket. -/
theorem SinglesOut.takeWhile_eq (h : c.SinglesOut b target d) :
    (c.value.toList ++ c.after).takeWhile (fun x => x != ' ' && x != ')') = c.value.toList := by
  have hvalue : ∀ x ∈ c.value.toList, (x != ' ' && x != ')') = true := by
    intro x hx
    have hblank : x ≠ ' ' := fun he => h.isValue.notMem (by decide) (by decide) (he ▸ hx)
    have hbracket : x ≠ ')' := fun he => h.isValue.notMem (by decide) (by decide) (he ▸ hx)
    simp [hblank, hbracket]
  rw [List.takeWhile_append_of_pos hvalue]
  cases hafter : c.after with
  | nil => simp
  | cons x after =>
    have hx : x = ' ' ∨ x = ')' := h.ends x (by rw [hafter]; rfl)
    rw [List.takeWhile_cons_of_neg, List.append_nil]
    rcases hx with rfl | rfl <;> decide

/-- The comparison is found by its own token. -/
theorem SinglesOut.cut?_eq (h : c.SinglesOut b target d) :
    Text.cut? (c.name ++ " = ").toList c.text = some (c.before, c.value.toList ++ c.after) :=
  cut?_token h.isName (fun hmem => (h.before _ hmem).get?_ne h.get?_name) _

/-- The comparison in a longer text. -/
def within (c : Comparison) (lead tail : List Char) : Comparison :=
  { c with before := lead ++ c.before, after := c.after ++ tail }

theorem text_within (c : Comparison) (lead tail : List Char) :
    (c.within lead tail).text = lead ++ (c.text ++ tail) := by
  simp only [text, within, List.append_assoc]

/-- What is put around the text must not name the attribute. -/
theorem SinglesOut.within (h : c.SinglesOut b target d) {lead tail : List Char}
    (hends : ∀ x ∈ tail.head?, x = ' ' ∨ x = ')')
    (hlead : ∀ token ∈ occurrences '#' (lead ++ c.before),
      token ∈ occurrences '#' c.before ∨ b.NamesOther target token)
    (htext : ∀ token ∈ occurrences '#' (lead ++ (c.text ++ tail)),
      token ∈ occurrences '#' c.text ∨ b.NamesOther target token) :
    (c.within lead tail).SinglesOut b target d where
  isName := h.isName
  isValue := h.isValue
  get?_name := h.get?_name
  get?_value := h.get?_value
  ends := by
    intro x hx
    cases hafter : c.after with
    | nil =>
      rw [Comparison.within, hafter] at hx
      exact hends x hx
    | cons y after =>
      rw [Comparison.within, hafter] at hx
      exact h.ends x (hafter ▸ hx)
  before := fun token htoken => (hlead token htoken).elim (h.before token) id
  other := by
    intro token htoken
    rw [text_within] at htoken
    exact (htext token htoken).elim (h.other token) .inr

end Comparison

/-! ## Conditions that fix an attribute -/

/-- The condition says what an attribute is equal to, alone or together with conditions on other
attributes. Other conditions in the conjunction are about other attributes, as conditions on the
sort key are. -/
inductive Condition.Fixes (target : String) (v : Value) : Condition → Prop
  | test : Fixes target v (.test ⟨target⟩ .eq (.single v))
  | and {before after : List Condition} {c : Condition}
    (hbefore : ∀ p ∈ pathsOfAll before, target ∉ p.segments) (h : Fixes target v c)
    (hafter : ∀ p ∈ pathsOfAll after, target ∉ p.segments) :
    Fixes target v (.group .and (before ++ c :: after))

namespace Condition

theorem compileAll_append_eq_ok {schema : Schema} {cs ds : List Condition} {p p' : Progress}
    {parts : List String} (h : compileAll schema (cs ++ ds) p = .ok (parts, p')) :
    ∃ first p₁ rest, compileAll schema cs p = .ok (first, p₁) ∧
      compileAll schema ds p₁ = .ok (rest, p') ∧ parts = first ++ rest := by
  induction cs generalizing p parts with
  | nil => exact ⟨[], p, parts, rfl, h, rfl⟩
  | cons c cs ih =>
    obtain ⟨⟨part, p₁⟩, hc, h⟩ := bind_eq_ok.1 h
    obtain ⟨⟨others, p₂⟩, hothers, he⟩ := bind_eq_ok.1 h
    cases he
    obtain ⟨first, p₃, rest, hfirst, hrest, rfl⟩ := ih hothers
    exact ⟨part :: first, p₃, rest, bind_eq_ok.2 ⟨_, hc, bind_eq_ok.2 ⟨_, hfirst, rfl⟩⟩, hrest, rfl⟩

/-- What compiling several conditions does, seen from their tests. -/
theorem compileAll_spec {schema : Schema} {cs : List Condition} {p p' : Progress}
    {parts : List String} (h : compileAll schema cs p = .ok (parts, p'))
    (hfrom : p.bindings.From (ValueOrigin.Before p.position)) :
    Bindings.Grows p.bindings p'.bindings ∧
      p'.bindings.From (ValueOrigin.Before p'.position) ∧
      ∀ target, (∀ q ∈ pathsOfAll cs, target ∉ q.segments) →
        ∀ token ∈ parts.flatMap (tokensOf '#'), p'.bindings.NamesOther target token := by
  obtain ⟨texts, hleaves, htexts⟩ := compileAll_eq_ok cs h
  refine ⟨grows_compileLeaves hleaves, from_compileLeaves hleaves hfrom, ?_⟩
  intro target hcs token htoken
  rw [htexts '#' (.inl rfl)] at htoken
  refine namesOther_compileLeaves hleaves ?_ token htoken
  intro l hl
  obtain ⟨leaf, hleaf, rfl⟩ := List.mem_map.1 hl
  exact hcs _ (map_path_leavesOfAll cs ▸ List.mem_map_of_mem hleaf)

/-- The text of a group that holds all of its conditions, cut around one of them. -/
theorem toList_joinParts_and (first : List String) (part : String) (rest : List String) :
    ∃ lead tail, (joinParts .and (first ++ part :: rest)).toList = lead ++ (part.toList ++ tail) ∧
      (∀ x ∈ tail.head?, x = ' ' ∨ x = ')') ∧
      ∀ cs, occurrences '#' (lead ++ cs) = first.flatMap (tokensOf '#') ++ occurrences '#' cs := by
  have htext : (joinParts .and (first ++ part :: rest)).toList =
      '(' :: (Text.joinWith " AND ".toList ((first ++ part :: rest).map String.toList) ++
        [')']) := by
    have hjoin : joinParts .and (first ++ part :: rest) =
        "(" ++ " AND ".intercalate (first ++ part :: rest) ++ ")" := rfl
    rw [hjoin, String.toList_append, String.toList_append, Text.toList_intercalate]
    rfl
  have hlead : ∀ cs, occurrences '#' (('(' :: (first.map String.toList).flatMap
      fun piece => piece ++ " AND ".toList) ++ cs) =
        first.flatMap (tokensOf '#') ++ occurrences '#' cs := by
    intro cs
    rw [List.cons_append, occurrences_cons_of_ne (by decide), List.flatMap_map]
    exact (IsMark.connective (.inl rfl) .and).occurrences_flatMap_append first cs
  rw [htext, List.map_append, List.map_cons, Text.joinWith_append_cons]
  cases hrest : rest.map String.toList with
  | nil => exact ⟨_, [')'], by simp [Text.joinWith], by simp, hlead⟩
  | cons next pieces =>
    refine ⟨_, " AND ".toList ++ (Text.joinWith " AND ".toList (next :: pieces) ++ [')']), ?_, ?_,
      hlead⟩
    · rw [Text.joinWith_cons_cons]
      simp
    · intro x hx
      cases hx
      exact .inl rfl

/-- A test whether the attribute equals the value is a comparison with nothing around it. -/
theorem exists_singlesOut_test {schema : Schema} {target : String} (htarget : '.' ∉ target.toList)
    {v : Value} {p p' : Progress} {text : String}
    (h : (test ⟨target⟩ .eq (.single v)).compile schema p = .ok (text, p'))
    (hfrom : p.bindings.From (ValueOrigin.Before p.position)) :
    ∃ node d, schema.resolve ⟨target⟩ = .ok node ∧ node.encode v = .ok d ∧
      ∃ c : Comparison, text.toList = c.text ∧ c.SinglesOut p'.bindings target d := by
  let leaf : Leaf := ⟨⟨target⟩, .eq, .single v⟩
  obtain ⟨node, values, hleaf⟩ : ∃ node values, CompiledTest schema leaf p node values text p' :=
    Leaf.compile_eq_ok h
  obtain ⟨hname, hvalue⟩ := leaf.isToken_tokens p
  have hsegments : leaf.path.segments = [target] :=
    Path.segments_of_isTopLevel (Path.isTopLevel_iff.2 htarget)
  have hnames := get?_namesWith p.bindings leaf.path (leaf.site p).nameSuffix
  rw [hsegments, ← hleaf.names] at hnames
  have hfound := hleaf.tokensOf_name
  have hrenders := hleaf.renders
  -- one segment has one token, and one value has one
  generalize p.bindings.pathTokens leaf.path (leaf.site p).nameSuffix = names
    at hname hnames hfound hrenders
  obtain ⟨name, _, hbound, hnil, rfl⟩ := List.forall₂_cons_right_iff.1 hnames
  cases hnil
  obtain ⟨d, _, hencode, hnil, rfl⟩ := List.forall₂_cons_left_iff.1 hleaf.encode
  cases hnil
  have hvalues := hleaf.get?_tokens hfrom
  obtain ⟨token, _, htoken, hnil, htokens⟩ := List.forall₂_cons_right_iff.1 hvalues
  cases hnil
  rw [htokens] at hvalue hrenders
  have hform : comparison name .eq token = name ++ " = " ++ token := by
    simp [comparison, Operator.text, String.append_assoc]
  have htext : text = name ++ " = " ++ token := by
    rw [dotted, String.intercalate_singleton] at hrenders
    cases hrenders with
    | comparison => exact hform
    | function hop => rcases hop with hop | hop | hop <;> cases hop
  have htoList : text.toList = (name ++ " = ").toList ++ (token.toList ++ []) := by
    rw [htext, String.toList_append, List.append_nil]
  refine ⟨node, d, hleaf.resolve, hencode, ⟨[], name, token, []⟩, htoList, ?_⟩
  refine ⟨hname name List.mem_cons_self, hvalue token List.mem_cons_self, hbound, htoken,
    by simp, by simp, ?_⟩
  intro other hother
  rw [Comparison.text, List.nil_append, ← htoList] at hother
  have hfound' : occurrences '#' text.toList = [name] := hfound
  rw [hfound'] at hother
  exact .inl (List.mem_singleton.1 hother)

end Condition

theorem Condition.mem_pathsOfAll {q : Path} {cs : List Condition} :
    q ∈ pathsOfAll cs ↔ ∃ c ∈ cs, q ∈ c.paths := by
  induction cs with
  | nil => simp [pathsOfAll]
  | cons c cs ih => simp [pathsOfAll, ih]

/-- A condition that fixes an attribute tests it. -/
theorem Condition.Fixes.mem_paths {target : String} {v : Value} {c : Condition}
    (hc : c.Fixes target v) : ⟨target⟩ ∈ c.paths := by
  induction hc with
  | test => exact List.mem_singleton_self _
  | and _ _ _ ih =>
    rw [paths]
    exact mem_pathsOfAll.2 ⟨_, List.mem_append_right _ List.mem_cons_self, ih⟩

/-- **The comparison is found.** A condition that fixes an attribute compiles to a text that names
the attribute in one place only, and there it is compared with the encoded value. The attribute
has no dot in its name, since with a dot its path would be about another attribute; and the values
in the tables come from earlier tests, which holds of the empty tables that a query starts with. -/
theorem Condition.Fixes.exists_singlesOut {target : String} {v : Value} {c : Condition}
    (hc : c.Fixes target v) (htarget : '.' ∉ target.toList) {schema : Schema} {p p' : Progress}
    {text : String} (h : c.compile schema p = .ok (text, p'))
    (hfrom : p.bindings.From (ValueOrigin.Before p.position)) :
    ∃ node d, schema.resolve ⟨target⟩ = .ok node ∧ node.encode v = .ok d ∧
      ∃ c : Comparison, text.toList = c.text ∧ c.SinglesOut p'.bindings target d := by
  induction hc generalizing p p' text with
  | test => exact exists_singlesOut_test htarget h hfrom
  | @and before after c hbefore _ hafter ih =>
    rw [compile] at h
    split at h
    · cases h
    obtain ⟨⟨parts, p₃⟩, hparts, he⟩ := bind_eq_ok.1 h
    cases he
    obtain ⟨first, p₁, others, hfirst, hothers, rfl⟩ := compileAll_append_eq_ok hparts
    obtain ⟨⟨part, p₂⟩, hpart, hothers⟩ := bind_eq_ok.1 hothers
    obtain ⟨⟨rest, p₄⟩, hrest, he⟩ := bind_eq_ok.1 hothers
    cases he
    obtain ⟨-, hfrom₁, hleft⟩ := compileAll_spec hfirst hfrom
    obtain ⟨node, d, hnode, hd, cmp, htext, hsingle⟩ := ih hpart hfrom₁
    obtain ⟨leaves, hleaves, -⟩ := c.compile_eq_ok hpart
    obtain ⟨hgrows, -, hright⟩ := compileAll_spec hrest (from_compileLeaves hleaves hfrom₁)
    have hgrows₁ := (grows_compileLeaves hleaves).trans hgrows
    -- the conditions before and behind it name other attributes
    have hleft' : ∀ token ∈ first.flatMap (tokensOf '#'), p'.bindings.NamesOther target token :=
      fun token htoken => (hleft target hbefore token htoken).grows hgrows₁
    have hright' := hright target hafter
    obtain ⟨lead, tail, hjoined, hends, hlead⟩ := toList_joinParts_and first part rest
    refine ⟨node, d, hnode, hd, cmp.within lead tail, ?_, (hsingle.grows hgrows).within hends ?_ ?_⟩
    · rw [Comparison.text_within, ← htext, hjoined]
    · intro token htoken
      rw [hlead] at htoken
      exact (List.mem_append.1 htoken).elim (fun hmem => .inr (hleft' token hmem)) .inl
    · intro token htoken
      have hall : occurrences '#' (joinParts .and (first ++ part :: rest)).toList =
          (first ++ part :: rest).flatMap (tokensOf '#') := tokensOf_joinParts (.inl rfl) .and _
      rw [← htext, ← hjoined, hall, List.flatMap_append, List.flatMap_cons] at htoken
      rcases List.mem_append.1 htoken with hmem | hmem
      · exact .inr (hleft' token hmem)
      · rcases List.mem_append.1 hmem with hmem | hmem
        · exact .inl (htext ▸ hmem)
        · exact .inr (hright' token hmem)

end ItemStore
