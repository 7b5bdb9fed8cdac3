import ItemStore.Proofs.Memory.UpdateText

/-
The clauses of an update as a store carries them out.

Every right side is recognised by how it begins or by the sign in the middle: only an append
begins with `list_append(`, since names begin with `#` and tokens with `:`, and a plus or a minus
between blanks is in a sum or a difference and nowhere else. So the store does with a clause what
was meant by it, and what is left to do is to say which attribute the name stands for.

A name with several tokens stands for nothing in the tables, because no token has a dot in it. So
an action below the top level always makes the store stop.

What a clause is taken for is decided by `evaluate`, and the attribute is found by `lookup_name`;
both are read here from the side of the compiler, which knows what it has written.
-/
set_option autoImplicit false

namespace ItemStore

open Entries Bindings Memory Text

/-! ## Right sides -/

namespace Memory

variable {b : Bindings} {item : Item} {name token : List Char}

/-- A text in front of a mark that is a sign between blanks. -/
theorem cut?_sign {sign : Char} (hname : IsPlain name) (rest : List Char) :
    cut? [' ', sign, ' '] (name ++ (' ' :: sign :: ' ' :: rest)) = some (name, rest) :=
  cut?_of_notMem (hname.notMem (by decide)) rest

/-- Only an append begins like a call. -/
theorem appendArguments?_eq_none {cs : List Char} (h : cs.head? ≠ some 'l') :
    appendArguments? cs = none := by
  have hafter : after? "list_append(".toList cs = none := by
    rw [Option.eq_none_iff_forall_ne_some]
    intro rest hrest
    rw [after?_eq_some_iff.1 hrest] at h
    exact h rfl
  rw [appendArguments?, hafter]

theorem evaluate_token (htoken : IsPlain token) (hhead : token.head? = some ':') :
    evaluate b item token = valueOf b token := by
  have happend : appendArguments? token = none := appendArguments?_eq_none (by rw [hhead]; decide)
  have hblank : ' ' ∉ token := htoken.notMem (by decide)
  rw [evaluate, happend]
  simp only
  rw [cut?_eq_none_of_notMem (by decide) hblank, cut?_eq_none_of_notMem (by decide) hblank]

/-- A text with a name in front begins as the name does. -/
theorem head?_append_name (hhead : name.head? = some '#') (rest : List Char) :
    (name ++ rest).head? ≠ some 'l' := by
  rw [List.head?_append, hhead]
  intro he
  cases he

theorem evaluate_sum (hname : IsPlain name) (hhead : name.head? = some '#') :
    evaluate b item (name ++ (" + ".toList ++ token)) =
      calculated b item (· + ·) name token := by
  have happend : appendArguments? (name ++ (" + ".toList ++ token)) = none :=
    appendArguments?_eq_none (head?_append_name hhead _)
  have hcut : cut? " + ".toList (name ++ (" + ".toList ++ token)) = some (name, token) :=
    cut?_sign hname token
  rw [evaluate, happend]
  simp only
  rw [hcut]

theorem evaluate_difference (hname : IsPlain name) (hhead : name.head? = some '#')
    (htoken : IsPlain token) :
    evaluate b item (name ++ (" - ".toList ++ token)) =
      calculated b item (· - ·) name token := by
  have happend : appendArguments? (name ++ (" - ".toList ++ token)) = none :=
    appendArguments?_eq_none (head?_append_name hhead _)
  -- a sum is looked for first, and there is no plus
  have hplus : '+' ∉ name ++ (" - ".toList ++ token) := by
    rw [List.mem_append, List.mem_append, not_or, not_or]
    exact ⟨hname.notMem (by decide), by decide, htoken.notMem (by decide)⟩
  have hcut : cut? " - ".toList (name ++ (" - ".toList ++ token)) = some (name, token) :=
    cut?_sign hname token
  rw [evaluate, happend]
  simp only
  rw [cut?_eq_none_of_notMem (by decide) hplus]
  simp only
  rw [hcut]

theorem evaluate_append : evaluate b item
    ("list_append(".toList ++ (name ++ (", ".toList ++ (token ++ [')'])))) =
      appended b item (name ++ (", ".toList ++ token)) := by
  have hlast : (name ++ (", ".toList ++ (token ++ [')']))).getLast? = some ')' := by
    rw [← List.append_assoc, ← List.append_assoc, List.getLast?_append_of_ne_nil _ (by simp)]
    rfl
  have hinit : (name ++ (", ".toList ++ (token ++ [')']))).dropLast =
      name ++ (", ".toList ++ token) := by
    rw [← List.append_assoc, ← List.append_assoc, List.dropLast_concat, List.append_assoc]
  rw [evaluate, appendArguments?, after?_eq_some_iff.2 rfl]
  simp only [hlast, hinit]
  rfl

/-! ## Right sides in an assignment -/

/-- What a right side has to be for the store to find its assignment again. Each part excludes one
way to be misread: as two clauses, as a text with a blank to trim, or as the start of the
removals. -/
structure IsSource (cs : List Char) : Prop where
  closed : IsClosed cs
  /-- The last character is not a blank. -/
  hard : ∃ c, cs.getLast? = some c ∧ isBlank c = false
  /-- It is a row of harmless words with blanks between them. -/
  words : ∃ (front : List (List Char)) (last : List Char),
    cs = (front.flatMap fun w => w ++ [' ']) ++ last ∧ (∀ w ∈ front, Harmless w) ∧ Harmless last

theorem isSource_token (htoken : IsPlain token) (hharmless : Harmless token)
    (hhard : ∃ c, token.getLast? = some c ∧ isBlank c = false) : IsSource token :=
  ⟨htoken.isClosed, hhard, [], token, rfl, by simp, hharmless⟩

theorem isSource_calculation {sign : Char} (hsign : sign = '+' ∨ sign = '-')
    (hname : IsPlain name) (hword : Harmless name) (htoken : IsPlain token)
    (hharmless : Harmless token) (hhard : ∃ c, token.getLast? = some c ∧ isBlank c = false) :
    IsSource (name ++ ([' ', sign, ' '] ++ token)) := by
  have hmiddle : IsClosed [' ', sign, ' '] := by
    rcases hsign with rfl | rfl
    · exact isClosed_of_notMem (by decide) (by decide) (by decide)
    · exact isClosed_of_notMem (by decide) (by decide) (by decide)
  have hmark : Harmless [sign] := by
    rcases hsign with rfl | rfl
    · exact harmless_singleton (by decide) (by decide)
    · exact harmless_singleton (by decide) (by decide)
  obtain ⟨c, hlast, hblank⟩ := hhard
  have hne : token ≠ [] := by
    rintro rfl
    cases hlast
  refine ⟨hname.isClosed.append (hmiddle.append htoken.isClosed), ⟨c, ?_, hblank⟩,
    [name, [sign]], token, by simp, ?_, hharmless⟩
  · rw [← List.append_assoc, List.getLast?_append_of_ne_nil _ hne, hlast]
  · intro w hw
    rcases List.mem_pair.1 hw with rfl | rfl
    · exact hword
    · exact hmark

theorem isSource_append (hname : IsPlain name) (htoken : IsPlain token) :
    IsSource ("list_append(".toList ++ (name ++ (", ".toList ++ (token ++ [')'])))) := by
  have hfunction : IsClosed "list_append".toList :=
    isClosed_of_notMem (by decide) (by decide) (by decide)
  have hcall : IsClosed ('(' :: ((name ++ (", ".toList ++ token)) ++ [')'])) := by
    apply isClosed_parenthesized
    · simp [hname.notMem (c := '(') (by decide), htoken.notMem (c := '(') (by decide)]
    · simp [hname.notMem (c := ')') (by decide), htoken.notMem (c := ')') (by decide)]
  have hblank : ' ' ∉ name := hname.notMem (by decide)
  refine ⟨?_, ⟨')', ?_, by decide⟩, ["list_append(".toList ++ name ++ [',']], token ++ [')'], ?_,
    ?_, harmless_append (htoken.notMem (by decide)) (by decide) (by decide)⟩
  · have hclosed := hfunction.append hcall
    simpa using hclosed
  · simp only [← List.append_assoc]
    rw [List.getLast?_append_of_ne_nil _ (by simp)]
    rfl
  · simp
  · intro w hw
    rw [List.mem_singleton.1 hw]
    exact harmless_append (by simp [hblank]) (by decide) (by decide)

/-- A name, an equals sign and a right side. -/
theorem IsSource.isAssignment {source : List Char} (h : IsSource source) (hname : IsPlain name)
    (hhead : name.head? = some '#') (hkeyword : ¬ keyword <:+ name) :
    IsAssignment (name ++ (" = ".toList ++ source)) := by
  obtain ⟨hclosed, ⟨c, hlast, hblank⟩, front, last, hsource, hfront, hend⟩ := h
  have hequals : IsClosed " = ".toList := isClosed_of_notMem (by decide) (by decide) (by decide)
  have hne : source ≠ [] := by
    rintro rfl
    cases hlast
  have htext : name ++ (" = ".toList ++ source) =
      ((name :: ['='] :: front).flatMap fun w => w ++ [' ']) ++ last := by
    rw [hsource]
    simp
  have hwords : Passes (keyword ++ [' '])
      ((name :: ['='] :: front).flatMap fun w => w ++ [' ']) := by
    apply passes_words
    intro w hw
    rcases List.mem_cons.1 hw with rfl | hw
    · exact ⟨hname.notMem (by decide), hkeyword⟩
    rcases List.mem_cons.1 hw with rfl | hw
    · exact harmless_singleton (by decide) (by decide)
    · exact hfront w hw
  have hbehind : ∀ word, Harmless word → Passes (keyword ++ [' '])
      (((name :: ['='] :: front).flatMap fun w => w ++ [' ']) ++ (word ++ [' '])) :=
    fun word hword => hwords.append (passes_word (by decide) hword.1 hword.2)
  refine ⟨hname.isClosed.append (hequals.append hclosed), ⟨'#', c, ?_, ?_, by decide, hblank⟩,
    ?_, ?_⟩
  · rw [List.head?_append, hhead]
    rfl
  · rw [← List.append_assoc, List.getLast?_append_of_ne_nil _ hne, hlast]
  -- a comma behind the last word is part of that word
  · have hcomma := hbehind (last ++ [',']) (harmless_append hend.1 (by decide) (by decide))
    rw [htext]
    simpa only [List.append_assoc, List.singleton_append] using hcomma
  · rw [htext, List.append_assoc]
    exact hbehind last hend

end Memory

/-! ## The text of a clause -/

namespace Clause

variable {schema : Schema} {b : Bindings} {c : Clause}

/-- The assignment of a clause; a removal has none. It is a list of characters, as `split_clauses`
is defined on these. -/
def assignment (c : Clause) : List Char :=
  c.name.toList ++ (" = ".toList ++ (c.action.change.source c.name c.token).toList)

theorem assignment?_of_sends (h : c.action.change.sends = true) :
    c.assignment?.map String.toList = some c.assignment := by
  rw [assignment?, if_pos h, Option.map_some, assignment, String.toList_append,
    String.toList_append, List.append_assoc]

theorem StandsIn.isToken (h : c.StandsIn schema b) : ∀ t ∈ c.tokens, IsToken '#' t := by
  intro t ht
  obtain ⟨i, hi, rfl⟩ := List.getElem_of_mem ht
  have hi' : i < c.action.path.segments.length := by
    rw [← h.names.length_eq]
    exact hi
  exact (List.Forall₂.get h.names hi hi').isToken

theorem StandsIn.isPlain_name (h : c.StandsIn schema b) : IsPlain c.name.toList := by
  intro x hx
  rw [name, dotted, toList_intercalate] at hx
  rcases mem_joinWith hx with hx | ⟨piece, hpiece, hx⟩
  · rw [List.mem_singleton.1 hx]
    decide
  · obtain ⟨t, ht, rfl⟩ := List.mem_map.1 hpiece
    exact isPlain_of_isToken (by decide) (h.isToken t ht) x hx

theorem StandsIn.head?_name (h : c.StandsIn schema b) : c.name.toList.head? = some '#' := by
  obtain ⟨t, ts, hts⟩ := List.exists_cons_of_ne_nil h.tokens_ne_nil
  obtain ⟨word, -, -, htoken⟩ := h.isToken t (by rw [hts]; exact List.mem_cons_self)
  rw [name, dotted, toList_intercalate, hts, List.map_cons, htoken]
  cases ts with
  | nil => rfl
  | cons t' ts => rfl

theorem isPlain_token (c : Clause) : IsPlain c.token.toList :=
  isPlain_of_isToken (by decide) (ValueOrigin.isToken_token _ _)

theorem head?_token (c : Clause) : c.token.toList.head? = some ':' := by
  obtain ⟨word, -, -, htoken⟩ := ValueOrigin.isToken_token (.action c.number) c.action.path
  rw [token, Action.token, htoken]
  rfl

/-- The token of a value ends with a digit of the number of its action. -/
theorem exists_token_eq_append (c : Clause) :
    ∃ cs digit, c.token.toList = cs ++ [digit] ∧ digit.isDigit = true := by
  have hne : Nat.toDigits 10 c.number ≠ [] := Nat.toDigits_ne_nil
  have hdigit : ((Nat.toDigits 10 c.number).getLast hne).isDigit = true :=
    Nat.isDigit_of_mem_toDigits (by omega) (by omega) (List.getLast_mem hne)
  obtain ⟨cs, hcs⟩ : ∃ cs, c.token.toList = cs ++ Nat.toDigits 10 c.number := by
    refine ⟨(':' :: c.action.path.word.toList) ++ ['_', 'u'], ?_⟩
    rw [token, Action.token, ValueOrigin.toList_token]
    simp [ValueOrigin.tail, ValueOrigin.middle]
  rw [← List.dropLast_append_getLast hne, ← List.append_assoc] at hcs
  exact ⟨_, _, hcs, hdigit⟩

theorem harmless_token (c : Clause) : Harmless c.token.toList := by
  obtain ⟨cs, digit, htoken, hdigit⟩ := c.exists_token_eq_append
  refine ⟨c.isPlain_token.notMem (by decide), ?_⟩
  rw [htoken]
  apply not_keyword_suffix_append
  rintro rfl
  cases hdigit

theorem exists_getLast?_token (c : Clause) :
    ∃ digit, c.token.toList.getLast? = some digit ∧ isBlank digit = false := by
  obtain ⟨cs, digit, htoken, -⟩ := c.exists_token_eq_append
  have hmem : digit ∈ c.token.toList := by
    rw [htoken]
    exact List.mem_append_right cs (List.mem_singleton_self digit)
  refine ⟨digit, ?_, isBlank_of_isPlain (c.isPlain_token digit hmem)⟩
  rw [htoken, List.getLast?_append_of_ne_nil cs (List.cons_ne_nil digit [])]
  rfl

/-- **Right sides.** Nothing in the right side of a clause misleads the store. The keyword is
asked about because the name may occur on the right side as well, in a sum or in an append. -/
theorem StandsIn.isSource (h : c.StandsIn schema b) (hsends : c.action.change.sends = true)
    (hkeyword : ¬ keyword <:+ c.name.toList) :
    IsSource (c.action.change.source c.name c.token).toList := by
  have hname := h.isPlain_name
  have hword : Harmless c.name.toList := ⟨hname.notMem (by decide), hkeyword⟩
  cases hchange : c.action.change with
  | set v => exact isSource_token c.isPlain_token c.harmless_token c.exists_getLast?_token
  | increment amount =>
    rw [Change.source, String.toList_append, String.toList_append, List.append_assoc]
    exact isSource_calculation (.inl rfl) hname hword c.isPlain_token c.harmless_token
      c.exists_getLast?_token
  | decrement amount =>
    rw [Change.source, String.toList_append, String.toList_append, List.append_assoc]
    exact isSource_calculation (.inr rfl) hname hword c.isPlain_token c.harmless_token
      c.exists_getLast?_token
  | append values =>
    simp only [Change.source, String.toList_append, List.append_assoc]
    exact isSource_append hname c.isPlain_token
  | remove =>
    rw [hchange] at hsends
    cases hsends

/-- **An assignment is found again** if the name does not end with the keyword. The condition
cannot be left out: a name with the keyword at its end is cut in two. -/
theorem StandsIn.isAssignment (h : c.StandsIn schema b) (hsends : c.action.change.sends = true)
    (hkeyword : ¬ keyword <:+ c.name.toList) : IsAssignment c.assignment :=
  (h.isSource hsends hkeyword).isAssignment h.isPlain_name h.head?_name hkeyword

end Clause

/-! ## The whole expression -/

/-- The clauses that assign, and those that remove. They are separated because the text has all
assignments before all removals, whatever order the actions had. -/
def assigning (cs : List Clause) : List Clause := cs.filter fun c => c.action.change.sends

def removing (cs : List Clause) : List Clause := cs.filter fun c => !c.action.change.sends

theorem map_toList_updateClause (word : String) (parts : List String) :
    (updateClause word parts).map String.toList = part word.toList (parts.map String.toList) := by
  cases parts with
  | nil => rfl
  | cons p parts =>
    rw [updateClause, if_neg (by simp), part_of_ne_nil (by simp), List.map_singleton,
      String.toList_append, String.toList_append, toList_intercalate, List.append_assoc]
    rfl

theorem map_toList_filterMap_assignment? (cs : List Clause) :
    (cs.filterMap Clause.assignment?).map String.toList =
      (assigning cs).map Clause.assignment := by
  induction cs with
  | nil => rfl
  | cons c cs ih =>
    rw [assigning] at ih ⊢
    by_cases hsends : c.action.change.sends = true
    · have htext := Clause.assignment?_of_sends hsends
      obtain ⟨text, hassignment, htext⟩ := Option.map_eq_some_iff.1 htext
      rw [List.filterMap_cons_some hassignment, List.filter_cons, if_pos hsends, List.map_cons,
        List.map_cons, htext, ih]
    · have hnone : c.assignment? = none := by rw [Clause.assignment?, if_neg hsends]
      rw [List.filterMap_cons_none hnone, List.filter_cons, if_neg hsends, ih]

theorem map_toList_filterMap_removal? (cs : List Clause) :
    (cs.filterMap Clause.removal?).map String.toList =
      (removing cs).map fun c => c.name.toList := by
  induction cs with
  | nil => rfl
  | cons c cs ih =>
    rw [removing] at ih ⊢
    by_cases hsends : c.action.change.sends = true
    · have hnone : c.removal? = none := by rw [Clause.removal?, if_pos hsends]
      rw [List.filterMap_cons_none hnone, List.filter_cons, if_neg (by simp [hsends]), ih]
    · have hsome : c.removal? = some c.name := by rw [Clause.removal?, if_neg hsends]
      rw [List.filterMap_cons_some hsome, List.filter_cons,
        if_pos (by simp [hsends]), List.map_cons, List.map_cons, ih]

/-- Carries out a clause. This is one turn of the loops in `apply_update`, with the clause in
place of its text. -/
def Clause.carryOut (b : Bindings) (item : Item) (c : Clause) : Except Fault Item :=
  if c.action.change.sends then assign b item c.assignment else remove b item c.name.toList

namespace Memory

/-- Steps on what was made of other things are steps on these. -/
theorem steps_map {α β : Type} {step : Item → α → Except Fault Item}
    {step' : Item → β → Except Fault Item} {f : β → α} {xs : List β}
    (h : ∀ item, ∀ x ∈ xs, step item (f x) = step' item x) (item : Item) :
    steps step item (xs.map f) = steps step' item xs := by
  induction xs generalizing item with
  | nil => rfl
  | cons x xs ih =>
    rw [List.map_cons, steps, steps, h item x List.mem_cons_self]
    cases step' item x with
    | ok item => exact ih (fun item y hy => h item y (List.mem_cons_of_mem x hy)) item
    | error fault => rfl

/-- What every step keeps is kept also if the last step fails. -/
theorem steps_preserves {α : Type} {step : Item → α → Except Fault Item} {P : Item → Prop}
    {as : List α} (hstep : ∀ item item', ∀ a ∈ as, P item → step item a = .ok item' → P item')
    {item : Item} (h : P item) : P (steps step item as).2 := by
  induction as generalizing item with
  | nil => exact h
  | cons a as ih =>
    rw [steps]
    cases hfirst : step item a with
    | ok item' =>
      exact ih (fun item item' b hb => hstep item item' b (List.mem_cons_of_mem a hb))
        (hstep item item' a List.mem_cons_self h hfirst)
    | error fault => exact h

/-- A form alone is no assignment. -/
theorem assign_of_isPlain {stem : List Char} (h : IsPlain stem) (b : Bindings) (item : Item) :
    assign b item stem = .error (.malformedClause (String.ofList stem)) := by
  have hcut : cut? " = ".toList stem = none :=
    cut?_eq_none_of_notMem (c := ' ') (by decide) (h.notMem (by decide))
  rw [assign, hcut]

end Memory

/-- The first clause whose form ends with the keyword. -/
theorem Clause.exists_first_keyword {cs : List Clause} (h : ∃ c ∈ cs, keyword <:+ c.name.toList) :
    ∃ before c after, cs = before ++ c :: after ∧ keyword <:+ c.name.toList ∧
      ∀ c' ∈ before, ¬ keyword <:+ c'.name.toList := by
  obtain ⟨c, hfind⟩ : ∃ c, cs.find? (fun c => keyword.isSuffixOf c.name.toList) = some c := by
    rw [← Option.isSome_iff_exists, List.find?_isSome]
    obtain ⟨c, hc, hends⟩ := h
    exact ⟨c, hc, List.isSuffixOf_iff_suffix.2 hends⟩
  obtain ⟨hends, before, after, hsplit, hbefore⟩ := List.find?_eq_some_iff_append.1 hfind
  refine ⟨before, c, after, hsplit, List.isSuffixOf_iff_suffix.1 hends, ?_⟩
  intro c' hc' hends'
  have hnot := hbefore c' hc'
  rw [Bool.not_eq_true', List.isSuffixOf_iff_suffix.2 hends'] at hnot
  cases hnot

/-- Clauses that send a value are carried out as assignments. -/
theorem Clause.steps_assign {cs : List Clause} (h : ∀ c ∈ cs, c.action.change.sends = true)
    (b : Bindings) (item : Item) :
    steps (assign b) item (cs.map Clause.assignment) = steps (Clause.carryOut b) item cs := by
  refine steps_map (fun item c hc => ?_) item
  rw [Clause.carryOut, if_pos (h c hc)]

namespace Clause.Write

variable {schema : Schema} {actions : List Action} {update : Compiled} {cs : List Clause}

theorem toList_expression (h : Write schema actions update cs) :
    update.expression.toList = joinWith [' '] (part "SET".toList
      ((assigning cs).map Clause.assignment) ++
        part keyword ((removing cs).map fun c => c.name.toList)) := by
  rw [h.expression, toList_intercalate, List.map_append, map_toList_updateClause,
    map_toList_updateClause, map_toList_filterMap_assignment?, map_toList_filterMap_removal?]
  rfl

theorem removal_names (h : Write schema actions update cs) :
    ∀ n ∈ (removing cs).map fun c => c.name.toList, IsPlain n ∧ n ≠ [] := by
  intro n hn
  obtain ⟨c, hc, rfl⟩ := List.mem_map.1 hn
  have hstands := h.stand c (List.mem_filter.1 hc).1
  refine ⟨hstands.isPlain_name, ?_⟩
  intro hnil
  have hhead := hstands.head?_name
  rw [hnil] at hhead
  cases hhead

/-- **The store does what the clauses say**, the assignments first, if no assigned name ends with
the keyword. The tables may have been added to. It holds with any tables, since both sides look
names and tokens up in the same ones; that these are the right ones is asked where a clause is
carried out. -/
theorem applyUpdate_eq_steps (h : Write schema actions update cs)
    (hkeyword : ∀ c ∈ assigning cs, ¬ keyword <:+ c.name.toList) (b : Bindings) (item : Item) :
    applyUpdate b update.expression item =
      steps (Clause.carryOut b) item (assigning cs ++ removing cs) := by
  have hpieces : ∀ p ∈ (assigning cs).map Clause.assignment, IsAssignment p := by
    intro p hp
    obtain ⟨c, hc, rfl⟩ := List.mem_map.1 hp
    obtain ⟨hmem, hsends⟩ := List.mem_filter.1 hc
    exact (h.stand c hmem).isAssignment hsends (hkeyword c hc)
  have hparts := ofExpression_joined hpieces h.removal_names
  have hsent : ∀ c ∈ assigning cs, c.action.change.sends = true :=
    fun c hc => (List.mem_filter.1 hc).2
  have hremove : ∀ item, steps (remove b) item ((removing cs).map fun c => c.name.toList) =
      steps (Clause.carryOut b) item (removing cs) := by
    apply steps_map
    intro item c hc
    have hsends := (List.mem_filter.1 hc).2
    rw [Bool.not_eq_true', ← Bool.not_eq_true] at hsends
    rw [Clause.carryOut, if_neg hsends]
  rw [applyUpdate, h.toList_expression, hparts, steps_append]
  simp only [Clause.steps_assign hsent, hremove]

/-- **The store does no more than the first clauses say** if an assigned name ends with the
keyword. Then it fails at the first such name. It does not say which clauses these are. That they
are among the clauses of the update is enough for what an update can do to a key. -/
theorem applyUpdate_of_keyword (h : Write schema actions update cs)
    (hkeyword : ∃ c ∈ assigning cs, keyword <:+ c.name.toList) (b : Bindings) (item : Item) :
    ∃ before, before ⊆ cs ∧ ∃ fault, applyUpdate b update.expression item =
      (some fault, (steps (Clause.carryOut b) item before).2) := by
  obtain ⟨before, c, after, hsplit, ⟨stem, hstem⟩, hbefore⟩ := Clause.exists_first_keyword hkeyword
  have hmem : ∀ c' ∈ before ++ c :: after, c' ∈ cs ∧ c'.action.change.sends = true := by
    intro c' hc'
    rw [← hsplit] at hc'
    exact List.mem_filter.1 hc'
  have hc := (hmem c (by simp)).1
  have hplain : IsPlain stem := by
    have hname := (h.stand c hc).isPlain_name
    rw [← hstem] at hname
    exact hname.of_append_left
  have hne : stem ≠ [] := by
    intro hnil
    have hhead := (h.stand c hc).head?_name
    rw [← hstem, hnil] at hhead
    cases hhead
  have htext : c.assignment = stem ++ (keyword ++ ' ' ::
      ('=' :: ' ' :: (c.action.change.source c.name c.token).toList)) := by
    rw [Clause.assignment, ← hstem]
    simp
  have hpieces : ∀ p ∈ before.map Clause.assignment, IsAssignment p := by
    intro p hp
    obtain ⟨c', hc', rfl⟩ := List.mem_map.1 hp
    obtain ⟨hcs, hsends⟩ := hmem c' (List.mem_append_left _ hc')
    exact (h.stand c' hcs).isAssignment hsends (hbefore c' hc')
  have hparts := assignments_of_stem hpieces hplain hne
    ('=' :: ' ' :: (c.action.change.source c.name c.token).toList) (after.map Clause.assignment)
    (part keyword ((removing cs).map fun c => c.name.toList))
  have hsent : ∀ c' ∈ before, c'.action.change.sends = true :=
    fun c' hc' => (hmem c' (List.mem_append_left _ hc')).2
  refine ⟨before, fun c' hc' => (hmem c' (List.mem_append_left _ hc')).1, ?_⟩
  rw [applyUpdate, h.toList_expression, hsplit, List.map_append, List.map_cons, htext, hparts,
    steps_append, Clause.steps_assign hsent]
  cases steps (Clause.carryOut b) item before with
  | mk fault item' =>
    cases fault with
    | some fault => exact ⟨fault, rfl⟩
    | none =>
      simp only [steps, assign_of_isPlain hplain]
      exact ⟨_, rfl⟩

end Clause.Write

end ItemStore
