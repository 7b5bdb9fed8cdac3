import ItemStore.Proofs.Descriptor.Same
import ItemStore.Proofs.Expression.InPlace

/-
The union of tables.

Two pairs of tables are merged if they agree on the tokens that they share, and merging is then
nothing but their union: it does not matter which of them comes first, nor in which order three of
them are put together, and nothing comes of merging a pair with itself.

What has to be watched is that agreement is not transitive. Two tables can agree with a third one
that has no tokens at all and clash with one another. So that three tables go together is put as
the agreement of any two of them, and this is what either way of bracketing comes to
(`consistent_extend_left`, `consistent_extend_right`). For the one way it takes that sameness is
transitive, since the table in the middle may hide a target behind one of its own; for the other
way it takes that sameness is symmetric as well.

A shared token takes its target from the table that is merged in. Its target in the other table is
the same, but where the two are maps their entries may come in different orders. So pairs that are
merged in different orders are the same pair as far as tables can be compared (`Bindings.Same`).
-/
set_option autoImplicit false

namespace ItemStore

open Entries

namespace Bindings

section Tables

variable {α : Type} {same : α → α → Bool} {Good : α → Prop}
  {ours theirs third : List (String × α)} {token : String}

/-! ## Targets that can be compared -/

/-- Among the good targets, to be the same is an equivalence. Reflexivity and symmetry are asked
of good targets only, because a map that repeats a key is not even the same as itself. -/
structure IsSameness (same : α → α → Bool) (Good : α → Prop) : Prop where
  refl : ∀ {a}, Good a → same a a = true
  symm : ∀ {a b}, Good a → same a b = true → same b a = true
  trans : ∀ {a b c}, same a b = true → same b c = true → same a c = true

theorem isSameness_eq : IsSameness (fun a b : String => decide (a = b)) fun _ => True := by
  constructor
  · exact fun _ => decide_eq_true rfl
  · exact fun _ h => decide_eq_true (of_decide_eq_true h).symm
  · exact fun h h' => decide_eq_true ((of_decide_eq_true h).trans (of_decide_eq_true h'))

theorem isSameness_same : IsSameness Descriptor.same fun d => d.distinctKeys = true :=
  ⟨Descriptor.same_refl, Descriptor.same_symm, Descriptor.same_trans⟩

/-- The table is in the order of its tokens, and its targets are good. -/
structure WellFilled (Good : α → Prop) (table : List (String × α)) : Prop where
  ascending : Ascending table
  good : ∀ e ∈ table, Good e.2

theorem WellFilled.good_of_get? (h : WellFilled Good ours) {a : α}
    (ha : get? token ours = some a) : Good a := h.good (token, a) (mem_of_get? ha)

theorem WellFilled.bindIn {table' : List (String × α)} {target : α} (h : WellFilled Good ours)
    (htarget : Good target) (hbind : bindIn same token target ours = .ok table') :
    WellFilled Good table' := by
  refine ⟨ascending_bindIn h.ascending hbind, ?_⟩
  rcases bindIn_eq_ok hbind with ⟨-, -, -, rfl⟩ | ⟨-, rfl⟩
  · exact h.good
  · rintro ⟨token', a⟩ hmem
    have hget := get?_of_mem (Ascending.insertSorted h.ascending).nodup hmem
    rw [get?_insertSorted] at hget
    split at hget
    · cases hget
      exact htarget
    · exact h.good_of_get? hget

/-! ## Clashes -/

/-- The token stands for different things in the two tables. -/
def Differs (same : α → α → Bool) (ours theirs : List (String × α)) (token : String) : Prop :=
  ∃ bound target, get? token ours = some bound ∧ get? token theirs = some target ∧
    same bound target = false

theorem consistent_iff_forall_not_differs :
    Consistent same ours theirs ↔ ∀ token, ¬ Differs same ours theirs token := by
  constructor
  · rintro h token ⟨bound, target, hbound, htarget, hsame⟩
    rw [h token bound target hbound htarget] at hsame
    cases hsame
  · intro h token bound target hbound htarget
    by_contra hsame
    exact h token ⟨bound, target, hbound, htarget, Bool.eq_false_iff.2 hsame⟩

/-- The first token in ascending order that stands for different things. -/
structure FirstClash (same : α → α → Bool) (ours theirs : List (String × α))
    (token : String) : Prop where
  differs : Differs same ours theirs token
  earliest : ∀ token' < token, ¬ Differs same ours theirs token'

theorem FirstClash.token_eq {token' : String} (h : FirstClash same ours theirs token)
    (h' : FirstClash same ours theirs token') : token = token' := by
  rcases lt_trichotomy token token' with hlt | heq | hgt
  · exact absurd h.differs (h'.earliest token hlt)
  · exact heq
  · exact absurd h'.differs (h.earliest token' hgt)

/-- The tokens of the second table are gone through in ascending order. -/
theorem firstClash_of_clash?_eq_some (htheirs : Ascending theirs)
    (h : clash? same ours theirs = some token) : FirstClash same ours theirs token := by
  refine ⟨exists_of_clash?_eq_some htheirs h, ?_⟩
  rintro token' hlt ⟨bound, target, hbound, htarget, hsame⟩
  obtain ⟨before, ⟨t, a⟩, after, rfl, hclash, hbefore⟩ := List.findSome?_eq_some_iff.1 h
  have ht : t = token := by
    dsimp only at hclash
    split at hclash
    · split at hclash
      · cases hclash
      · exact Option.some.inj hclash
    · cases hclash
  subst ht
  have hmem : (token', target) ∈ before := by
    rw [Ascending, keys, List.map_append, List.map_cons, List.pairwise_append] at htheirs
    obtain ⟨-, hrest, -⟩ := htheirs
    rcases List.mem_append.1 (mem_of_get? htarget) with hmem | hmem
    · exact hmem
    -- what comes at the clash or behind it has no smaller token
    · exfalso
      rcases List.mem_cons.1 hmem with he | hmem
      · cases he
        exact lt_irrefl _ hlt
      · have hgt := (List.pairwise_cons.1 hrest).1 token' (List.mem_map.2 ⟨_, hmem, rfl⟩)
        exact lt_asymm hlt hgt
  have hnone := hbefore _ hmem
  dsimp only at hnone
  rw [hbound] at hnone
  simp [hsame] at hnone

theorem clash?_eq_some_iff (htheirs : Ascending theirs) :
    clash? same ours theirs = some token ↔ FirstClash same ours theirs token := by
  constructor
  · exact firstClash_of_clash?_eq_some htheirs
  · intro h
    cases hclash : clash? same ours theirs with
    | none =>
      have hnone := consistent_iff_forall_not_differs.1 ((clash?_eq_none_iff htheirs).1 hclash)
      exact absurd h.differs (hnone token)
    | some token' => rw [h.token_eq (firstClash_of_clash?_eq_some htheirs hclash)]

/-! ## The union of two tables -/

theorem Consistent.symm (hsame : IsSameness same Good) (hours : WellFilled Good ours)
    (h : Consistent same ours theirs) : Consistent same theirs ours := by
  intro token target bound htarget hbound
  exact hsame.symm (hours.good_of_get? hbound) (h token bound target hbound htarget)

theorem WellFilled.extend (hours : WellFilled Good ours) (htheirs : WellFilled Good theirs) :
    WellFilled Good (extend ours theirs) := by
  have hascending : Ascending (Bindings.extend ours theirs) := ascending_extend hours.ascending
  refine ⟨hascending, ?_⟩
  rintro ⟨token, target⟩ hmem
  have hget := get?_of_mem hascending.nodup hmem
  rw [get?_extend htheirs.ascending, Option.or_eq_some_iff] at hget
  rcases hget with htarget | ⟨-, hbound⟩
  · exact htheirs.good_of_get? htarget
  · exact hours.good_of_get? hbound

/-- The table has every token of either table and no others. A token that both have stands for its
target in the second table, which is the same as that in the first. The second table gives the
target, since it is the one that writes. -/
structure Unites (same : α → α → Bool) (ours theirs table : List (String × α)) : Prop where
  first : ∀ token bound, get? token ours = some bound →
    ∃ target, get? token table = some target ∧ same bound target = true
  second : ∀ token target, get? token theirs = some target → get? token table = some target
  only : ∀ token target, get? token table = some target →
    get? token ours = some target ∨ get? token theirs = some target

theorem unites_extend (hsame : IsSameness same Good) (hours : WellFilled Good ours)
    (htheirs : Ascending theirs) (h : Consistent same ours theirs) :
    Unites same ours theirs (extend ours theirs) := by
  constructor
  · intro token bound hbound
    rw [get?_extend htheirs]
    cases htarget : get? token theirs with
    | none => exact ⟨bound, hbound, hsame.refl (hours.good_of_get? hbound)⟩
    | some target => exact ⟨target, rfl, h token bound target hbound htarget⟩
  · intro token target htarget
    rw [get?_extend htheirs, htarget, Option.some_or]
  · intro token target hget
    rw [get?_extend htheirs, Option.or_eq_some_iff] at hget
    rcases hget with htarget | ⟨-, hbound⟩
    · exact .inr htarget
    · exact .inl hbound

/-- Tables that are equal, the order of the entries of maps aside. -/
def SameTable (same : α → α → Bool) (table table' : List (String × α)) : Prop :=
  List.Forall₂ (fun e e' => e.1 = e'.1 ∧ same e.2 e'.2 = true) table table'

theorem sameTable_extend_comm (hsame : IsSameness same Good) (hours : WellFilled Good ours)
    (htheirs : WellFilled Good theirs) (h : Consistent same ours theirs) :
    SameTable same (extend ours theirs) (extend theirs ours) := by
  have hleft : Ascending (extend ours theirs) := ascending_extend hours.ascending
  have hright : Ascending (extend theirs ours) := ascending_extend htheirs.ascending
  have hkeys : keys (extend ours theirs) = keys (extend theirs ours) := by
    refine hleft.keys_eq hright fun token => ?_
    simp only [mem_keys_iff, get?_extend hours.ascending, get?_extend htheirs.ascending,
      Option.or_eq_some_iff]
    cases get? token ours <;> cases get? token theirs <;> simp
  refine forall₂_of_keys_eq (R := fun a b => same a b = true) hleft.nodup hkeys
    fun token a b ha hb => ?_
  rw [get?_extend htheirs.ascending] at ha
  rw [get?_extend hours.ascending] at hb
  cases hbound : get? token ours with
  | none =>
    -- both tables have the target from `theirs`
    rw [hbound, Option.or_none] at ha
    rw [hbound, Option.none_or, ha] at hb
    cases hb
    exact hsame.refl (htheirs.good_of_get? ha)
  | some bound =>
    rw [hbound, Option.some_or] at hb
    cases hb
    rw [hbound] at ha
    cases htarget : get? token theirs with
    | none =>
      rw [htarget, Option.none_or] at ha
      cases ha
      exact hsame.refl (hours.good_of_get? hbound)
    | some target =>
      rw [htarget, Option.some_or] at ha
      cases ha
      exact hsame.symm (hours.good_of_get? hbound) (h token _ _ hbound htarget)

theorem extend_self (hours : Ascending ours) : extend ours ours = ours := by
  refine (ascending_extend hours).ext hours fun token => ?_
  rw [get?_extend hours, Option.or_self]

/-- The last table wins, and the one in the middle wins over the first. -/
theorem extend_assoc (hours : Ascending ours) (htheirs : Ascending theirs)
    (hthird : Ascending third) :
    extend (extend ours theirs) third = extend ours (extend theirs third) := by
  have hmiddle : Ascending (extend theirs third) := ascending_extend htheirs
  refine (ascending_extend (ascending_extend hours)).ext (ascending_extend hours) fun token => ?_
  rw [get?_extend hthird, get?_extend htheirs, get?_extend hmiddle, get?_extend hthird,
    Option.or_assoc]

/-- Something is consistent with a union if it is consistent with both tables. Where the second
table hides a target of the first one, the two are the same. -/
theorem consistent_extend_left (hsame : IsSameness same Good) (htheirs : Ascending theirs)
    (h : Consistent same ours theirs) (third : List (String × α)) :
    Consistent same (extend ours theirs) third ↔
      Consistent same ours third ∧ Consistent same theirs third := by
  constructor
  · intro hunion
    constructor
    · intro token bound last hbound hlast
      cases htarget : get? token theirs with
      | none =>
        refine hunion token bound last ?_ hlast
        rw [get?_extend htheirs, htarget, Option.none_or, hbound]
      | some target =>
        have hmiddle : same target last = true := by
          refine hunion token target last ?_ hlast
          rw [get?_extend htheirs, htarget, Option.some_or]
        exact hsame.trans (h token bound target hbound htarget) hmiddle
    · intro token target last htarget hlast
      refine hunion token target last ?_ hlast
      rw [get?_extend htheirs, htarget, Option.some_or]
  · rintro ⟨hfirst, hsecond⟩ token target last htarget hlast
    rw [get?_extend htheirs, Option.or_eq_some_iff] at htarget
    rcases htarget with htarget | ⟨-, hbound⟩
    · exact hsecond token target last htarget hlast
    · exact hfirst token target last hbound hlast

/-- So it is on the other side, where the targets have to be turned round. -/
theorem consistent_extend_right (hsame : IsSameness same Good) (hours : WellFilled Good ours)
    (htheirs : WellFilled Good theirs) (hthird : WellFilled Good third)
    (h : Consistent same theirs third) : Consistent same ours (extend theirs third) ↔
      Consistent same ours theirs ∧ Consistent same ours third := by
  have hturn : ∀ {table : List (String × α)}, WellFilled Good table →
      (Consistent same ours table ↔ Consistent same table ours) := fun htable =>
    ⟨fun h => h.symm hsame hours, fun h => h.symm hsame htable⟩
  rw [hturn (htheirs.extend hthird), hturn htheirs, hturn hthird]
  exact consistent_extend_left hsame hthird.ascending h ours

end Tables

/-! ## Pairs of tables -/

/-- What holds of all tables that are ever filled: they are in the order of their tokens, and no
map in a value has a key twice. `proper_ofPairs` says how tables come to have it. -/
structure Proper (b : Bindings) : Prop where
  names : WellFilled (fun _ => True) b.names
  values : WellFilled (fun d => d.distinctKeys = true) b.values

/-- Whatever token is in both, it stands for the same in both. It is what `check_disjoint` looks
for, said without an order. -/
structure Agrees (a b : Bindings) : Prop where
  names : Consistent (· = ·) a.names b.names
  values : Consistent Descriptor.same a.values b.values

/-- Both tables together. -/
def union (a b : Bindings) : Bindings :=
  { names := extend a.names b.names, values := extend a.values b.values }

/-- The tables are the same, the order of the entries of maps aside. -/
structure Same (a b : Bindings) : Prop where
  names : a.names = b.names
  values : SameTable Descriptor.same a.values b.values

/-- The token that two pairs of tables first differ in; names come before values. -/
inductive FirstConflict (a b : Bindings) (token : String) : Prop where
  | names (h : FirstClash (· = ·) a.names b.names token)
  | values (hnames : Consistent (· = ·) a.names b.names)
      (h : FirstClash Descriptor.same a.values b.values token)

variable {a b c d : Bindings}

theorem Proper.sorted (h : a.Proper) : a.Sorted := ⟨h.names.ascending, h.values.ascending⟩

theorem proper_empty : empty.Proper :=
  ⟨⟨ascending_nil, fun _ he => absurd he List.not_mem_nil⟩,
    ⟨ascending_nil, fun _ he => absurd he List.not_mem_nil⟩⟩

theorem Proper.bindName {token name : String} (ha : a.Proper)
    (h : a.bindName token name = .ok b) : b.Proper := by
  obtain ⟨names, hnames, rfl⟩ := map_eq_ok.1 h
  exact ⟨ha.names.bindIn trivial hnames, ha.values⟩

theorem Proper.bindValue {token : String} {value : Descriptor} (ha : a.Proper)
    (hvalue : value.distinctKeys = true) (h : a.bindValue token value = .ok b) : b.Proper := by
  obtain ⟨values, hvalues, rfl⟩ := map_eq_ok.1 h
  exact ⟨ha.names, ha.values.bindIn hvalue hvalues⟩

/-- Tables that are filled pair by pair are proper if the values are. -/
theorem proper_ofPairs {names : List (String × String)} {values : List (String × Descriptor)}
    (hvalues : ∀ e ∈ values, e.2.distinctKeys = true) (h : ofPairs names values = .ok b) :
    b.Proper := by
  obtain ⟨a, hnames, hfill⟩ := bind_eq_ok.1 h
  have ha : a.Proper := foldlM_keeps (fun _ hb hbind => hb.bindName hbind) proper_empty hnames
  exact foldlM_keeps (fun he hb hbind => hb.bindValue (hvalues _ he) hbind) ha hfill

theorem Proper.union (ha : a.Proper) (hb : b.Proper) : (a.union b).Proper :=
  ⟨ha.names.extend hb.names, ha.values.extend hb.values⟩

theorem Agrees.symm (ha : a.Proper) (h : a.Agrees b) : b.Agrees a :=
  ⟨h.names.symm isSameness_eq ha.names, h.values.symm isSameness_same ha.values⟩

theorem Agrees.refl (ha : a.Proper) : a.Agrees a := by
  constructor
  · intro token name name' hname hname'
    rw [hname] at hname'
    cases hname'
    exact decide_eq_true rfl
  · intro token value value' hvalue hvalue'
    rw [hvalue] at hvalue'
    cases hvalue'
    exact Descriptor.same_refl (ha.values.good_of_get? hvalue)

theorem agrees_union_left (hb : b.Sorted) (h : a.Agrees b) :
    (a.union b).Agrees c ↔ a.Agrees c ∧ b.Agrees c := by
  have hnames := consistent_extend_left isSameness_eq hb.names h.names c.names
  have hvalues := consistent_extend_left isSameness_same hb.values h.values c.values
  constructor
  · rintro ⟨hn, hv⟩
    exact ⟨⟨(hnames.1 hn).1, (hvalues.1 hv).1⟩, ⟨(hnames.1 hn).2, (hvalues.1 hv).2⟩⟩
  · rintro ⟨hfirst, hsecond⟩
    exact ⟨hnames.2 ⟨hfirst.names, hsecond.names⟩, hvalues.2 ⟨hfirst.values, hsecond.values⟩⟩

theorem agrees_union_right (ha : a.Proper) (hb : b.Proper) (hc : c.Proper) (h : b.Agrees c) :
    a.Agrees (b.union c) ↔ a.Agrees b ∧ a.Agrees c := by
  have hnames := consistent_extend_right isSameness_eq ha.names hb.names hc.names h.names
  have hvalues :=
    consistent_extend_right isSameness_same ha.values hb.values hc.values h.values
  constructor
  · rintro ⟨hn, hv⟩
    exact ⟨⟨(hnames.1 hn).1, (hvalues.1 hv).1⟩, ⟨(hnames.1 hn).2, (hvalues.1 hv).2⟩⟩
  · rintro ⟨hfirst, hsecond⟩
    exact ⟨hnames.2 ⟨hfirst.names, hsecond.names⟩, hvalues.2 ⟨hfirst.values, hsecond.values⟩⟩

theorem union_assoc (ha : a.Sorted) (hb : b.Sorted) (hc : c.Sorted) :
    (a.union b).union c = a.union (b.union c) := by
  rw [union, union, union, union, extend_assoc ha.names hb.names hc.names,
    extend_assoc ha.values hb.values hc.values]

theorem same_union_comm (ha : a.Proper) (hb : b.Proper) (h : a.Agrees b) :
    (a.union b).Same (b.union a) := by
  refine ⟨?_, sameTable_extend_comm isSameness_same ha.values hb.values h.values⟩
  have hnames := sameTable_extend_comm isSameness_eq ha.names hb.names h.names
  exact List.forall₂_eq_eq_eq ▸ hnames.imp fun _ _ he => Prod.ext he.1 (of_decide_eq_true he.2)

/-! ## Merging -/

theorem merge_eq_ok_iff (hb : b.Sorted) :
    a.merge b = .ok d ↔ a.Agrees b ∧ d = a.union b := by
  have hagrees : (∃ d, a.merge b = .ok d) ↔ a.Agrees b :=
    (exists_merge_iff hb).trans ⟨fun h => ⟨h.1, h.2⟩, fun h => ⟨h.names, h.values⟩⟩
  have hresult : ∀ {d}, a.merge b = .ok d → d = a.union b := by
    intro d h
    unfold merge at h
    split at h
    · cases h
    · split at h
      · cases h
      · exact (Except.ok.inj h).symm
  constructor
  · intro h
    exact ⟨hagrees.1 ⟨d, h⟩, hresult h⟩
  · rintro ⟨h, rfl⟩
    obtain ⟨d, hd⟩ := hagrees.2 h
    rw [hd, hresult hd]

theorem merge_eq_error_iff (hb : b.Sorted) {e : Error} : a.merge b = .error e ↔
    ∃ token, a.FirstConflict b token ∧ e = .placeholderConflict token := by
  constructor
  · intro h
    unfold merge at h
    split at h
    · next token htoken =>
      cases h
      exact ⟨token, .names ((clash?_eq_some_iff hb.names).1 htoken), rfl⟩
    · next hnames =>
      split at h
      · next token htoken =>
        cases h
        refine ⟨token, .values ((clash?_eq_none_iff hb.names).1 hnames) ?_, rfl⟩
        exact (clash?_eq_some_iff hb.values).1 htoken
      · cases h
  · rintro ⟨token, hconflict, rfl⟩
    rw [merge]
    cases hconflict with
    | names h => rw [(clash?_eq_some_iff hb.names).2 h]
    | values hnames h =>
      rw [(clash?_eq_none_iff hb.names).2 hnames, (clash?_eq_some_iff hb.values).2 h]

/-- Three pairs of tables go together, in either way, if any two of them agree. -/
theorem merge_assoc (ha : a.Proper) (hb : b.Proper) (hc : c.Proper) :
    (a.merge b >>= fun ab => ab.merge c) = .ok d ↔
      (b.merge c >>= fun bc => a.merge bc) = .ok d := by
  have hleft : (a.merge b >>= fun ab => ab.merge c) = .ok d ↔
      (a.Agrees b ∧ a.Agrees c ∧ b.Agrees c) ∧ d = (a.union b).union c := by
    simp only [bind_eq_ok, merge_eq_ok_iff hb.sorted, merge_eq_ok_iff hc.sorted]
    constructor
    · rintro ⟨_, ⟨hab, rfl⟩, hunion, rfl⟩
      exact ⟨⟨hab, (agrees_union_left hb.sorted hab).1 hunion⟩, rfl⟩
    · rintro ⟨⟨hab, hrest⟩, rfl⟩
      exact ⟨_, ⟨hab, rfl⟩, (agrees_union_left hb.sorted hab).2 hrest, rfl⟩
  have hright : (b.merge c >>= fun bc => a.merge bc) = .ok d ↔
      (a.Agrees b ∧ a.Agrees c ∧ b.Agrees c) ∧ d = a.union (b.union c) := by
    simp only [bind_eq_ok, merge_eq_ok_iff hc.sorted]
    constructor
    · rintro ⟨_, ⟨hbc, rfl⟩, hmerge⟩
      obtain ⟨hunion, rfl⟩ := (merge_eq_ok_iff (hb.union hc).sorted).1 hmerge
      obtain ⟨hab, hac⟩ := (agrees_union_right ha hb hc hbc).1 hunion
      exact ⟨⟨hab, hac, hbc⟩, rfl⟩
    · rintro ⟨⟨hab, hac, hbc⟩, rfl⟩
      refine ⟨_, ⟨hbc, rfl⟩, (merge_eq_ok_iff (hb.union hc).sorted).2 ⟨?_, rfl⟩⟩
      exact (agrees_union_right ha hb hc hbc).2 ⟨hab, hac⟩
  rw [hleft, hright, union_assoc ha.sorted hb.sorted hc.sorted]

theorem merge_comm (ha : a.Proper) (hb : b.Proper) :
    Agree Same (a.merge b) (b.merge a) := by
  have hfollows : ∀ {a b : Bindings}, a.Proper → b.Proper →
      Follows Same (a.merge b) (b.merge a) := by
    intro a b ha hb d hd
    obtain ⟨hagrees, rfl⟩ := (merge_eq_ok_iff hb.sorted).1 hd
    refine ⟨b.union a, (merge_eq_ok_iff ha.sorted).2 ⟨hagrees.symm ha, rfl⟩, ?_⟩
    exact same_union_comm ha hb hagrees
  exact (hfollows ha hb).agree (hfollows hb ha)

/-- The tables hold what either pair of tables holds, and nothing else. -/
structure IsUnion (a b d : Bindings) : Prop where
  names : Unites (· = ·) a.names b.names d.names
  values : Unites Descriptor.same a.values b.values d.values

theorem isUnion_of_merge (ha : a.Proper) (hb : b.Proper) (h : a.merge b = .ok d) :
    a.IsUnion b d := by
  obtain ⟨hagrees, rfl⟩ := (merge_eq_ok_iff hb.sorted).1 h
  exact ⟨unites_extend isSameness_eq ha.names hb.names.ascending hagrees.names,
    unites_extend isSameness_same ha.values hb.values.ascending hagrees.values⟩

end Bindings

/-- Merging in place either takes place or leaves the tables as they are. -/
theorem InPlace.run_merge {a b : Bindings} (ha : a.Sorted) : run (merge b) a =
    match a.merge b with
    | .ok d => (.ok (), d)
    | .error e => (.error e, a) := by
  rw [(commits_merge b).run_eq ha]
  cases a.merge b <;> rfl

/-- **Merging is a union of tables.** It succeeds exactly for tables that agree on every token
they share, so in either order or in none, and then with the same result, which has each token of
either pair with its own target. Of three pairs of tables any two can be merged first, with equal
success and an equal result. Merged with themselves tables stay as they are. Where there is a
conflict it is over the first token that stands for different things, a name if there is one, and
the tables that were merged into are left alone. Equality of results is up to the order of entries
in maps where the two sides merge in different orders, and plain elsewhere. All three pairs of
tables have to be proper because each of them is merged into another one in some part of the
statement; every table that was filled by binding is (`proper_ofPairs`). -/
theorem Bindings.merges_as_union {a b c : Bindings} (ha : a.Proper) (hb : b.Proper)
    (hc : c.Proper) :
    ((∃ d, a.merge b = .ok d) ↔ a.Agrees b) ∧
    Agree Same (a.merge b) (b.merge a) ∧
    (∀ d, a.merge b = .ok d → a.IsUnion b d) ∧
    (∀ d, (a.merge b >>= fun ab => ab.merge c) = .ok d ↔
      (b.merge c >>= fun bc => a.merge bc) = .ok d) ∧
    a.merge a = .ok a ∧
    (∀ e, a.merge b = .error e ↔
      ∃ token, a.FirstConflict b token ∧ e = .placeholderConflict token) ∧
    InPlace.run (InPlace.merge b) a =
      match a.merge b with
      | .ok d => (.ok (), d)
      | .error e => (.error e, a) := by
  refine ⟨?_, merge_comm ha hb, ?_, ?_, ?_, ?_, InPlace.run_merge ha.sorted⟩
  · constructor
    · rintro ⟨d, hd⟩
      exact ((merge_eq_ok_iff hb.sorted).1 hd).1
    · intro h
      exact ⟨a.union b, (merge_eq_ok_iff hb.sorted).2 ⟨h, rfl⟩⟩
  · intro d hd
    exact isUnion_of_merge ha hb hd
  · intro d
    exact merge_assoc ha hb hc
  · rw [merge_eq_ok_iff ha.sorted, union, extend_self ha.names.ascending,
      extend_self ha.values.ascending]
    exact ⟨.refl ha, rfl⟩
  · intro e
    exact merge_eq_error_iff hb.sorted

/-- A home, with the city before the zip code. -/
def Shop.homeTables : Bindings :=
  { names := [("#city", "city")],
    values := [(":home", .map [("city", .string "Rome"), ("zip", .string "00100")])] }

/-- The same home, with the zip code first, and a total. -/
def Shop.turnedTables : Bindings :=
  { names := [("#city", "city"), ("#zip", "zip")],
    values := [(":home", .map [("zip", .string "00100"), ("city", .string "Rome")]),
      (":total", .number "1")] }

/-- Tables that share no token with the first ones, and two with the second ones, by which they
mean something else. -/
def Shop.codeTables : Bindings :=
  { names := [("#zip", "code")], values := [(":total", .number "2")] }

/-- The home can be merged in either order. The codes could be merged with the first tables but
clash with the second ones, over a name and a value, and the name is what is told. -/
theorem Shop.homes_merge_as_union :
    homeTables.Proper ∧ turnedTables.Proper ∧ codeTables.Proper ∧
    (∃ d d', homeTables.merge turnedTables = .ok d ∧ turnedTables.merge homeTables = .ok d' ∧
      homeTables.IsUnion turnedTables d ∧ d.Same d') ∧
    (∃ d, homeTables.merge codeTables = .ok d) ∧
    InPlace.run (InPlace.merge codeTables) turnedTables =
      (.error (.placeholderConflict "#zip"), turnedTables) := by
  have hhome : Bindings.ofPairs homeTables.names homeTables.values = .ok homeTables := by rfl
  have hturned : Bindings.ofPairs turnedTables.names turnedTables.values = .ok turnedTables := by
    rfl
  have hcode : Bindings.ofPairs codeTables.names codeTables.values = .ok codeTables := by rfl
  replace hhome : homeTables.Proper := Bindings.proper_ofPairs (by decide) hhome
  replace hturned : turnedTables.Proper := Bindings.proper_ofPairs (by decide) hturned
  replace hcode : codeTables.Proper := Bindings.proper_ofPairs (by decide) hcode
  have hfirst := Bindings.merges_as_union hhome hturned hcode
  have hsecond := Bindings.merges_as_union hturned hcode hhome
  refine ⟨hhome, hturned, hcode, ?_, ⟨_, rfl⟩, ?_⟩
  · have hok : (homeTables.merge turnedTables).toOption.map (fun d => d.names.length) = some 2 := by
      decide +kernel
    obtain ⟨d, hd, -⟩ := exists_ok_of_toOption_map hok
    obtain ⟨d', hd', hsame⟩ := hfirst.2.1.1 d hd
    exact ⟨d, d', hd, hd', hfirst.2.2.1 d hd, hsame⟩
  · have hclash : Bindings.clash? (· = ·) turnedTables.names codeTables.names = some "#zip" := by
      decide +kernel
    rw [hsecond.2.2.2.2.2.2, Bindings.merge, hclash]

end ItemStore
