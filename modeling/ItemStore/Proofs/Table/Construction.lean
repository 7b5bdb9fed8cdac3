import ItemStore.Proofs.Schema.Combined

/-
Which tables can be declared.

A table is built in three loops, each of which stops at its first fault: over the entities, over the
indexes, which are tables themselves, and over the fields of all entities, which are combined. What
can be built is said without them (`IsSound`): names are not repeated, the fields of every entity
build, and what two entities declare under one name is declared alike. What comes of it is said
without them too (`outline`): every entity becomes a map of its fields, and the combined schema has
each name once, where it was declared first and as it was declared there.

Combining compares a field only with the one that was kept, the first of its name. That any two
fields of one name are declared alike follows because being declared alike is symmetric and carries
over, and then the order of the entities does not matter: it decides which of several fields is
kept, and these are all alike.

The loops are those of `build` for a table and of `combine` for its fields.
-/
set_option autoImplicit false

namespace ItemStore

open Entries

/-! ## Declarations -/

namespace TableDeclaration

/-- A property of declarations holds of all of them if a table has it as soon as its indexes do. -/
theorem induction {P : TableDeclaration → Prop}
    (mk : ∀ entities indexes, (∀ e ∈ indexes, P e.2) → P (.mk entities indexes))
    (d : TableDeclaration) : P d := by
  refine @TableDeclaration.rec P (fun indexes => ∀ e ∈ indexes, P e.2) (fun e => P e.2) mk
    ?_ ?_ ?_ d
  · intro e he
    cases he
  · intro e indexes he hindexes e' he'
    rcases List.mem_cons.1 he' with rfl | he'
    · exact he
    · exact hindexes e' he'
  · exact fun _ _ h => h

/-- The fields of all entities, in order. Names may come several times here, once for each entity
that has the field. -/
def declaredFields : TableDeclaration → List (String × Schema)
  | .mk entities _ => entities.flatMap Prod.snd

/-- What can be built: at every level names are not repeated, the fields of every entity build,
and fields of one name are declared alike. The fields of an index are not compared with those of
the table around it. -/
inductive IsSound : TableDeclaration → Prop where
  | mk {entities : List (String × List (String × Schema))}
      {indexes : List (String × TableDeclaration)}
      (entityNames : (keys entities).Nodup) (indexNames : (keys indexes).Nodup)
      (builds : ∀ e ∈ entities, ∃ s, (Schema.map .none e.2).validate = .ok s)
      (alike : ∀ e ∈ entities, ∀ e' ∈ entities, ∀ f ∈ e.2, ∀ f' ∈ e'.2, f.1 = f'.1 →
        Schema.Alike f.2 f'.2)
      (inside : ∀ e ∈ indexes, e.2.IsSound) : IsSound (.mk entities indexes)

mutual

/-- The table of a declaration, whether it can be built or not. It keeps the first declaration of
every name, so it is a table of some kind even where entities disagree. -/
def outline : TableDeclaration → TableSchema
  | .mk entities indexes =>
    .mk (entities.map fun e => (e.1, .map .none e.2)) (outlineAll indexes)
      (.map .none (firsts (entities.flatMap Prod.snd)))

/-- The tables of some indexes. It is here for the sake of the recursion through the list of
indexes. -/
def outlineAll : List (String × TableDeclaration) → List (String × TableSchema)
  | [] => []
  | (name, index) :: indexes => (name, index.outline) :: outlineAll indexes

end

mutual

/-- The second declaration is the first one with its entities, and those of its indexes, in
another order. Names of entities go with them; the order of the indexes is left alone. -/
def Rearranges : TableDeclaration → TableDeclaration → Prop
  | .mk entities indexes, .mk entities' indexes' =>
    entities.Perm entities' ∧ RearrangesAll indexes indexes'

/-- Indexes with the same names, rearranged one by one. The lists have to be of the same length. -/
def RearrangesAll :
    List (String × TableDeclaration) → List (String × TableDeclaration) → Prop
  | [], [] => True
  | (name, index) :: indexes, (name', index') :: indexes' =>
    name = name' ∧ index.Rearranges index' ∧ RearrangesAll indexes indexes'
  | _, _ => False

end

end TableDeclaration

/-! ## Indexes -/

theorem outlineAll_eq (indexes : List (String × TableDeclaration)) :
    TableDeclaration.outlineAll indexes = indexes.map fun e => (e.1, e.2.outline) := by
  induction indexes with
  | nil => rfl
  | cons e indexes ih => rw [TableDeclaration.outlineAll, ih, List.map_cons]

theorem buildIndexes_eq_ok_iff {declared : List (String × TableDeclaration)}
    (hdeclared : ∀ e ∈ declared, ∀ t, e.2.build = .ok t ↔ e.2.IsSound ∧ t = e.2.outline)
    {indexes : List (String × TableSchema)} : buildIndexes [] declared = .ok indexes ↔
      (keys declared).Nodup ∧ (∀ e ∈ declared, e.2.IsSound) ∧
        indexes = TableDeclaration.outlineAll declared := by
  have hnil : ∀ seen, buildIndexes seen [] = .ok [] := fun _ => by rw [buildIndexes]
  have hcons : ∀ seen name d rest, buildIndexes seen ((name, d) :: rest) =
      if name ∈ seen then .error (.duplicateFieldName name)
      else d.build >>= fun first => buildIndexes (name :: seen) rest >>= fun built =>
        .ok ((name, first) :: built) := by
    intro seen name d rest
    rw [buildIndexes]
    split <;> rfl
  rw [eq_ok_iff_of_named hnil hcons hdeclared, outlineAll_eq]
  simp

/-! ## Combining -/

theorem combineFields_append (before front back : List (String × Schema)) :
    combineFields before (front ++ back) =
      combineFields before front >>= fun between => combineFields between back := by
  induction front generalizing before with
  | nil => rfl
  | cons f front ih =>
    obtain ⟨name, node⟩ := f
    rw [List.cons_append, combineFields, combineFields]
    split
    · split
      · exact ih before
      · rfl
    · exact ih _

/-- The fields of all entities are combined as if they were those of one. -/
theorem combineAll_eq (declared : List (String × List (String × Schema)))
    (before : List (String × Schema)) :
    combineAll before (declared.map fun e => (e.1, .map .none e.2)) =
      combineFields before (declared.flatMap Prod.snd) := by
  induction declared generalizing before with
  | nil => rfl
  | cons e declared ih =>
    rw [List.flatMap_cons, combineFields_append, List.map_cons, combineAll]
    simp only [ih]
    rfl

/-- **Combining.** It succeeds where every field is declared alike the first one of its name, and
these are what is kept. It begins with fields that are there already, as the induction over the
entities needs it. -/
theorem combineFields_eq_ok_iff {done fields after : List (String × Schema)}
    (hnames : ∀ f ∈ done ++ fields, f.2.repeatedName? = none) :
    combineFields (firsts done) fields = .ok after ↔
      (∀ f ∈ fields, ∀ s, get? f.1 (done ++ fields) = some s → Schema.Alike s f.2) ∧
        after = firsts (done ++ fields) := by
  induction fields generalizing done with
  | nil => simp [combineFields, eq_comm]
  | cons f fields ih =>
    obtain ⟨name, node⟩ := f
    have happend : done ++ (name, node) :: fields = (done ++ [(name, node)]) ++ fields := by simp
    have hnames' : ∀ f ∈ (done ++ [(name, node)]) ++ fields, f.2.repeatedName? = none := by
      rwa [← happend]
    have hih := ih hnames'
    have hhead : get? name (done ++ (name, node) :: fields) =
        some ((get? name done).getD node) := by
      rw [get?_append, get?, if_pos rfl]
      cases get? name done <;> rfl
    rw [List.forall_mem_cons, hhead, happend, and_assoc, ← hih, combineFields, get?_firsts]
    cases hkept : get? name done with
    | some kept =>
      have hinside : kept.repeatedName? = none :=
        hnames (name, kept) (List.mem_append_left _ (mem_of_get? hkept))
      dsimp only
      rw [firsts_concat_of_mem (mem_keys_iff.2 ⟨kept, hkept⟩)]
      by_cases hsame : kept.same node = true
      · rw [if_pos hsame]
        have halike := Schema.alike_of_same hinside hsame
        simp [halike]
      · rw [if_neg hsame]
        have hnot : ¬ Schema.Alike kept node := fun h => hsame h.same
        simp [hnot]
    | none =>
      have hinside : node.repeatedName? = none := hnames (name, node) (by simp)
      dsimp only
      rw [firsts_concat_of_notMem (get?_eq_none_iff.1 hkept)]
      simp [Schema.Alike.refl hinside]

theorem combineAll_eq_ok_iff {declared : List (String × List (String × Schema))}
    {after : List (String × Schema)}
    (hnames : ∀ f ∈ declared.flatMap Prod.snd, f.2.repeatedName? = none) :
    combineAll [] (declared.map fun e => (e.1, .map .none e.2)) = .ok after ↔
      (∀ f ∈ declared.flatMap Prod.snd, ∀ s, get? f.1 (declared.flatMap Prod.snd) = some s →
        Schema.Alike s f.2) ∧ after = firsts (declared.flatMap Prod.snd) := by
  rw [combineAll_eq]
  exact @combineFields_eq_ok_iff [] _ _ hnames

/-! ## Building a table -/

namespace TableDeclaration

/-- That the first of every name is declared alike the others says that any two are. -/
theorem alike_first_iff {fields : List (String × Schema)} :
    (∀ f ∈ fields, ∀ s, get? f.1 fields = some s → Schema.Alike s f.2) ↔
      ∀ f ∈ fields, ∀ f' ∈ fields, f.1 = f'.1 → Schema.Alike f.2 f'.2 := by
  constructor
  · intro h f hf f' hf' hname
    obtain ⟨s, hs⟩ := mem_keys_iff.1 (List.mem_map.2 ⟨f, hf, rfl⟩)
    exact (h f hf s hs).symm.trans (h f' hf' s (hname ▸ hs))
  · intro h f hf s hs
    exact h (f.1, s) (mem_of_get? hs) f hf rfl

/-- Fields of all entities are fields of some. -/
theorem forall_mem_flatMap₂ {entities : List (String × List (String × Schema))} :
    (∀ f ∈ entities.flatMap Prod.snd, ∀ f' ∈ entities.flatMap Prod.snd, f.1 = f'.1 →
        Schema.Alike f.2 f'.2) ↔
      ∀ e ∈ entities, ∀ e' ∈ entities, ∀ f ∈ e.2, ∀ f' ∈ e'.2, f.1 = f'.1 →
        Schema.Alike f.2 f'.2 := by
  constructor
  · intro h e he e' he' f hf f' hf'
    exact h f (List.mem_flatMap.2 ⟨e, he, hf⟩) f' (List.mem_flatMap.2 ⟨e', he', hf'⟩)
  · intro h f hf f' hf'
    obtain ⟨e, he, hf⟩ := List.mem_flatMap.1 hf
    obtain ⟨e', he', hf'⟩ := List.mem_flatMap.1 hf'
    exact h e he e' he' f hf f' hf'

/-- The fields of entities that build repeat no name inside. -/
theorem repeatedName?_of_mem_flatMap {entities : List (String × List (String × Schema))}
    (hbuilds : ∀ e ∈ entities, (Schema.map .none e.2).repeatedName? = none) :
    ∀ f ∈ entities.flatMap Prod.snd, f.2.repeatedName? = none := by
  intro f hf
  obtain ⟨e, he, hf⟩ := List.mem_flatMap.1 hf
  have hnames := hbuilds e he
  rw [Schema.repeatedName?] at hnames
  exact (Schema.repeatedNameAmong?_eq_none hnames).2.2 f hf

theorem isSound_iff {entities : List (String × List (String × Schema))}
    {indexes : List (String × TableDeclaration)} : (mk entities indexes).IsSound ↔
      ((keys entities).Nodup ∧ ∀ e ∈ entities, (Schema.map .none e.2).repeatedName? = none) ∧
      ((keys indexes).Nodup ∧ ∀ e ∈ indexes, e.2.IsSound) ∧
      ∀ e ∈ entities, ∀ e' ∈ entities, ∀ f ∈ e.2, ∀ f' ∈ e'.2, f.1 = f'.1 →
        Schema.Alike f.2 f'.2 := by
  constructor
  · rintro ⟨hentities, hindexes, hbuilds, halike, hinside⟩
    refine ⟨⟨hentities, fun e he => ?_⟩, ⟨hindexes, hinside⟩, halike⟩
    obtain ⟨s, hs⟩ := hbuilds e he
    exact (Schema.validate_eq_ok_iff.1 hs).1
  · rintro ⟨⟨hentities, hbuilds⟩, ⟨hindexes, hinside⟩, halike⟩
    refine .mk hentities hindexes (fun e he => ?_) halike hinside
    exact ⟨_, Schema.validate_eq_ok_iff.2 ⟨hbuilds e he, rfl⟩⟩

/-- **Building.** What is sound is built, and it comes to its outline. The recursion is that of
tables through their indexes; at each level the three loops are looked at in turn. -/
theorem build_eq_ok_iff (d : TableDeclaration) {t : TableSchema} :
    d.build = .ok t ↔ d.IsSound ∧ t = d.outline := by
  induction d using TableDeclaration.induction generalizing t with
  | mk entities indexes ih =>
    rw [build, isSound_iff, outline]
    simp only [bind_eq_ok, buildEntities_eq_ok_iff,
      buildIndexes_eq_ok_iff fun e he t => ih e he]
    constructor
    · rintro ⟨_, ⟨hentities, hbuilds, rfl⟩, _, ⟨hindexes, hinside, rfl⟩, fields, hfields, he⟩
      cases he
      have hnames := repeatedName?_of_mem_flatMap hbuilds
      obtain ⟨hfirst, rfl⟩ := (combineAll_eq_ok_iff hnames).1 hfields
      have halike := forall_mem_flatMap₂.1 (alike_first_iff.1 hfirst)
      exact ⟨⟨⟨hentities, hbuilds⟩, ⟨hindexes, hinside⟩, halike⟩, rfl⟩
    · rintro ⟨⟨⟨hentities, hbuilds⟩, ⟨hindexes, hinside⟩, halike⟩, rfl⟩
      have hnames := repeatedName?_of_mem_flatMap hbuilds
      have hfirst := alike_first_iff.2 (forall_mem_flatMap₂.2 halike)
      have hfields := (combineAll_eq_ok_iff hnames).2 ⟨hfirst, rfl⟩
      exact ⟨_, ⟨hentities, hbuilds, rfl⟩, _, ⟨hindexes, hinside, rfl⟩, _, hfields, rfl⟩

theorem exists_build_iff (d : TableDeclaration) : (∃ t, d.build = .ok t) ↔ d.IsSound := by
  constructor
  · rintro ⟨t, ht⟩
    exact (d.build_eq_ok_iff.1 ht).1
  · intro h
    exact ⟨d.outline, d.build_eq_ok_iff.2 ⟨h, rfl⟩⟩

/-! ## Other orders -/

theorem rearrangesAll_symm {indexes indexes' : List (String × TableDeclaration)}
    (hinside : ∀ e ∈ indexes, ∀ d, e.2.Rearranges d → d.Rearranges e.2)
    (h : RearrangesAll indexes indexes') : RearrangesAll indexes' indexes := by
  induction indexes generalizing indexes' with
  | nil =>
    cases indexes' with
    | nil => exact h
    | cons e' indexes' => cases h
  | cons e indexes ih =>
    cases indexes' with
    | nil => cases h
    | cons e' indexes' =>
      obtain ⟨hfirst, hrest⟩ := List.forall_mem_cons.1 hinside
      rw [RearrangesAll] at h ⊢
      exact ⟨h.1.symm, hfirst e'.2 h.2.1, ih hrest h.2.2⟩

theorem Rearranges.symm {d d' : TableDeclaration} (h : d.Rearranges d') : d'.Rearranges d := by
  induction d using TableDeclaration.induction generalizing d' with
  | mk entities indexes ih =>
    obtain ⟨entities', indexes'⟩ := d'
    rw [Rearranges] at h ⊢
    exact ⟨h.1.symm, rearrangesAll_symm (fun e he d => ih e he) h.2⟩

/-- The names of the indexes stay, and so does what their soundness says. -/
theorem rearrangesAll_spec {indexes indexes' : List (String × TableDeclaration)}
    (hinside : ∀ e ∈ indexes, ∀ d, e.2.Rearranges d → d.IsSound)
    (h : RearrangesAll indexes indexes') :
    keys indexes' = keys indexes ∧ ∀ e ∈ indexes', e.2.IsSound := by
  induction indexes generalizing indexes' with
  | nil =>
    cases indexes' with
    | nil => exact ⟨rfl, fun e he => absurd he List.not_mem_nil⟩
    | cons e' indexes' => cases h
  | cons e indexes ih =>
    cases indexes' with
    | nil => cases h
    | cons e' indexes' =>
      obtain ⟨hfirst, hrest⟩ := List.forall_mem_cons.1 hinside
      rw [RearrangesAll] at h
      obtain ⟨hname, hindex, hothers⟩ := h
      obtain ⟨hkeys, hsound⟩ := ih hrest hothers
      refine ⟨?_, List.forall_mem_cons.2 ⟨hfirst e'.2 hindex, hsound⟩⟩
      show e'.1 :: keys indexes' = e.1 :: keys indexes
      rw [hkeys, hname]

/-- The order of entities does not matter for what is sound, at any level. -/
theorem IsSound.rearranges {d d' : TableDeclaration} (hd : d.IsSound) (h : d.Rearranges d') :
    d'.IsSound := by
  induction d using TableDeclaration.induction generalizing d' with
  | mk entities indexes ih =>
    obtain ⟨entities', indexes'⟩ := d'
    rw [Rearranges] at h
    obtain ⟨hperm, hall⟩ := h
    cases hd with
    | mk hentities hindexes hbuilds halike hinside =>
      obtain ⟨hkeys, hsound⟩ := rearrangesAll_spec (fun e he d h => ih e he (hinside e he) h) hall
      have hmem : ∀ e ∈ entities', e ∈ entities := fun e he => hperm.mem_iff.2 he
      refine .mk ((hperm.map Prod.fst).nodup_iff.1 hentities) (hkeys ▸ hindexes)
        (fun e he => hbuilds e (hmem e he)) ?_ hsound
      exact fun e he e' he' => halike e (hmem e he) e' (hmem e' he')

/-- Nor does it for what is combined: the same names, with fields that are declared alike. -/
theorem alike_combined_of_rearranges {d d' : TableDeclaration} (hd : d.IsSound)
    (h : d.Rearranges d') : Schema.Alike d.outline.combined d'.outline.combined := by
  cases hd with
  | @mk entities indexes _ _ _ halike _ =>
    obtain ⟨entities', indexes'⟩ := d'
    rw [Rearranges] at h
    have hperm : (entities.flatMap Prod.snd).Perm (entities'.flatMap Prod.snd) :=
      h.1.flatMap_right Prod.snd
    rw [outline, outline]
    refine .map (nodup_keys_firsts _) ?_ fun name s s' hs hs' => ?_
    · rw [List.perm_ext_iff_of_nodup (nodup_keys_firsts _) (nodup_keys_firsts _)]
      intro name
      rw [mem_keys_firsts, mem_keys_firsts]
      exact (hperm.map Prod.fst).mem_iff
    · rw [get?_firsts] at hs hs'
      exact forall_mem_flatMap₂.2 halike (name, s) (mem_of_get? hs) (name, s')
        (hperm.mem_iff.2 (mem_of_get? hs')) rfl

/-- **Which tables can be declared.** A declaration builds exactly where it is sound, and then to
its outline, so that the combined schema has every name of a field once, in the order in which
names are declared first, and as they are. In another order the entities build or fail as before,
and what is combined of them is declared alike. The first part leaves nothing open about failure,
so the other two can speak of what was built. The second one tells the combined schema by its
names and by each of them, which fixes it. The third one concludes only that fields are declared
alike, as the declaration that is kept is that of another entity. -/
theorem builds_iff_isSound (d : TableDeclaration) :
    ((∃ t, d.build = .ok t) ↔ d.IsSound) ∧
    (∀ t, d.build = .ok t → t = d.outline ∧ ∃ fields, t.combined = .map .none fields ∧
      (keys fields).Nodup ∧ keys fields = (keys d.declaredFields).eraseDups ∧
      ∀ name, get? name fields = get? name d.declaredFields) ∧
    ∀ d', d.Rearranges d' → ((∃ t, d.build = .ok t) ↔ ∃ t, d'.build = .ok t) ∧
      ∀ t t', d.build = .ok t → d'.build = .ok t' → Schema.Alike t.combined t'.combined := by
  refine ⟨d.exists_build_iff, ?_, ?_⟩
  · intro t ht
    obtain ⟨-, rfl⟩ := d.build_eq_ok_iff.1 ht
    obtain ⟨entities, indexes⟩ := d
    exact ⟨rfl, _, rfl, nodup_keys_firsts _, keys_firsts _, fun name => get?_firsts name _⟩
  · intro d' h
    constructor
    · rw [exists_build_iff, exists_build_iff]
      exact ⟨fun hd => hd.rearranges h, fun hd => hd.rearranges h.symm⟩
    · intro t t' ht ht'
      obtain ⟨hd, rfl⟩ := d.build_eq_ok_iff.1 ht
      obtain ⟨-, rfl⟩ := d'.build_eq_ok_iff.1 ht'
      exact alike_combined_of_rearranges hd h

end TableDeclaration

end ItemStore
