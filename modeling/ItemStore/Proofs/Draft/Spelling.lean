import ItemStore.Proofs.Draft.Placeholders
import ItemStore.Proofs.Expression.Spelling

/-
One form for each path.

All expressions of a request are compiled into tables that go on from each other, so the tables of
the request are later than all of them. By what these tables say about the forms of paths, every
expression is written down from its part of the draft, without asking what else there is in the
draft or in which order it was compiled (`Draft.Written`). A path below an attribute has therefore
one form in the update, the conditions and the projection of a request.

The reason lies with tables as such. Whatever is done to them in between and whether it succeeds, a
path that was bound stays bound in the same form, and binding it again is no change
(`Bindings.HasForm`).

Forms are what `bind_path` gives, and they stay because a token is looked for in the same order
every time.
-/
set_option autoImplicit false

namespace ItemStore

open Entries

/-- The path is bound in the given form: binding it again, in one piece or in place, gives this
form and leaves the tables as they are. Both ways of binding are in it, as a request may be
compiled in either. -/
structure Bindings.HasForm (b : Bindings) (p : Path) (suffix text : String) : Prop where
  bindPath : b.bindPath p suffix = (text, b)
  run : InPlace.run (InPlace.bindPath p suffix) b = (.ok text, b)

theorem Bindings.hasForm_of_grows {b later : Bindings} {p : Path} {suffix : String}
    (h : Entries.Grows (b.namesWith p suffix) later.names) (hlater : later.Sorted) :
    later.HasForm p suffix (b.bindPath p suffix).1 := by
  have hagain := bindPath_again h hlater
  obtain ⟨hrun, -⟩ := InPlace.run_bindPath hlater p suffix
  rw [hagain] at hrun
  exact ⟨hagain, hrun⟩

/-- Once it was bound, a path is bound for good. -/
theorem Bindings.hasForm_after {b : Bindings} (hb : b.Sorted) (p : Path) (suffix : String)
    (turns : List Turn) :
    ((b.bindPath p suffix).2.after turns).HasForm p suffix (b.bindPath p suffix).1 := by
  obtain ⟨-, hsorted⟩ := InPlace.run_bindPath hb p suffix
  have hlater := InPlace.sorted_after hsorted turns
  rw [InPlace.after_eq hsorted] at hlater
  exact hasForm_of_grows ((b.bindPath p suffix).2.keeps_after turns).names hlater

/-! ## Parts that may be absent -/

/-- The text of a condition that may be absent. Where there is no condition there is no text. -/
def OptionalWritten (s : Spelling) (condition : Option Condition) (n : Nat) (text : Option String) :
    Prop := Option.Rel (fun c text => c.Written s n text) condition text

/-- The text of a projection, which is absent where there are no paths. Repeated paths are dropped
by their forms. -/
def Spelling.selection (s : Spelling) (paths : List Path) : Option String :=
  if paths.isEmpty then none else some (s.projection paths)

theorem optionalWritten_of_compile {schema : Schema} {condition : Option Condition}
    {progress progress' : Progress} {text : Option String} {later : Bindings}
    (h : compileOptional schema condition progress = .ok (text, progress'))
    (hlater : progress'.bindings.Grows later) :
    OptionalWritten later.spelling condition progress.position text := by
  cases condition with
  | none =>
    cases h
    exact .none
  | some c =>
    obtain ⟨⟨written, p⟩, hc, he⟩ := bind_eq_ok.1 h
    cases he
    exact .some (c.written_of_compile hc hlater.names)

theorem selection_of_compile {schema : Schema} {paths : List Path} {text : Option String}
    {b b' later : Bindings} (h : compileSelection schema paths b = .ok (text, b'))
    (hlater : Entries.Grows b'.names later.names) : text = later.spelling.selection paths := by
  unfold compileSelection at h
  unfold Spelling.selection
  by_cases hpaths : paths.isEmpty = true
  · rw [if_pos hpaths] at h ⊢
    cases h
    rfl
  · rw [if_neg hpaths] at h ⊢
    obtain ⟨⟨written, b₁⟩, hp, he⟩ := bind_eq_ok.1 h
    cases he
    rw [projection_of_compile hp hlater]

/-! ## The six kinds of requests -/

/-- The expressions of a request are those of its draft, with paths in the given forms. It has a
case for each kind of draft, with its expressions in the order in which they take their numbers. -/
inductive Draft.Written (t : Table) (s : Spelling) : Draft → Operation → Prop where
  /-- The condition of a put is its own or the guard of the item. -/
  | put {d : PutDraft} {r : PutRequest} {entity : Schema} {condition : Option Condition}
      (hentity : t.entity d.entity = .ok entity)
      (heffective : d.effective entity (d.item.getD (.map [])) = .ok condition)
      (hcondition : OptionalWritten s condition 0 r.condition) : Written t s (.put d) (.put r)
  | get {d : GetDraft} {r : GetRequest}
      (hprojection : r.projection = s.selection d.projection) : Written t s (.get d) (.get r)
  | delete {d : DeleteDraft} {r : DeleteRequest}
      (hcondition : OptionalWritten s d.condition 0 r.condition) :
      Written t s (.delete d) (.delete r)
  | update {d : UpdateDraft} {r : UpdateRequest} (hupdate : r.update = s.update d.actions)
      (hcondition : OptionalWritten s d.condition 0 r.condition) :
      Written t s (.update d) (.update r)
  /-- The tests of a filter are counted on from those of the key condition. -/
  | query {d : QueryDraft} {r : QueryRequest} {key : Condition} (hkey : d.keyCondition = some key)
      (hkeyCondition : key.Written s 0 r.keyCondition)
      (hfilter : OptionalWritten s d.filter key.paths.length r.filter)
      (hprojection : r.projection = s.selection d.projection) : Written t s (.query d) (.query r)
  | scan {d : ScanDraft} {r : ScanRequest} (hfilter : OptionalWritten s d.filter 0 r.filter)
      (hprojection : r.projection = s.selection d.projection) : Written t s (.scan d) (.scan r)

theorem PutDraft.written_of_build {t : Table} {d : PutDraft} {r : PutRequest}
    (h : d.build t = .ok r) : Draft.Written t r.bindings.spelling (.put d) (.put r) := by
  obtain ⟨entity, hentity, h⟩ := bind_eq_ok.1 h
  obtain ⟨item, -, h⟩ := bind_eq_ok.1 h
  obtain ⟨condition, heffective, h⟩ := bind_eq_ok.1 h
  obtain ⟨⟨text, progress⟩, hcondition, he⟩ := bind_eq_ok.1 h
  cases he
  exact .put hentity heffective (optionalWritten_of_compile hcondition (.refl _))

theorem DeleteDraft.written_of_build {t : Table} {d : DeleteDraft} {r : DeleteRequest}
    (h : d.build t = .ok r) : Draft.Written t r.bindings.spelling (.delete d) (.delete r) := by
  obtain ⟨entity, -, h⟩ := bind_eq_ok.1 h
  obtain ⟨key, -, h⟩ := bind_eq_ok.1 h
  obtain ⟨⟨text, progress⟩, hcondition, he⟩ := bind_eq_ok.1 h
  cases he
  exact .delete (optionalWritten_of_compile hcondition (.refl _))

theorem UpdateDraft.written_of_build {t : Table} {d : UpdateDraft} {r : UpdateRequest}
    (h : d.build t = .ok r) : Draft.Written t r.bindings.spelling (.update d) (.update r) := by
  obtain ⟨entity, -, h⟩ := bind_eq_ok.1 h
  obtain ⟨key, -, h⟩ := bind_eq_ok.1 h
  obtain ⟨update, hupdate, h⟩ := bind_eq_ok.1 h
  obtain ⟨⟨text, progress⟩, hcondition, he⟩ := bind_eq_ok.1 h
  cases he
  -- the condition has added to the tables of the update
  exact .update (update_of_compile hupdate (grows_compileOptional hcondition).names)
    (optionalWritten_of_compile hcondition (.refl _))

theorem GetDraft.written_of_build {t : Table} {d : GetDraft} {r : GetRequest}
    (h : d.build t = .ok r) :
    Draft.Written t (Operation.get r).tables.spelling (.get d) (.get r) := by
  obtain ⟨entity, -, h⟩ := bind_eq_ok.1 h
  obtain ⟨key, -, h⟩ := bind_eq_ok.1 h
  obtain ⟨⟨text, b⟩, hselection, he⟩ := bind_eq_ok.1 h
  cases he
  exact .get (selection_of_compile hselection (.refl _))

theorem QueryDraft.written_of_build {t : Table} {d : QueryDraft} {r : QueryRequest}
    (h : d.build t = .ok r) : Draft.Written t r.bindings.spelling (.query d) (.query r) := by
  obtain ⟨schema, -, h⟩ := bind_eq_ok.1 h
  split at h
  · cases h
  · next keyCondition hsome =>
    obtain ⟨-, -, h⟩ := bind_eq_ok.1 h
    obtain ⟨⟨key, p₁⟩, hkey, h⟩ := bind_eq_ok.1 h
    obtain ⟨⟨filter, p₂⟩, hfilter, h⟩ := bind_eq_ok.1 h
    obtain ⟨⟨selection, b⟩, hselection, he⟩ := bind_eq_ok.1 h
    cases he
    have hlast := grows_compileSelection hselection
    have hcount : p₁.position = keyCondition.paths.length := by
      rw [Condition.position_compile hkey, Progress.start, Nat.zero_add]
    have hwritten := optionalWritten_of_compile hfilter hlast
    rw [hcount] at hwritten
    exact .query hsome
      (keyCondition.written_of_compile hkey ((grows_compileOptional hfilter).trans hlast).names)
      hwritten (selection_of_compile hselection (.refl _))

theorem ScanDraft.written_of_build {t : Table} {d : ScanDraft} {r : ScanRequest}
    (h : d.build t = .ok r) : Draft.Written t r.bindings.spelling (.scan d) (.scan r) := by
  obtain ⟨schema, -, h⟩ := bind_eq_ok.1 h
  obtain ⟨⟨filter, progress⟩, hfilter, h⟩ := bind_eq_ok.1 h
  obtain ⟨⟨selection, b⟩, hselection, he⟩ := bind_eq_ok.1 h
  cases he
  exact .scan (optionalWritten_of_compile hfilter (grows_compileSelection hselection))
    (selection_of_compile hselection (.refl _))

theorem Draft.written_of_build {t : Table} {d : Draft} {op : Operation}
    (h : d.build t = .ok op) : d.Written t op.tables.spelling op := by
  cases d with
  | put d =>
    obtain ⟨r, hr, rfl⟩ := map_eq_ok.1 h
    exact d.written_of_build hr
  | get d =>
    obtain ⟨r, hr, rfl⟩ := map_eq_ok.1 h
    exact d.written_of_build hr
  | delete d =>
    obtain ⟨r, hr, rfl⟩ := map_eq_ok.1 h
    exact d.written_of_build hr
  | update d =>
    obtain ⟨r, hr, rfl⟩ := map_eq_ok.1 h
    exact d.written_of_build hr
  | query d =>
    obtain ⟨r, hr, rfl⟩ := map_eq_ok.1 h
    exact d.written_of_build hr
  | scan d =>
    obtain ⟨r, hr, rfl⟩ := map_eq_ok.1 h
    exact d.written_of_build hr

/-- **Paths keep their form.** Let a path be bound, in any tables and with any suffix. Whatever is
then done to the tables, in place or not, step after step with any of them failing: the path is
bound in the form that it got, and binding it again changes nothing. So all expressions of a
request follow from the parts of its draft as soon as the forms of paths in the tables of the
request are known, and a path that is not an attribute of the item itself has one form in all of
them. The first part is about tables as they come, with any history, which is why it asks for no
more than their being sorted. The second part applies it to a request that was built: one function
on paths tells every expression in it. -/
theorem paths_keep_their_form :
    (∀ b : Bindings, b.Sorted → ∀ (p : Path) suffix, ∃ text b',
      b.bindPath p suffix = (text, b') ∧
      InPlace.run (InPlace.bindPath p suffix) b = (.ok text, b') ∧
      ∀ turns, InPlace.after b' turns = b'.after turns ∧ (b'.after turns).HasForm p suffix text) ∧
    ∀ t (d : Draft) op, d.build t = .ok op → d.Written t op.tables.spelling op := by
  refine ⟨?_, fun t d op h => Draft.written_of_build h⟩
  intro b hb p suffix
  obtain ⟨hrun, hsorted⟩ := InPlace.run_bindPath hb p suffix
  exact ⟨_, _, rfl, hrun,
    fun turns => ⟨InPlace.after_eq hsorted turns, Bindings.hasForm_after hb p suffix turns⟩⟩

/-- Turns that come near the tokens of a path, of which the first and the third fail. -/
def nearbyTurns : List Turn :=
  [.bindName "#ab_2" "b",
   .bindName "#ab_4" "a-b",
   .projection [⟨"ab.x"⟩, ⟨"y"⟩] .shared,
   .merge [("#ab_5", "ab")] [],
   .condition (.test ⟨"a-b.x"⟩ .exists .none) .shared].map twinsTurn

/-- An update of a user that replaces what it asks for. -/
def Shop.moveFromOslo : Draft :=
  .update
    { UpdateDraft.start "users" with
      key := some (.map [("pk", .string "u"), ("sk", .string "profile")])
      actions := [⟨⟨"address.city"⟩, .set (.string "Rome")⟩]
      condition := some (.test ⟨"address.city"⟩ .eq (.single (.string "Oslo"))) }

/-- A path with renamed tokens keeps them, and a nested path is written once for an assignment and
once for a test. -/
theorem Shop.moveFromOslo_keeps_form : InPlace.boundByHand.Sorted ∧
    (∃ b', InPlace.boundByHand.bindPath ⟨"a-b.ab.ab_1"⟩ "" = ("#ab_2.#ab_3.#ab_1_2", b') ∧
      (InPlace.after b' nearbyTurns).HasForm ⟨"a-b.ab.ab_1"⟩ "" "#ab_2.#ab_3.#ab_1_2") ∧
    ∃ t op, Shop.table .strict = .ok t ∧ Shop.moveFromOslo.build t = .ok op ∧
      op.expressions =
        ["SET #address.#city = :address_city_u0", "#address.#city = :address_city_0"] ∧
      op.tables.spelling.plain ⟨"address.city"⟩ = "#address.#city" ∧
      Shop.moveFromOslo.Written t op.tables.spelling op := by
  obtain ⟨hforms, hdrafts⟩ := paths_keep_their_form
  refine ⟨InPlace.sorted_boundByHand, ?_, ?_⟩
  · obtain ⟨text, b', hbind, -, hlater⟩ :=
      hforms InPlace.boundByHand InPlace.sorted_boundByHand ⟨"a-b.ab.ab_1"⟩ ""
    have htext : (InPlace.boundByHand.bindPath ⟨"a-b.ab.ab_1"⟩ "").1 = "#ab_2.#ab_3.#ab_1_2" := by
      decide +kernel
    rw [hbind] at htext
    subst htext
    obtain ⟨hsame, hform⟩ := hlater nearbyTurns
    exact ⟨b', hbind, hsame ▸ hform⟩
  · have hrun : ((Shop.table .strict >>= fun t => Shop.moveFromOslo.build t).toOption.map
        fun op => (op.expressions, op.tables.spelling.plain ⟨"address.city"⟩)) =
        some (["SET #address.#city = :address_city_u0", "#address.#city = :address_city_0"],
          "#address.#city") := by
      decide +kernel
    obtain ⟨op, hbuild, hop⟩ := exists_ok_of_toOption_map hrun
    obtain ⟨t, ht, hbuild⟩ := bind_eq_ok.1 hbuild
    exact ⟨t, op, ht, hbuild, congrArg Prod.fst hop, congrArg Prod.snd hop,
      hdrafts t Shop.moveFromOslo op hbuild⟩

end ItemStore
