import ItemStore.Expression.Projection
import ItemStore.Proofs.Expression.Merging
import ItemStore.Proofs.InPlace

/-
Compiling with a count and tables that are changed in place.

A condition that fails has no tables to show for it, and so it does not matter what it did before.
Someone who keeps one count and one pair of tables and changes them as the compilation goes is less
well off: when a fault is found in the middle of a condition, the tests before it have taken their
numbers and tokens already, and of two tables that are merged the first may have been found in order
and the second not. It takes some care to get to the same behaviour from there. A condition and a
projection are compiled on a copy, which takes the place of the state in the end
(`commits_compileInto`, `commits_projectInto`); binding and merging look before they write
(`commits_bindIn`, `commits_merge`); and the tokens of a path are bound one by one because none of
them can be refused (`run_bindSegments`).

Tables are in the order of their tokens (`Sorted`), so to bind a token once more to what it stands
for already is the same as to leave it alone.

The names of the operations are kept: `bind`, `free_name_token`, `bind_path`, `merge`, `render`,
`compile_into`, `compile_with`. Each is written here as it works on its state, and `Commits` ties
it to the function that returns its result.
-/
set_option autoImplicit false

namespace ItemStore

open Entries

namespace InPlace

/-- A refusal because of a token, if there is one. -/
def refuse : Option String → InPlace Bindings Unit
  | some token => throw (.placeholderConflict token)
  | none => pure ()

/-- Binds a token in a table. -/
def bindIn {α : Type} (same : α → α → Bool) (token : String) (target : α) :
    InPlace (List (String × α)) Unit := do
  let table ← get
  match get? token table with
  | some bound => if same bound target then pure () else throw (.placeholderConflict token)
  | none => set (insertSorted token target table)

/-- Works on the table of names. -/
def onNames {α : Type} (x : InPlace (List (String × String)) α) : InPlace Bindings α :=
  x.onPart Bindings.names fun names b => { b with names }

/-- Works on the table of values. -/
def onValues {α : Type} (x : InPlace (List (String × Descriptor)) α) : InPlace Bindings α :=
  x.onPart Bindings.values fun values b => { b with values }

def bindName (token name : String) : InPlace Bindings Unit := onNames (bindIn (· = ·) token name)

def bindValue (token : String) (value : Descriptor) : InPlace Bindings Unit :=
  onValues (bindIn Descriptor.same token value)

/-- Binds segments one after the other. -/
def bindSegments : List (String × String) → InPlace Bindings (List String)
  | [] => pure []
  | (token, segment) :: segments => do
    let token := Bindings.freeToken (← get).names segment token
    bindName token segment
    let tokens ← bindSegments segments
    pure (token :: tokens)

def bindPath (p : Path) (suffix : String) : InPlace Bindings String := do
  let tokens ← bindSegments (p.nameTokens suffix)
  pure (dotted tokens)

/-- Puts other tables to the tables: looks at the names, then at the values, and then writes. It
looks at both tables before it writes to either, which is what makes it all or nothing. -/
def merge (theirs : Bindings) : InPlace Bindings Unit := do
  let b ← get
  refuse (Bindings.clash? (· = ·) b.names theirs.names)
  refuse (Bindings.clash? Descriptor.same b.values theirs.values)
  modify fun b => { b with names := Bindings.extend b.names theirs.names }
  modify fun b => { b with values := Bindings.extend b.values theirs.values }

def bind (site : TestSite) (suffix : String) (value : Descriptor) : InPlace Bindings String := do
  let token := site.path.valueToken suffix
  bindValue token value
  pure token

def bindEncoded (site : TestSite) (node : Schema) (suffix : String) (v : Value) :
    InPlace Bindings String := do
  let value ← ofExcept (node.encode v)
  bind site suffix value

def bindAll (site : TestSite) (node : Schema) : Nat → List Value → InPlace Bindings (List String)
  | _, [] => pure []
  | k, v :: vs => do
    let token ← bindEncoded site node (site.suffixAt k) v
    let tokens ← bindAll site node (k + 1) vs
    pure (token :: tokens)

def renderSingle (site : TestSite) (name : String) (node : Schema) (operator : Operator)
    (v : Value) : InPlace Bindings String :=
  match operator with
  | .beginsWith => do
    let token ← bindEncoded site node site.suffix v
    pure (call operator.text [name, token])
  | .contains => do
    let token ← bindEncoded site node.memberNode site.suffix v
    pure (call operator.text [name, token])
  | .hasType =>
    match v.tag? with
    | some tag => do
      let token ← bind site site.suffix (.string tag.text)
      pure (call operator.text [name, token])
    | none => throw (.invalidCondition (.notATag v.summary))
  | operator =>
    if operator.isComparator then do
      let token ← bindEncoded site node site.suffix v
      pure (comparison name operator token)
    else throw (operandError operator (.single v))

def renderTest (site : TestSite) (name : String) (node : Schema) (operator : Operator)
    (operand : Operand) : InPlace Bindings String :=
  match operator, operand with
  | .exists, .none => pure (call operator.text [name])
  | .notExists, .none => pure (call operator.text [name])
  | operator, .single v => renderSingle site name node operator v
  | .between, .pair low high => do
    let low ← bindEncoded site node (site.suffixAt 0) low
    let high ← bindEncoded site node (site.suffixAt 1) high
    pure (name ++ " BETWEEN " ++ low ++ " AND " ++ high)
  | .isIn, .list values =>
    if values.isEmpty then throw (.invalidCondition .noCandidates)
    else do
      let tokens ← bindAll site node 0 values
      pure (name ++ " IN (" ++ ", ".intercalate tokens ++ ")")
  | .size, .size comparator v =>
    if comparator.isComparator then do
      let token ← bindEncoded site (.ofKind .number) site.suffix v
      pure (comparison (call operator.text [name]) comparator token)
    else throw (operandError operator operand)
  | operator, operand => throw (operandError operator operand)

/-- Works on the tables. -/
def onBindings {α : Type} (x : InPlace Bindings α) : InPlace Progress α :=
  x.onPart Progress.bindings fun bindings progress => { progress with bindings }

/-- Takes the next number. -/
def takeNumber : InPlace Progress Nat := do
  let position := (← get).position
  modify fun progress => { progress with position := progress.position + 1 }
  pure position

def compileTest (schema : Schema) (path : Path) (operator : Operator) (operand : Operand) :
    InPlace Progress String := do
  let site : TestSite := { path, index := ← takeNumber }
  let node ← ofExcept (schema.resolve path)
  let name ← onBindings (bindPath path site.nameSuffix)
  onBindings (renderTest site name node operator operand)

mutual

/-- Compiles a condition test by test. It takes numbers and binds tokens as it goes, and does not
take anything back; only its caller does. -/
def render (schema : Schema) : Condition → InPlace Progress String
  | .test path operator operand => compileTest schema path operator operand
  | .group connective conditions =>
    if conditions.isEmpty then throw (.invalidCondition (.noConditions connective))
    else do
      let parts ← renderAll schema conditions
      pure (joinParts connective parts)

def renderAll (schema : Schema) : List Condition → InPlace Progress (List String)
  | [] => pure []
  | c :: cs => do
    let part ← render schema c
    let parts ← renderAll schema cs
    pure (part :: parts)

end

/-- Compiles a condition into the tables, on a copy of them and of the count. The copy is what
keeps a failing condition from being seen. -/
def compileInto (schema : Schema) (c : Condition) : InPlace Progress String :=
  (render schema c).onCopy

/-- Compiles a condition into tables of its own, with the count. The count of a failed condition
is thrown away as well. -/
def compileWith (schema : Schema) (c : Condition) : InPlace Progress Compiled :=
  ExceptT.mk fun progress =>
    let (result, own) := (compileInto schema c).run { progress with bindings := .empty }
    (result.map fun expression => { expression, bindings := own.bindings },
      { progress with position := own.position })

def projectPaths (schema : Schema) : List String → List Path → InPlace Bindings (List String)
  | written, [] => pure written
  | written, p :: ps => do
    let _ ← ofExcept (schema.resolve p)
    let part ← bindPath p ""
    projectPaths schema (if part ∈ written then written else written ++ [part]) ps

/-- Compiles a projection into the tables, on a copy of them. -/
def projectInto (schema : Schema) (paths : List Path) : InPlace Bindings String :=
  onCopy do
    let parts ← projectPaths schema [] paths
    pure (", ".intercalate parts)

/-! ## Binding and merging -/

theorem commits_bindIn {α : Type} (same : α → α → Bool) (token : String) (target : α) :
    Commits Ascending (bindIn same token target) fun table =>
      (Bindings.bindIn same token target table).map fun table' => ((), table') := by
  refine .of_run (fun table => ?_) fun _ _ htable hbind => Bindings.ascending_bindIn htable hbind
  have hget : run (bindIn same token target) table =
      run (match get? token table with
        | some bound =>
          if same bound target then pure () else throw (.placeholderConflict token)
        | none => set (insertSorted token target table)) table := rfl
  rw [hget, Bindings.bindIn]
  cases get? token table with
  | none => rfl
  | some bound =>
    by_cases hsame : same bound target = true
    · simp only [hsame, if_true]
      rfl
    · simp only [hsame]
      rfl

theorem Commits.onNames {α : Type} {x : InPlace (List (String × String)) α}
    {f : List (String × String) → Except Error (α × List (String × String))}
    (hx : Commits Ascending x f) :
    Commits Bindings.Sorted (InPlace.onNames x) fun b =>
      (f b.names).map fun r => (r.1, { b with names := r.2 }) :=
  hx.onPart (fun _ hb => hb.names) (fun _ _ hb hnames => ⟨hnames, hb.values⟩) fun _ => rfl

theorem Commits.onValues {α : Type} {x : InPlace (List (String × Descriptor)) α}
    {f : List (String × Descriptor) → Except Error (α × List (String × Descriptor))}
    (hx : Commits Ascending x f) :
    Commits Bindings.Sorted (InPlace.onValues x) fun b =>
      (f b.values).map fun r => (r.1, { b with values := r.2 }) :=
  hx.onPart (fun _ hb => hb.values) (fun _ _ hb hvalues => ⟨hb.names, hvalues⟩) fun _ => rfl

theorem commits_bindName (token name : String) :
    Commits Bindings.Sorted (bindName token name) fun b =>
      (b.bindName token name).map fun b' => ((), b') := by
  have h := (commits_bindIn (· = ·) token name).onNames
  simpa only [map_map, bindName, Bindings.bindName] using h

theorem commits_bindValue (token : String) (value : Descriptor) :
    Commits Bindings.Sorted (bindValue token value) fun b =>
      (b.bindValue token value).map fun b' => ((), b') := by
  have h := (commits_bindIn Descriptor.same token value).onValues
  simpa only [map_map, bindValue, Bindings.bindValue] using h

/-- A free token can always be bound: it stands for nothing, or for the segment already. -/
theorem bindName_freeToken {b : Bindings} (hb : b.Sorted) (segment token : String) :
    b.bindName (Bindings.freeToken b.names segment token) segment =
      .ok { b with
        names := insertSorted (Bindings.freeToken b.names segment token) segment b.names } := by
  have husable := Bindings.isUsable_iff.1 (Bindings.isUsable_freeToken b.names segment token)
  generalize Bindings.freeToken b.names segment token = free at husable
  rw [Bindings.bindName, Bindings.bindIn]
  cases hget : get? free b.names with
  | none => rfl
  | some bound =>
    have hbound := husable bound hget
    rw [hbound] at hget
    rw [(insertSorted_eq_self_iff hb.names).2 hget, hbound]
    simp [Except.map]

/-- None of the tokens of a path is refused. -/
theorem run_bindSegments (segments : List (String × String)) {b : Bindings} (hb : b.Sorted) :
    run (bindSegments segments) b =
      (.ok (Bindings.bindSegments b.names segments).1,
        { b with names := (Bindings.bindSegments b.names segments).2 }) := by
  induction segments generalizing b with
  | nil => rfl
  | cons s segments ih =>
    obtain ⟨token, segment⟩ := s
    have hbind := bindName_freeToken hb segment token
    have hrun : run (bindSegments ((token, segment) :: segments)) b =
        run (bindName (Bindings.freeToken b.names segment token) segment >>= fun _ =>
          bindSegments segments >>= fun tokens =>
            pure (Bindings.freeToken b.names segment token :: tokens)) b := rfl
    rw [hrun, Bindings.bindSegments]
    generalize Bindings.freeToken b.names segment token = free at hbind ⊢
    -- the rest is bound in tables that have the first token already
    obtain ⟨hfirst, hb'⟩ :=
      (commits_bindName free segment).ok b () _ hb (map_eq_ok.2 ⟨_, hbind, rfl⟩)
    rw [run_bind, hfirst]
    dsimp only
    rw [run_bind, ih hb']
    rfl

theorem commits_bindPath (p : Path) (suffix : String) :
    Commits Bindings.Sorted (bindPath p suffix) fun b => .ok (b.bindPath p suffix) := by
  constructor
  · intro b text b' hb h
    cases h
    have hsegments := run_bindSegments (p.nameTokens suffix) hb
    rw [bindPath, run_bind, hsegments]
    exact ⟨rfl, Bindings.ascending_bindSegments _ hb.names, hb.values⟩
  · intro b e hb h
    cases h

theorem commits_merge (theirs : Bindings) :
    Commits Bindings.Sorted (merge theirs) fun b =>
      (b.merge theirs).map fun b' => ((), b') := by
  refine .of_run (fun b => ?_) fun _ _ hb hmerge => hb.merge hmerge
  have hget : run (merge theirs) b =
      run (refuse (Bindings.clash? (fun a b => decide (a = b)) b.names theirs.names) >>= fun _ =>
        refuse (Bindings.clash? Descriptor.same b.values theirs.values) >>= fun _ =>
          modify (fun b => { b with names := Bindings.extend b.names theirs.names }) >>= fun _ =>
            modify fun b => { b with values := Bindings.extend b.values theirs.values }) b := rfl
  rw [hget, Bindings.merge]
  cases Bindings.clash? (fun a b => decide (a = b)) b.names theirs.names with
  | some token => rfl
  | none =>
    cases Bindings.clash? Descriptor.same b.values theirs.values with
    | some token => rfl
    | none => rfl

/-! ## Tests -/

theorem realizes_bind (site : TestSite) (suffix : String) (value : Descriptor) :
    Realizes Bindings.Sorted (bind site suffix value) (site.bind suffix value) := by
  have h := (commits_bindValue (site.path.valueToken suffix) value).realizes.bind
    fun _ => .pure (site.path.valueToken suffix)
  refine h.congr fun b => ?_
  rw [TestSite.bind]
  cases b.bindValue (site.path.valueToken suffix) value <;> rfl

theorem realizes_bindEncoded (site : TestSite) (node : Schema) (suffix : String) (v : Value) :
    Realizes Bindings.Sorted (bindEncoded site node suffix v) (site.bindEncoded node suffix v) :=
  .ofExcept fun value => realizes_bind site suffix value

/-- A value that is bound and then written. -/
theorem realizes_written {x : InPlace Bindings String}
    {f : Bindings → Except Error (String × Bindings)} (h : Realizes Bindings.Sorted x f)
    (text : String → String) :
    Realizes Bindings.Sorted (x >>= fun token => pure (text token))
      fun b => f b >>= fun r => .ok (text r.1, r.2) :=
  h.bind fun token => .pure (text token)

theorem realizes_bindAll (site : TestSite) (node : Schema) (k : Nat) (vs : List Value) :
    Realizes Bindings.Sorted (bindAll site node k vs) (site.bindAll node k vs) := by
  induction vs generalizing k with
  | nil => exact .pure []
  | cons v vs ih =>
    have h := (realizes_bindEncoded site node (site.suffixAt k) v).bind fun token =>
      (ih (k + 1)).bind fun tokens => .pure (token :: tokens)
    exact h

theorem realizes_renderSingle (site : TestSite) (name : String) (node : Schema)
    (operator : Operator) (v : Value) :
    Realizes Bindings.Sorted (renderSingle site name node operator v)
      (ItemStore.renderSingle site name node operator v) := by
  have hbind := fun node : Schema => realizes_bindEncoded site node site.suffix v
  cases operator with
  | beginsWith => exact realizes_written (hbind node) _
  | contains => exact realizes_written (hbind node.memberNode) _
  | hasType =>
    -- the operand is not encoded, but it may be the name of no type
    cases htag : v.tag? with
    | some tag =>
      have hplace : renderSingle site name node .hasType v =
          (bind site site.suffix (.string tag.text) >>= fun token =>
            pure (call Operator.hasType.text [name, token])) := by
        simp only [renderSingle, htag]
      rw [hplace]
      refine (realizes_written (realizes_bind site site.suffix (.string tag.text)) _).congr
        fun b => ?_
      simp only [ItemStore.renderSingle, htag]
    | none =>
      have hplace : renderSingle site name node .hasType v =
          throw (.invalidCondition (.notATag v.summary)) := by
        simp only [renderSingle, htag]
      rw [hplace]
      refine (Realizes.throw _).congr fun b => ?_
      simp only [ItemStore.renderSingle, htag]
  | eq | ne | lt | le | gt | ge => exact realizes_written (hbind node) _
  | between | isIn | «exists» | notExists | size => exact .throw _

theorem realizes_renderTest (site : TestSite) (name : String) (node : Schema)
    (operator : Operator) (operand : Operand) :
    Realizes Bindings.Sorted (renderTest site name node operator operand)
      (ItemStore.renderTest site name node operator operand) := by
  have hbind := realizes_bindEncoded site
  cases operand with
  | none =>
    cases operator with
    | «exists» => exact .pure _
    | notExists => exact .pure _
    | _ => exact .throw _
  | single v =>
    have hsingle : renderTest site name node operator (.single v) =
        renderSingle site name node operator v := by
      cases operator <;> rfl
    rw [hsingle]
    exact (realizes_renderSingle site name node operator v).congr
      fun b => (renderTest_single site name node operator v b).symm
  | pair low high =>
    cases operator with
    | between =>
      have h := (hbind node (site.suffixAt 0) low).bind fun first =>
        realizes_written (hbind node (site.suffixAt 1) high) fun second =>
          name ++ " BETWEEN " ++ first ++ " AND " ++ second
      exact h
    | _ => exact .throw _
  | list values =>
    cases operator with
    | isIn =>
      cases values with
      | nil => exact .throw _
      | cons v vs =>
        have h := (realizes_bindAll site node 0 (v :: vs)).bind fun tokens =>
          .pure (name ++ " IN (" ++ ", ".intercalate tokens ++ ")")
        exact h
    | _ => exact .throw _
  | size comparator v =>
    cases operator with
    | size =>
      cases comparator with
      | eq | ne | lt | le | gt | ge =>
        exact realizes_written (hbind (.ofKind .number) site.suffix v) _
      | _ => exact .throw _
    | _ => exact .throw _

/-! ## Conditions and projections -/

/-- The tables of a progress are in order. -/
def InOrder (p : Progress) : Prop := p.bindings.Sorted

theorem Realizes.onBindings {α : Type} {x : InPlace Bindings α}
    {f : Bindings → Except Error (α × Bindings)} (hx : Realizes Bindings.Sorted x f) :
    Realizes InOrder (InPlace.onBindings x) fun p =>
      (f p.bindings).map fun r => (r.1, { p with bindings := r.2 }) :=
  hx.onPart (fun _ hp => hp) fun _ _ _ hb => hb

theorem Commits.onBindings {α : Type} {x : InPlace Bindings α}
    {f : Bindings → Except Error (α × Bindings)} (hx : Commits Bindings.Sorted x f) :
    Commits InOrder (InPlace.onBindings x) fun p =>
      (f p.bindings).map fun r => (r.1, { p with bindings := r.2 }) :=
  hx.onPart (fun _ hp => hp) (fun _ _ _ hb => hb) fun _ => rfl

theorem realizes_takeNumber : Realizes InOrder takeNumber fun p =>
    .ok (p.position, { p with position := p.position + 1 }) := by
  constructor
  · intro p k p' hp h
    cases h
    exact ⟨rfl, hp⟩
  · intro p e hp h
    cases h

theorem realizes_compileTest (schema : Schema) (path : Path) (operator : Operator)
    (operand : Operand) : Realizes InOrder (compileTest schema path operator operand)
      (ItemStore.compileTest schema path operator operand) := by
  have h := realizes_takeNumber.bind fun index =>
    Realizes.ofExcept (r := schema.resolve path) fun node =>
      (commits_bindPath path (TestSite.nameSuffix ⟨path, index⟩)).realizes.onBindings.bind
        fun name => (realizes_renderTest ⟨path, index⟩ name node operator operand).onBindings
  refine h.congr fun p => ?_
  rw [ItemStore.compileTest]
  cases schema.resolve path with
  | error e => rfl
  | ok node =>
    let site : TestSite := { path, index := p.position }
    have hsame : ∀ result : Except Error (String × Bindings),
        (result.map fun r => (r.1, { p with position := p.position + 1, bindings := r.2 })) =
          result >>= fun r => .ok (r.1, { position := p.position + 1, bindings := r.2 }) := by
      intro result
      cases result <;> rfl
    exact hsame (ItemStore.renderTest site (p.bindings.bindPath path site.nameSuffix).1 node
      operator operand (p.bindings.bindPath path site.nameSuffix).2)

mutual

theorem realizes_render (schema : Schema) (c : Condition) :
    Realizes InOrder (render schema c) (c.compile schema) := by
  cases c with
  | test path operator operand =>
    rw [render]
    refine (realizes_compileTest schema path operator operand).congr fun p => ?_
    rw [Condition.compile]
  | group connective conditions =>
    rw [render]
    by_cases hempty : conditions.isEmpty = true
    · rw [if_pos hempty]
      refine (Realizes.throw _).congr fun p => ?_
      rw [Condition.compile, if_pos hempty]
    · rw [if_neg hempty]
      have h := (realizes_renderAll schema conditions).bind fun parts =>
        .pure (joinParts connective parts)
      refine h.congr fun p => ?_
      rw [Condition.compile, if_neg hempty]

theorem realizes_renderAll (schema : Schema) (cs : List Condition) :
    Realizes InOrder (renderAll schema cs) (Condition.compileAll schema cs) := by
  cases cs with
  | nil =>
    rw [renderAll]
    refine (Realizes.pure _).congr fun p => ?_
    rw [Condition.compileAll]
  | cons c cs =>
    rw [renderAll]
    have h := (realizes_render schema c).bind fun part =>
      (realizes_renderAll schema cs).bind fun parts => .pure (part :: parts)
    refine h.congr fun p => ?_
    rw [Condition.compileAll]

end

theorem commits_compileInto (schema : Schema) (c : Condition) :
    Commits InOrder (compileInto schema c) (c.compile schema) := (realizes_render schema c).onCopy

/-- Items with a name. -/
def named : Schema :=
  .map .none [("id", .partitionKey .none (.ofKind .string)), ("name", .ofKind .string)]

/-- The second test is about nothing that there is, which shows when the first is compiled. -/
def lateFault : Condition :=
  .group .and [.test ⟨"name"⟩ .eq (.single (.string "Ann")), .test ⟨"age"⟩ .exists .none]

/-- It takes the copy: without one the count has gone on, and tokens are bound. -/
example : (run (render named lateFault) .start).1.isOk = false ∧
    (run (render named lateFault) .start).2.position = 2 ∧
    (run (render named lateFault) .start).2.bindings.names = [("#name_0", "name")] := by
  decide +kernel

theorem commits_compileWith (schema : Schema) (c : Condition) :
    Commits InOrder (compileWith schema c) fun p =>
      (c.compileFrom schema p.position).map fun r => (r.1, { p with position := r.2 }) := by
  have hrun : ∀ p, run (compileWith schema c) p =
      (((run (compileInto schema c) { p with bindings := .empty }).1.map fun expression =>
          { expression,
            bindings := (run (compileInto schema c) { p with bindings := .empty }).2.bindings }),
        { p with
          position := (run (compileInto schema c) { p with bindings := .empty }).2.position }) :=
    fun _ => rfl
  have hempty : ∀ p : Progress, InOrder { p with bindings := .empty } :=
    fun _ => Bindings.sorted_empty
  constructor
  · intro p compiled p' hp h
    obtain ⟨⟨compiled, position⟩, hfrom, he⟩ := map_eq_ok.1 h
    cases he
    obtain ⟨⟨text, own⟩, hcompile, he⟩ := bind_eq_ok.1 hfrom
    cases he
    obtain ⟨hok, -⟩ := (commits_compileInto schema c).ok _ _ _ (hempty p) hcompile
    rw [hrun, hok]
    exact ⟨rfl, hp⟩
  · intro p e hp h
    have hcompile : c.compile schema { p with bindings := .empty } = .error e := by
      have hfrom := map_eq_error.1 h
      unfold Condition.compileFrom at hfrom
      cases hresult : c.compile schema { p with bindings := .empty } with
      | ok r =>
        rw [hresult] at hfrom
        cases hfrom
      | error e' =>
        rw [hresult] at hfrom
        cases hfrom
        rfl
    rw [hrun, (commits_compileInto schema c).error _ e (hempty p) hcompile]
    rfl

theorem realizes_projectPaths (schema : Schema) (written : List String) (paths : List Path) :
    Realizes Bindings.Sorted (projectPaths schema written paths)
      (ItemStore.projectPaths schema written paths) := by
  induction paths generalizing written with
  | nil => exact .pure written
  | cons p paths ih =>
    have h := Realizes.ofExcept (r := schema.resolve p) fun _ =>
      (commits_bindPath p "").realizes.bind fun part =>
        ih (if part ∈ written then written else written ++ [part])
    exact h

theorem commits_projectInto (schema : Schema) (paths : List Path) :
    Commits Bindings.Sorted (projectInto schema paths) (compileProjection schema paths) := by
  have h := (realizes_projectPaths schema [] paths).bind fun parts =>
    .pure (", ".intercalate parts)
  exact Realizes.onCopy h

end InPlace

end ItemStore
