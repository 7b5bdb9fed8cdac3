import ItemStore.Expression.Workbench
import ItemStore.Proofs.Expression.InPlace

/-
Steps that fail.

A workbench is left as it was by a step that fails because `Workbench.run` gives back the workbench
that it was given. Here the steps are taken on a workbench that is changed in place, where nothing
is given back. They commit all the same (`commits_step`), so a run on one kind of workbench is a run
on the other (`steps_eq_runAll`), and the steps that failed can be left out
(`failing_steps_invisible`).
-/
set_option autoImplicit false

namespace ItemStore.InPlace

/-! ## Steps -/

/-- Works on the count and the tables. -/
def onProgress {α : Type} (x : InPlace Progress α) : InPlace Workbench α :=
  x.onPart Workbench.progress fun progress w => { w with progress }

/-- Keeps the tables of an expression that was compiled for itself. -/
def keep (compiled : Compiled) : InPlace Workbench Yield := do
  modify fun w => { w with last := compiled.bindings }
  pure (.compiled compiled)

/-- Takes a step. Each case is what a caller does who holds one `CompileContext` and one
`Placeholders` and passes them on. -/
def step (schema : Schema) : Step → InPlace Workbench Yield
  | .condition c .shared => do
    let text ← onProgress (compileInto schema c)
    pure (.expression text)
  | .condition c .own => do
    let compiled ← onProgress (compileWith schema c)
    keep compiled
  | .condition c .fresh => do
    let compiled ← ofExcept (run (compileWith schema c) .start).1
    keep compiled
  | .projection paths .shared => do
    let text ← onProgress (onBindings (projectInto schema paths))
    pure (.expression text)
  | .projection paths _ => do
    let (result, own) := run (projectInto schema paths) .empty
    let expression ← ofExcept result
    keep { expression, bindings := own }
  | .update actions => do
    let compiled ← ofExcept (compileUpdate schema actions)
    keep compiled
  | .bindName token name => do
    onProgress (onBindings (bindName token name))
    pure .bound
  | .bindValue token value => do
    onProgress (onBindings (bindValue token value))
    pure .bound
  | .bindPath path suffix => do
    let text ← onProgress (onBindings (bindPath path suffix))
    pure (.expression text)
  | .mergeLast => do
    let theirs := (← get).last
    onProgress (onBindings (merge theirs))
    pure .merged
  | .merge names values => do
    let theirs ← ofExcept (Bindings.ofPairs names values)
    onProgress (onBindings (merge theirs))
    pure .merged
  | .tokens path suffix =>
    let pairs := path.nameTokens suffix
    pure (.tokens (dotted (pairs.map Prod.fst)) pairs (path.valueToken suffix))

/-- Takes several steps, each with a schema, whatever comes of them. A step that fails does not
end the run, as a caller may go on after an error. -/
def steps : List (Schema × Step) → Workbench → List (Except Error Yield) × Workbench
  | [], w => ([], w)
  | (schema, s) :: rest, w =>
    let (result, w) := run (step schema s) w
    let (results, w) := steps rest w
    (result :: results, w)

/-- The shared tables are in order. The tables of the last expression are left out, since merging
asks nothing of them. -/
def Ready (w : Workbench) : Prop := w.progress.bindings.Sorted

theorem Commits.onProgress {α : Type} {x : InPlace Progress α}
    {f : Progress → Except Error (α × Progress)} (hx : Commits InOrder x f) :
    Commits Ready (InPlace.onProgress x) fun w =>
      (f w.progress).map fun r => (r.1, { w with progress := r.2 }) :=
  hx.onPart (fun _ hw => hw) (fun _ _ _ hp => hp) fun _ => rfl

/-- A step that yields something as it ends. -/
theorem Commits.yields {α : Type} {x : InPlace Workbench α}
    {f : Workbench → Except Error (α × Workbench)} (hx : Commits Ready x f) (yield : α → Yield) :
    Commits Ready (x >>= fun a => Pure.pure (yield a)) fun w =>
      f w >>= fun r => .ok (yield r.1, r.2) :=
  hx.andThen (h := fun a w => (yield a, w)) (fun _ _ => rfl) fun _ _ hw => hw

/-- A step that keeps the tables of what it has compiled. -/
theorem Commits.keeps {x : InPlace Workbench Compiled}
    {f : Workbench → Except Error (Compiled × Workbench)} (hx : Commits Ready x f) :
    Commits Ready (x >>= keep) fun w =>
      f w >>= fun r => .ok (.compiled r.1, { r.2 with last := r.1.bindings }) :=
  hx.andThen
    (h := fun compiled w => (Yield.compiled compiled, { w with last := compiled.bindings }))
    (fun _ _ => rfl) fun _ _ hw => hw

theorem commits_keep (compiled : Compiled) : Commits Ready (keep compiled) fun w =>
    .ok (.compiled compiled, { w with last := compiled.bindings }) := by
  have hcompiled : Commits Ready (pure compiled) fun w => .ok (compiled, w) := .pure compiled
  exact hcompiled.keeps

theorem run_compileWith_start (schema : Schema) (c : Condition) :
    (run (compileWith schema c) .start).1 = c.compileAlone schema := by
  have hposition : Progress.start.position = 0 := rfl
  rw [(commits_compileWith schema c).run_eq (s := .start) Bindings.sorted_empty, hposition,
    Condition.compileAlone]
  cases c.compileFrom schema 0 <;> rfl

/-- A projection that is compiled for itself is compiled into empty tables. -/
theorem commits_projectAlone (schema : Schema) (paths : List Path) :
    Commits Ready
      (ofExcept (run (projectInto schema paths) .empty).1 >>= fun expression =>
        keep { expression, bindings := (run (projectInto schema paths) .empty).2 })
      fun w => compileProjectionAlone schema paths >>= fun compiled =>
        .ok (.compiled compiled, { w with last := compiled.bindings }) := by
  rw [(commits_projectInto schema paths).run_eq Bindings.sorted_empty]
  cases hproject : compileProjection schema paths .empty with
  | ok r =>
    obtain ⟨expression, bindings⟩ := r
    refine (commits_keep { expression, bindings }).congr fun w => ?_
    rw [compileProjectionAlone, hproject]
    rfl
  | error e =>
    refine (Commits.throw e).congr fun w => ?_
    rw [compileProjectionAlone, hproject]
    rfl

/-- Merging given tables. -/
theorem commits_mergeShared (theirs : Bindings) :
    Commits Ready (InPlace.onProgress (InPlace.onBindings (merge theirs)) >>= fun _ =>
        pure Yield.merged)
      fun w => w.progress.bindings.merge theirs >>= fun bindings =>
        .ok (.merged, w.withBindings bindings) := by
  refine ((commits_merge theirs).onBindings.onProgress.yields fun _ => .merged).congr fun w => ?_
  cases w.progress.bindings.merge theirs <;> rfl

/-- **A step commits.** It does on a workbench that is changed in place what it does otherwise. So
an operation in place and one that returns its result cannot be told apart from outside. -/
theorem commits_step (schema : Schema) (s : Step) :
    Commits Ready (step schema s) fun w => w.attempt schema s := by
  cases s with
  | condition c destination =>
    cases destination with
    | shared =>
      refine ((commits_compileInto schema c).onProgress.yields Yield.expression).congr fun w => ?_
      rw [Workbench.attempt]
      cases c.compile schema w.progress <;> rfl
    | own =>
      refine (commits_compileWith schema c).onProgress.keeps.congr fun w => ?_
      rw [Workbench.attempt]
      cases c.compileFrom schema w.progress.position <;> rfl
    | fresh =>
      rw [step, run_compileWith_start]
      exact Commits.ofExcept commits_keep
  | projection paths destination =>
    cases destination with
    | shared =>
      refine ((commits_projectInto schema paths).onBindings.onProgress.yields
        Yield.expression).congr fun w => ?_
      rw [Workbench.attempt]
      cases compileProjection schema paths w.progress.bindings <;> rfl
    | own | fresh => exact commits_projectAlone schema paths
  | update actions =>
    exact Commits.ofExcept commits_keep
  | bindName token name =>
    refine ((commits_bindName token name).onBindings.onProgress.yields fun _ => .bound).congr
      fun w => ?_
    rw [Workbench.attempt]
    cases w.progress.bindings.bindName token name <;> rfl
  | bindValue token value =>
    refine ((commits_bindValue token value).onBindings.onProgress.yields fun _ => .bound).congr
      fun w => ?_
    rw [Workbench.attempt]
    cases w.progress.bindings.bindValue token value <;> rfl
  | bindPath path suffix =>
    exact (commits_bindPath path suffix).onBindings.onProgress.yields Yield.expression
  | mergeLast => exact Commits.reading Workbench.last commits_mergeShared
  | merge names values => exact Commits.ofExcept commits_mergeShared
  | tokens path suffix => exact .pure _

/-! ## Runs -/

theorem run_step (schema : Schema) (s : Step) {w : Workbench} (hw : Ready w) :
    run (step schema s) w = w.run schema s := by
  rw [(commits_step schema s).run_eq hw, Workbench.run]
  cases w.attempt schema s <;> rfl

theorem Ready.step {w : Workbench} (hw : Ready w) (schema : Schema) (s : Step) :
    Ready (w.run schema s).2 := by
  rw [Workbench.run]
  cases h : w.attempt schema s with
  | ok r =>
    obtain ⟨yield, w'⟩ := r
    exact ((commits_step schema s).ok w yield w' hw h).2
  | error e => exact hw

theorem steps_cons (schema : Schema) (s : Step) (todo : List (Schema × Step)) {w : Workbench}
    (hw : Ready w) :
    steps ((schema, s) :: todo) w =
      ((w.run schema s).1 :: (steps todo (w.run schema s).2).1,
        (steps todo (w.run schema s).2).2) := by
  rw [steps, run_step schema s hw]

/-- **A run does not depend on the kind of workbench.** What is asked of the workbench holds of
the one that is started with. -/
theorem steps_eq_runAll (schema : Schema) (todo : List Step) {w : Workbench} (hw : Ready w) :
    steps (todo.map fun s => (schema, s)) w = w.runAll schema todo := by
  induction todo generalizing w with
  | nil => rfl
  | cons s todo ih =>
    rw [List.map_cons, steps_cons schema s _ hw, ih (hw.step schema s), Workbench.runAll]

/-- The steps that were successful. It is told by the results alone. -/
def succeeding (todo : List (Schema × Step)) (results : List (Except Error Yield)) :
    List (Schema × Step) :=
  ((todo.zip results).filter fun attempt => attempt.2.isOk).map Prod.fst

theorem steps_succeeding (todo : List (Schema × Step)) {w : Workbench} (hw : Ready w) :
    steps (succeeding todo (steps todo w).1) w =
      ((steps todo w).1.filter Except.isOk, (steps todo w).2) := by
  induction todo generalizing w with
  | nil => rfl
  | cons entry todo ih =>
    obtain ⟨schema, s⟩ := entry
    rw [steps_cons schema s todo hw]
    cases h : w.attempt schema s with
    | ok r =>
      obtain ⟨yield, w'⟩ := r
      have hrun : w.run schema s = (.ok yield, w') := by rw [Workbench.run, h]
      have hw' : Ready w' := ((commits_step schema s).ok w yield w' hw h).2
      have hkept : succeeding ((schema, s) :: todo) (.ok yield :: (steps todo w').1) =
          (schema, s) :: succeeding todo (steps todo w').1 := rfl
      rw [hrun, hkept, steps_cons schema s _ hw, hrun, ih hw']
      rfl
    | error e =>
      -- the rest is taken from where the failing step started
      have hrun : w.run schema s = (.error e, w) := by rw [Workbench.run, h]
      have hleft : succeeding ((schema, s) :: todo) (.error e :: (steps todo w).1) =
          succeeding todo (steps todo w).1 := rfl
      rw [hrun, hleft, ih hw]
      rfl

/-- **Failing steps are invisible.** Whether a workbench is changed in place makes no difference
to a run, and leaving out the steps that failed changes neither what comes of the others nor the
count and the tables in the end. The first part makes the second one meaningful: that leaving out
failures is harmless is plain for a function that returns its result, and has to be shown for a
state that is changed in place. The tables are in order from the beginning in any run, so the
hypothesis only excludes tables made up by hand. -/
theorem failing_steps_invisible {w : Workbench} (hw : w.progress.bindings.Sorted) :
    (∀ schema todo, steps (todo.map fun s => (schema, s)) w = w.runAll schema todo) ∧
    ∀ todo, steps (succeeding todo (steps todo w).1) w =
      ((steps todo w).1.filter Except.isOk, (steps todo w).2) :=
  ⟨fun schema todo => steps_eq_runAll schema todo hw, fun todo => steps_succeeding todo hw⟩

/-- A run in which every step that can fail fails once, one merge because of the values. -/
def mixedRun : List (Schema × Step) :=
  [.condition lateFault .shared,
   .bindName "#x" "a",
   .bindName "#x" "b",
   .condition lateFault .own,
   .merge [("#y", "b")] [(":v", .string "one")],
   .merge [("#z", "c")] [(":v", .string "two")],
   .bindValue ":v" (.string "three"),
   .projection [⟨"name"⟩, ⟨"age"⟩] .shared,
   .bindPath ⟨"id"⟩ "",
   .condition (.test ⟨"name"⟩ .eq (.single (.string "Ann"))) .shared].map fun s => (named, s)

theorem mixedRun_failures_invisible : Workbench.start.progress.bindings.Sorted ∧
    (steps mixedRun .start).1.map Except.isOk =
      [false, true, false, false, true, false, false, false, true, true] ∧
    (steps mixedRun .start).2.progress.bindings.names =
      [("#id", "id"), ("#name_0", "name"), ("#x", "a"), ("#y", "b")] ∧
    steps (succeeding mixedRun (steps mixedRun .start).1) .start =
      ((steps mixedRun .start).1.filter Except.isOk, (steps mixedRun .start).2) := by
  refine ⟨Bindings.sorted_empty, by decide +kernel, by decide +kernel, ?_⟩
  exact (failing_steps_invisible Bindings.sorted_empty).2 mixedRun

/-! ## Turns -/

/-- What a turn yields, and what it leaves of tables that are changed in place. -/
def turn (t : Turn) (b : Bindings) : Except Error Yield × Bindings :=
  let w : Workbench := { progress := { position := t.position, bindings := b }, last := t.last }
  let (yield, w) := run (step t.schema t.step) w
  (yield, w.progress.bindings)

/-- Tables that are changed in place, after some turns, of which any may fail. -/
def after (b : Bindings) (turns : List Turn) : Bindings :=
  turns.foldl (fun b t => (turn t b).2) b

/-- A turn that fails halfway leaves the tables as they were, here as well. -/
theorem turn_eq {b : Bindings} (hb : b.Sorted) (t : Turn) : turn t b = t.run b := by
  have hready :
      Ready { progress := { position := t.position, bindings := b }, last := t.last } := hb
  rw [turn, run_step t.schema t.step hready]
  rfl

theorem sorted_turn {b : Bindings} (hb : b.Sorted) (t : Turn) : (t.run b).2.Sorted := by
  have hready :
      Ready { progress := { position := t.position, bindings := b }, last := t.last } := hb
  exact hready.step t.schema t.step

theorem after_eq {b : Bindings} (hb : b.Sorted) (turns : List Turn) :
    after b turns = b.after turns := by
  induction turns generalizing b with
  | nil => rfl
  | cons t turns ih =>
    have hrest := ih (sorted_turn hb t)
    rw [← turn_eq hb] at hrest
    rw [after, List.foldl_cons, ← after, hrest, turn_eq hb]
    rfl

theorem sorted_after {b : Bindings} (hb : b.Sorted) (turns : List Turn) :
    (after b turns).Sorted := by
  rw [after_eq hb]
  induction turns generalizing b with
  | nil => exact hb
  | cons t turns ih => exact ih (sorted_turn hb t)

/-- Whatever is done, tokens keep what they stand for. -/
theorem keeps_after {b : Bindings} (hb : b.Sorted) (turns : List Turn) :
    b.Keeps (after b turns) := by
  rw [after_eq hb]
  exact b.keeps_after turns

end ItemStore.InPlace
