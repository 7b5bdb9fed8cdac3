import ItemStore.Expression.Condition
import ItemStore.Expression.Projection
import ItemStore.Expression.Update

/-
Compiling step by step.

Expressions that belong to one operation share a count and a pair of tables, and
expressions that are compiled for themselves can be merged in later. A workbench
holds the shared state and the tables of the last expression that was compiled for
itself; a step works on it and either succeeds or leaves it exactly as it was.
-/
set_option autoImplicit false

namespace ItemStore

/-- Where the tokens of a condition or projection go. The three are `compile_into`,
`compile_with` and `compile`. -/
inductive Destination where
  /-- Into the shared tables. -/
  | shared
  /-- Into tables of its own, but with the shared count. -/
  | own
  /-- Into tables of its own, with a count of its own. -/
  | fresh
  deriving DecidableEq, Repr

/-- One step on a workbench. -/
inductive Step where
  | condition (c : Condition) (destination : Destination)
  | projection (paths : List Path) (destination : Destination)
  | update (actions : List Action)
  | bindName (token name : String)
  | bindValue (token : String) (value : Descriptor)
  | bindPath (path : Path) (suffix : String)
  /-- Merges the tables of the last expression that was compiled for itself. -/
  | mergeLast
  /-- Merges tables that arise from some bindings. -/
  | merge (names : List (String × String)) (values : List (String × Descriptor))
  /-- Shows the tokens of a path without binding them. -/
  | tokens (path : Path) (suffix : String)

/-- What a successful step yields. -/
inductive Yield where
  /-- An expression over the shared tables. -/
  | expression (text : String)
  /-- An expression with its own tables. -/
  | compiled (c : Compiled)
  | bound
  | merged
  /-- The spelling of a path's tokens. -/
  | tokens (expression : String) (pairs : List (String × String)) (value : String)

/-- The shared state of some steps. Its tables are what a request would be sent with, if
the steps were those of one operation. -/
structure Workbench where
  progress : Progress
  /-- The tables of the last expression that was compiled for itself. -/
  last : Bindings

namespace Workbench

/-- Nothing is compiled. -/
def start : Workbench := { progress := .start, last := .empty }

/-- The workbench with other shared tables. -/
def withBindings (w : Workbench) (bindings : Bindings) : Workbench :=
  { w with progress := { w.progress with bindings } }

/-- What a step yields and what it makes of the workbench. Each case is one of the
operations of this part of the library, put on the shared state. -/
def attempt (schema : Schema) (w : Workbench) : Step → Except Error (Yield × Workbench)
  | .condition c .shared => do
    let (text, progress) ← c.compile schema w.progress
    .ok (.expression text, { w with progress })
  | .condition c .own => do
    let (compiled, position) ← c.compileFrom schema w.progress.position
    .ok (.compiled compiled,
      { progress := { w.progress with position }, last := compiled.bindings })
  | .condition c .fresh => do
    let compiled ← c.compileAlone schema
    .ok (.compiled compiled, { w with last := compiled.bindings })
  | .projection paths .shared => do
    let (text, bindings) ← compileProjection schema paths w.progress.bindings
    .ok (.expression text, w.withBindings bindings)
  | .projection paths _ => do
    let compiled ← compileProjectionAlone schema paths
    .ok (.compiled compiled, { w with last := compiled.bindings })
  | .update actions => do
    let compiled ← compileUpdate schema actions
    .ok (.compiled compiled, { w with last := compiled.bindings })
  | .bindName token name => do
    let bindings ← w.progress.bindings.bindName token name
    .ok (.bound, w.withBindings bindings)
  | .bindValue token value => do
    let bindings ← w.progress.bindings.bindValue token value
    .ok (.bound, w.withBindings bindings)
  | .bindPath path suffix =>
    let (text, bindings) := w.progress.bindings.bindPath path suffix
    .ok (.expression text, w.withBindings bindings)
  | .mergeLast => do
    let bindings ← w.progress.bindings.merge w.last
    .ok (.merged, w.withBindings bindings)
  | .merge names values => do
    let theirs ← Bindings.ofPairs names values
    let bindings ← w.progress.bindings.merge theirs
    .ok (.merged, w.withBindings bindings)
  | .tokens path suffix =>
    let pairs := path.nameTokens suffix
    .ok (.tokens (dotted (pairs.map Prod.fst)) pairs (path.valueToken suffix), w)

/-- Takes a step. A step that fails leaves the workbench as it was. That is where an
operation that works in place and one that returns its result agree: nothing of a failed
step is kept. -/
def run (schema : Schema) (w : Workbench) (step : Step) : Except Error Yield × Workbench :=
  match w.attempt schema step with
  | .ok (yield, w) => (.ok yield, w)
  | .error e => (.error e, w)

/-- Takes several steps. -/
def runAll (schema : Schema) (w : Workbench) :
    List Step → List (Except Error Yield) × Workbench
  | [] => ([], w)
  | step :: steps =>
    let (result, w) := w.run schema step
    let (results, w) := w.runAll schema steps
    (result :: results, w)

end Workbench

end ItemStore
