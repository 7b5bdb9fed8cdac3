import ItemStore.Expression.Bindings

/-
Projections: lists of paths whose attributes are to be returned.

The paths are written one after the other with a comma between them; a path that
was written already is not written again. Whether two paths are the same is seen
from their form in the expression, which tells different paths apart because
different segments never share a token.
-/
set_option autoImplicit false

namespace ItemStore

/-- Compiles paths, given what has been written already; the result goes on from there.
A path that comes again is bound again, which changes nothing, as its segments find
their tokens in the table. -/
def projectPaths (schema : Schema) : (written : List String) → List Path → Bindings →
    Except Error (List String × Bindings)
  | written, [], b => .ok (written, b)
  | written, p :: ps, b => do
    let _ ← schema.resolve p
    -- the path has to be bound to see whether it was written before
    let (part, b) := b.bindPath p ""
    projectPaths schema (if part ∈ written then written else written ++ [part]) ps b

/-- Compiles a projection into given tables. This is `compile_into` of a projection. The
suffix is empty, so projections share the name tokens of nested paths with conditions
and updates. -/
def compileProjection (schema : Schema) (paths : List Path) (b : Bindings) :
    Except Error (String × Bindings) := do
  let (parts, b) ← projectPaths schema [] paths b
  .ok (", ".intercalate parts, b)

/-- Compiles a projection for itself. This is `compile` of a projection. -/
def compileProjectionAlone (schema : Schema) (paths : List Path) : Except Error Compiled := do
  let (expression, bindings) ← compileProjection schema paths .empty
  .ok { expression, bindings }

end ItemStore
