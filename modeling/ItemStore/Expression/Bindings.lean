import ItemStore.Descriptor
import ItemStore.Schema.Path

/-
Tokens and what they stand for.

An expression never contains an attribute name or a value; it contains tokens, and
two tables that are sent along say what the tokens stand for. A token may be bound
again to what it stands for already, and to nothing else. Tables are kept in
ascending order of their tokens.

Name tokens are spelled after the segments of a path, and different segments can
have the same spelling. So a segment whose token stands for another segment takes
the next variant of that token that is free; values have no such freedom, and a
value token that is taken is a conflict.

The tables are `Placeholders`. What is done to them in place there, `bind_name`,
`bind_value`, `bind_path` and `merge`, here gives new tables back, and a failure gives
none, so that it cannot leave anything behind.
-/
set_option autoImplicit false

namespace ItemStore

/-! ## The spelling of tokens -/

/-- What a nonempty suffix adds to a token. -/
def tokenTail (suffix : String) : String := if suffix = "" then "" else "_" ++ suffix

/-- The token for one segment of a path; a segment without usable characters is `_`.
This is one token of `name_placeholder`. -/
def nameToken (suffix segment : String) : String :=
  let word := Path.sanitize segment
  "#" ++ (if word = "" then "_" else word) ++ tokenTail suffix

/-- The tokens for the segments of a path, each with its segment. This is
`name_placeholder`. The tokens are only asked for: which ones a path gets is decided
when it is bound. -/
def Path.nameTokens (p : Path) (suffix : String) : List (String × String) :=
  p.segments.map fun segment => (nameToken suffix segment, segment)

/-- The token for a value that is compared with or assigned to the attribute at a path.
This is `value_placeholder`. There is one for the path as a whole, however many segments
it has. -/
def Path.valueToken (p : Path) (suffix : String) : String := ":" ++ p.word ++ tokenTail suffix

/-- A path in an expression: the tokens of its segments with dots between them. -/
def dotted (tokens : List String) : String := ".".intercalate tokens

/-! ## Tables -/

/-- What the tokens of an expression stand for. This is `Placeholders`. Both tables go
with a request as they are, so their order is part of its wire text. -/
structure Bindings where
  /-- Name tokens and attribute names. -/
  names : List (String × String)
  /-- Value tokens and values. -/
  values : List (String × Descriptor)

namespace Bindings

/-- No token stands for anything. -/
def empty : Bindings := { names := [], values := [] }

/-- Whether no token stands for anything. This is `is_empty`. -/
def isEmpty (b : Bindings) : Bool := b.names.isEmpty && b.values.isEmpty

/-- Adds a token to a table, unless it stands for something else there. This is `bind`.
What counts as something else is a parameter, because names are compared with `=` and
values up to the order of the entries of maps. -/
def bindIn {α : Type} (same : α → α → Bool) (token : String) (target : α)
    (table : List (String × α)) : Except Error (List (String × α)) :=
  match Entries.get? token table with
  | some bound => if same bound target then .ok table else .error (.placeholderConflict token)
  | none => .ok (Entries.insertSorted token target table)

/-- Binds a name token. This is `bind_name`. -/
def bindName (b : Bindings) (token name : String) : Except Error Bindings :=
  (bindIn (· = ·) token name b.names).map fun names => { b with names }

/-- Binds a value token. This is `bind_value`. -/
def bindValue (b : Bindings) (token : String) (value : Descriptor) : Except Error Bindings :=
  (bindIn Descriptor.same token value b.values).map fun values => { b with values }

/-! ## Binding a path -/

/-- The variants of a token: the token itself, then with the tails `_1`, `_2`, …. -/
def tokenVariant (token : String) : Nat → String
  | 0 => token
  | n + 1 => token ++ "_" ++ toString (n + 1)

/-- Whether a token may stand for a segment: it is free or does so already. A token that
stands for the segment already is as good as a free one, which is why the same segment
always gets the same token. -/
def isUsable (names : List (String × String)) (segment token : String) : Bool :=
  match Entries.get? token names with
  | some bound => bound = segment
  | none => true

/-- The first usable variant from the `n`-th one on; `bound` variants are tried. The
search is `free_name_token` with a bound, so that it ends by the shape of its arguments;
that the bound is never what ends it is proved with `freeToken`. -/
def firstUsable (names : List (String × String)) (segment token : String) :
    (bound : Nat) → (n : Nat) → String
  -- not reached from `freeToken`
  | 0, n => tokenVariant token n
  | bound + 1, n =>
    if isUsable names segment (tokenVariant token n) then tokenVariant token n
    else firstUsable names segment token bound (n + 1)

/-- The token that stands for a segment: the first usable variant of the given one. The
variants are all different, so among as many as there are bound names and one more at
least one is free. This is `free_name_token`. -/
def freeToken (names : List (String × String)) (segment token : String) : String :=
  firstUsable names segment token (names.length + 1) 0

/-- Binds the tokens of several segments; the result names the tokens that were taken. -/
def bindSegments (names : List (String × String)) :
    List (String × String) → List String × List (String × String)
  | [] => ([], names)
  | (token, segment) :: segments =>
    let token := freeToken names segment token
    -- the next segment finds this one in the table already
    let (tokens, names) :=
      bindSegments (Entries.insertSorted token segment names) segments
    (token :: tokens, names)

/-- Binds the segments of a path and gives its form in an expression. This is
`bind_path`. It cannot fail, because there always is a usable variant, and the value
tables are not touched. -/
def bindPath (b : Bindings) (p : Path) (suffix : String) : String × Bindings :=
  let (tokens, names) := bindSegments b.names (p.nameTokens suffix)
  (dotted tokens, { b with names })

/-! ## Putting tables together -/

/-- The first token of the second table that stands for something else in the first.
This is `check_disjoint`. The second table leads, so the clash that is told is the first
in the order of its tokens. -/
def clash? {α : Type} (same : α → α → Bool) (ours theirs : List (String × α)) : Option String :=
  theirs.findSome? fun (token, target) =>
    match Entries.get? token ours with
    | some bound => if same bound target then none else some token
    | none => none

/-- Adds everything in the second table to the first. -/
def extend {α : Type} (ours theirs : List (String × α)) : List (String × α) :=
  theirs.foldl (fun table (token, target) => Entries.insertSorted token target table) ours

/-- The union of two pairs of tables that agree on the tokens they share; names are
compared before values. This is `merge`. Both tables are compared before either is
filled, so tables that clash are as they were. -/
def merge (ours theirs : Bindings) : Except Error Bindings :=
  match clash? (· = ·) ours.names theirs.names with
  | some token => .error (.placeholderConflict token)
  | none =>
    match clash? Descriptor.same ours.values theirs.values with
    | some token => .error (.placeholderConflict token)
    | none =>
      .ok { names := extend ours.names theirs.names, values := extend ours.values theirs.values }

/-- The tables that arise from binding some names and then some values, one after the
other. -/
def ofPairs (names : List (String × String)) (values : List (String × Descriptor)) :
    Except Error Bindings := do
  let b ← names.foldlM (fun b (token, name) => b.bindName token name) empty
  values.foldlM (fun b (token, value) => b.bindValue token value) b

end Bindings

/-- An expression together with its own tables. -/
structure Compiled where
  expression : String
  bindings : Bindings

end ItemStore
