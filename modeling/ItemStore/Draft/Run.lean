import ItemStore.Draft.Build
import ItemStore.Schema.Decode

/-
Running drafts.

Whatever carries requests to a store and brings back responses is a transport. It
has a state of its own, which may change with every request, and it may fail. A
draft that cannot be built never reaches it.

A transport is `Runner`; `run`, `execute`, `decode_one` and `decode_all` are the steps
from a draft to decoded values.
-/
set_option autoImplicit false

namespace ItemStore

/-- Something that answers requests, or says why it does not. The state is passed along
explicitly, so what a transport remembers, and what it has changed when it fails, can be
spoken of. -/
abbrev Transport (σ : Type) : Type := Operation → σ → Except String Response × σ

/-- A transport without a state whose every answer is the same. -/
def Transport.constant (answer : Except String Response) : Transport Unit :=
  fun _ _ => (answer, ())

/-- A transport that nobody answers. -/
def Transport.unreachable {σ : Type} : Transport σ := fun operation state =>
  (.error ("connection refused while sending " ++ operation.kind.text), state)

/-- What a response contains, as values. -/
inductive Found where
  /-- The item or the attributes that were asked for, if there are any. -/
  | one (v : Option Value)
  | many (values : List Value)

namespace Draft

/-- Decodes what may be there. -/
def decodeOptional (s : Schema) (mode : DecodeMode) :
    Option Item → Except Error (Option Value)
  | some item => (s.decodeItem mode item).map some
  | none => .ok none

/-- Decodes an item or attributes of an entity. This is `decode_one` with the schema
looked up. An entity that is not known would have been found in building already. -/
def decodeOne (t : Table) (entity : String) (item : Option Item) : Except Error Found := do
  let s ← t.entity entity
  (decodeOptional s t.config.decodeMode item).map .one

/-- Decodes all items of a response about an index or the table. This is `decode_all`.
The first item that cannot be decoded fails all of them. -/
def decodeMany (t : Table) (index : Option String) (items : List Item) :
    Except Error Found := do
  let s ← t.combined index
  (items.mapM (s.decodeItem t.config.decodeMode)).map .many

/-- Decodes what a response to the draft contains. -/
def decode (t : Table) (d : Draft) (r : Response) : Except Error Found :=
  match d with
  | put d => decodeOne t d.entity r.attributes
  | get d => decodeOne t d.entity r.item
  | delete d => decodeOne t d.entity r.attributes
  | update d => decodeOne t d.entity r.attributes
  | query d => decodeMany t d.index r.items
  | scan d => decodeMany t d.index r.items

/-- Builds a draft and sends it. This is `execute`. A failure of the transport is
wrapped, so that a caller can tell it from a draft that could not be built. -/
def execute {σ : Type} (t : Table) (d : Draft) (transport : Transport σ) (state : σ) :
    Except Error Response × σ :=
  match d.build t with
  | .ok operation =>
    let (answer, state) := transport operation state
    (answer.mapError .transport, state)
  | .error e => (.error e, state)

/-- A draft that cannot be built is not sent, whatever the transport is. -/
theorem execute_of_build_eq_error {σ : Type} {t : Table} {d : Draft} {e : Error}
    (h : d.build t = .error e) (transport : Transport σ) (state : σ) :
    d.execute t transport state = (.error e, state) := by
  simp [execute, h]

/-- A draft that can be built is sent as it is built. -/
theorem execute_of_build_eq_ok {σ : Type} {t : Table} {d : Draft} {operation : Operation}
    (h : d.build t = .ok operation) (transport : Transport σ) (state : σ) :
    d.execute t transport state =
      ((transport operation state).1.mapError .transport, (transport operation state).2) := by
  simp [execute, h]

/-- Builds a draft, sends it and decodes the answer. This is `execute_and_decode`. The
state is that of the transport after it has answered, whether or not the answer can be
decoded. -/
def executeAndDecode {σ : Type} (t : Table) (d : Draft) (transport : Transport σ)
    (state : σ) : Except Error Found × σ :=
  let (answer, state) := d.execute t transport state
  (answer.bind (d.decode t), state)

end Draft

end ItemStore
