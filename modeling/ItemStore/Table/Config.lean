import ItemStore.Request.Record
import ItemStore.Schema.Decode

/-
The configuration of a table.

It says which table of the store is meant and how strictly its items are decoded.
A program that is not told otherwise works on `main` and decodes strictly. The
configuration is either a record in a text or taken from two settings of the
environment.

The configuration is `DynaqlConfig`; `from_env` and `default` are `ofSettings` and
`default`.
-/
set_option autoImplicit false

namespace ItemStore

open Json

/-- The spelling of a decode mode. -/
def DecodeMode.text : DecodeMode → String
  | .strict => "strict"
  | .lenient => "lenient"

/-- The decode mode with a given spelling. -/
def DecodeMode.ofText? (text : String) : Option DecodeMode :=
  [DecodeMode.strict, DecodeMode.lenient].find? fun mode => mode.text = text

/-- What leaving the decode mode out means. -/
def DecodeMode.default : DecodeMode := .strict

/-- The configuration of a table. -/
structure Config where
  /-- The name of the table in the store. -/
  tableName : String
  /-- How items from the table are decoded. -/
  decodeMode : DecodeMode
  deriving DecidableEq, Repr

namespace Config

/-- What a table has that is not configured. -/
def default : Config := { tableName := "main", decodeMode := .strict }

/-- The spellings of a setting that is switched on. -/
def yesWords : List String := ["1", "true", "yes", "TRUE", "YES"]

/-- The configuration from the settings for the table's name and for strict decoding.
Strictness is only lost to a setting that is there and does not say yes. This is
`from_env`. A setting that cannot be understood makes decoding lenient, so it is not the
same as one that is absent. -/
def ofSettings (name strict : Option String) : Config where
  tableName := name.getD default.tableName
  decodeMode :=
    match strict with
    | some word => if word ∈ yesWords then .strict else .lenient
    | none => default.decodeMode

/-- The document a configuration travels as. -/
def toDocument (c : Config) : Document :=
  .record [("table_name", .string c.tableName), ("decode_mode", .string c.decodeMode.text)]

/-- The wire text of a configuration. -/
def wire (c : Config) : String := c.toDocument.render

/-- How a configuration is read. -/
def shape : RecordShape Config where
  initial := default
  members := ["table_name", "decode_mode"]
  required := ["table_name", "decode_mode"]
  lacking := []
  set name d c :=
    match name with
    | "table_name" => (Descriptor.stringOfDocument d).map fun tableName => { c with tableName }
    | _ =>
      (choiceOfDocument DecodeMode.ofText? isNull d).map fun decodeMode => { c with decodeMode }

/-- The configuration of a wire text. -/
def read (text : String) : Except Refusal Config := shape.readText text

end Config

end ItemStore
