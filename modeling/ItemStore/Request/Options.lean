/-
What a request asks for beside its main effect.

Each option is a small enumeration with fixed spellings. An option that is left
out means the same as its default, but it is not the same request: what is left
out is not sent.
-/
set_option autoImplicit false

namespace ItemStore

/-- Which attributes of an item a write returns. A store in memory serves the first two
and, for updates, the values after the write; the spelling of all five is fixed. -/
inductive ReturnValues where
  | nothing
  /-- All of them, from before the write. -/
  | allOld
  /-- Those written, from before the write. -/
  | updatedOld
  /-- All of them, from after the write. -/
  | allNew
  /-- Those written, from after the write. -/
  | updatedNew
  deriving DecidableEq, Repr

/-- The spelling of the option. This is `as_str`. -/
def ReturnValues.text : ReturnValues → String
  | nothing => "NONE"
  | allOld => "ALL_OLD"
  | updatedOld => "UPDATED_OLD"
  | allNew => "ALL_NEW"
  | updatedNew => "UPDATED_NEW"

/-- What leaving the option out means. -/
def ReturnValues.default : ReturnValues := nothing

/-- The option with a given spelling. -/
def ReturnValues.ofText? (text : String) : Option ReturnValues :=
  [nothing, allOld, updatedOld, allNew, updatedNew].find? fun o => o.text = text

/-- What is reported about consumed capacity. -/
inductive CapacityReport where
  /-- The table and every index involved. -/
  | indexes
  | total
  | nothing
  deriving DecidableEq, Repr

/-- The spelling of the option. This is `as_str`. -/
def CapacityReport.text : CapacityReport → String
  | indexes => "INDEXES"
  | total => "TOTAL"
  | nothing => "NONE"

/-- What leaving the option out means. -/
def CapacityReport.default : CapacityReport := nothing

/-- The option with a given spelling. -/
def CapacityReport.ofText? (text : String) : Option CapacityReport :=
  [indexes, total, nothing].find? fun o => o.text = text

/-- What is reported about the collection an item belongs to. -/
inductive CollectionReport where
  /-- An estimate of its size. -/
  | size
  | nothing
  deriving DecidableEq, Repr

/-- The spelling of the option. This is `as_str`. -/
def CollectionReport.text : CollectionReport → String
  | size => "SIZE"
  | nothing => "NONE"

/-- What leaving the option out means. -/
def CollectionReport.default : CollectionReport := nothing

/-- The option with a given spelling. -/
def CollectionReport.ofText? (text : String) : Option CollectionReport :=
  [size, nothing].find? fun o => o.text = text

/-- What a write is asked to report. -/
structure WriteReport where
  values : Option ReturnValues
  capacity : Option CapacityReport
  collection : Option CollectionReport
  deriving DecidableEq, Repr

/-- Nothing is asked for. -/
def WriteReport.none : WriteReport := { values := .none, capacity := .none, collection := .none }

end ItemStore
