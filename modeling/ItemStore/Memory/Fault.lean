import ItemStore.Kind

/-
What a store in memory cannot do.
-/
set_option autoImplicit false

namespace ItemStore.Memory

/-- Why a store refuses a request. Tokens and clauses are shown as they stand in the
request. These are all the ways in which `MemoryRunner` fails. -/
inductive Fault where
  /-- An item or key lacks an attribute that items are filed under. -/
  | keyAttributeMissing (name : String)
  /-- There is an item already. -/
  | conditionFailed
  /-- A key condition does not compare the partition key with a value. -/
  | noPartition
  /-- A clause of an update is not an assignment. -/
  | malformedClause (clause : String)
  /-- A token stands for no attribute; so does a path with several tokens. -/
  | unboundName (token : String)
  /-- A token stands for no value. -/
  | unboundValue (token : String)
  /-- Something is not appended with two arguments. -/
  | malformedAppend
  /-- The attribute that is appended to is not a list. -/
  | appendOn (tag : Tag)
  /-- What is appended is not a list. -/
  | appendWith (tag : Tag)
  /-- The attribute that is calculated with is absent. -/
  | arithmeticOnMissing
  /-- The attribute that is calculated with is not a number. -/
  | arithmeticOnOther
  /-- What is added or subtracted is not a number. -/
  | arithmeticWithOther
  deriving DecidableEq, Repr

/-- The refusal in words. A draft that is executed fails with this text as a transport
error. -/
def Fault.message : Fault → String
  | keyAttributeMissing name => "key attribute '" ++ name ++ "' missing"
  | conditionFailed => "conditional check failed"
  | noPartition => "key condition does not select a partition"
  | malformedClause clause => "malformed SET clause '" ++ clause ++ "'"
  | unboundName token => "unbound or nested name '" ++ token ++ "'"
  | unboundValue token => "unbound value '" ++ token ++ "'"
  | malformedAppend => "malformed list_append"
  | appendOn tag => "list_append on " ++ tag.text
  | appendWith tag => "list_append with " ++ tag.text
  | arithmeticOnMissing => "arithmetic on a missing attribute"
  | arithmeticOnOther => "arithmetic on a non-number"
  | arithmeticWithOther => "arithmetic with a non-number"

end ItemStore.Memory
