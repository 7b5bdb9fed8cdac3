import ItemStore.Table

/-
The table of a shop, to try things out with.

Users and their orders share a table; what they share beside it are the two key
attributes. An index shows users by their email.

The table is `shop_table`.
-/
set_option autoImplicit false

namespace ItemStore.Shop

/-- The modifiers of an attribute that may be missing. -/
def mayBeMissing : Modifiers := { nullable := false, optional := true }

/-- A text that has to be there. -/
def text : Schema := .ofKind .string

/-- A number that has to be there. -/
def number : Schema := .ofKind .number

/-- The key attributes of users and orders. -/
def keyFields : List (String × Schema) :=
  [("pk", .partitionKey .none text), ("sk", .sortKey .none text)]

/-- The fields of a user. -/
def userFields : List (String × Schema) :=
  keyFields ++
    [("name", text), ("email", text), ("visits", number), ("joined", .ofKind .date),
      ("roles", .set mayBeMissing .string),
      ("address",
        .map mayBeMissing [("city", text), ("zip", .scalar mayBeMissing .string)]),
      ("history", .list mayBeMissing text),
      ("nickname", .scalar { nullable := true, optional := true } .string)]

/-- The fields of an order. -/
def orderFields : List (String × Schema) :=
  keyFields ++
    [("total", number),
      ("items", .list .none (.map .none [("sku", text), ("qty", number)]))]

/-- The fields that an index by email shows of a user. -/
def emailFields : List (String × Schema) :=
  [("email", .partitionKey .none text), ("pk", text), ("sk", text), ("name", text)]

/-- The declaration of the table. -/
def declaration : TableDeclaration :=
  .mk [("users", userFields), ("orders", orderFields)]
    [("by_email", .mk [("users", emailFields)] [])]

/-- The configuration of the table, for a decode mode. -/
def config (decodeMode : DecodeMode) : Config := { tableName := "shop", decodeMode }

/-- The table, for a decode mode. -/
def table (decodeMode : DecodeMode) : Except Error Table :=
  declaration.build.map fun schema => { schema, config := config decodeMode }

end ItemStore.Shop
