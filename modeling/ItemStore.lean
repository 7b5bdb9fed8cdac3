import ItemStore.Decimal.Digits
import ItemStore.Decimal.Read
import ItemStore.Decimal.Shortest
import ItemStore.Decimal.Text
import ItemStore.Descriptor
import ItemStore.Descriptor.Wire
import ItemStore.Draft
import ItemStore.Draft.Build
import ItemStore.Draft.Run
import ItemStore.Entries
import ItemStore.Error
import ItemStore.Expression.Bindings
import ItemStore.Expression.Condition
import ItemStore.Expression.Operator
import ItemStore.Expression.Projection
import ItemStore.Expression.Update
import ItemStore.Expression.Workbench
import ItemStore.Json.Document
import ItemStore.Json.Number
import ItemStore.Json.Scan
import ItemStore.Json.Skip
import ItemStore.Json.Text
import ItemStore.Kind
import ItemStore.Memory.Fault
import ItemStore.Memory.Shop
import ItemStore.Memory.Store
import ItemStore.Memory.Update
import ItemStore.Request
import ItemStore.Request.Options
import ItemStore.Request.Record
import ItemStore.Request.Wire
import ItemStore.Schema
import ItemStore.Schema.Decode
import ItemStore.Schema.Encode
import ItemStore.Schema.Key
import ItemStore.Schema.Path
import ItemStore.Schema.Table
import ItemStore.Table
import ItemStore.Table.Config
import ItemStore.Text.Base64
import ItemStore.Text.Blank
import ItemStore.Text.Printable
import ItemStore.Text.Quoted
import ItemStore.Text.Split
import ItemStore.Time.Calendar
import ItemStore.Time.Instant
import ItemStore.Value
import ItemStore.Value.Json
import ItemStore.Proofs.Entries
import ItemStore.Proofs.Expression.Growth
import ItemStore.Proofs.Expression.Test
import ItemStore.Proofs.Expression.Occurrence
import ItemStore.Proofs.Expression.Leaves
import ItemStore.Proofs.Expression.Actions
import ItemStore.Proofs.Expression.Balance
import ItemStore.Proofs.Draft.Placeholders
import ItemStore.Proofs.Expression.Fresh
import ItemStore.Proofs.Expression.Conflict
import ItemStore.Proofs.Draft.ValueTokens
import ItemStore.Proofs.Expression.Lexer
import ItemStore.Proofs.Expression.Grammar
import ItemStore.Proofs.Expression.Reading
import ItemStore.Proofs.Decimal.Digits
import ItemStore.Proofs.Time.Calendar
import ItemStore.Proofs.Time.Instant
import ItemStore.Proofs.Schema.Normal
import ItemStore.Proofs.Schema.RoundTrip
import ItemStore.Proofs.Decimal.Double
import ItemStore.Proofs.Decimal.Nearest
import ItemStore.Proofs.Expression.Acceptance
import ItemStore.Proofs.Schema.Descent
import ItemStore.Proofs.Draft.Agreement
import ItemStore.Proofs.Descriptor.Same
import ItemStore.Proofs.Expression.History
import ItemStore.Proofs.Json.Number
import ItemStore.Proofs.Json.Scan
import ItemStore.Proofs.Descriptor.WireForm
import ItemStore.Proofs.Schema.Key
import ItemStore.Proofs.Schema.Decoding
import ItemStore.Proofs.Memory.Frame
import ItemStore.Proofs.Memory.Recall
import ItemStore.Proofs.Decimal.Compact
import ItemStore.Proofs.Json.Nearest
import ItemStore.Proofs.Schema.Transparency
import ItemStore.Proofs.Schema.Alike
import ItemStore.Proofs.Schema.Congruence
import ItemStore.Proofs.Schema.Combined
import ItemStore.Proofs.Expression.Covering
import ItemStore.Proofs.Table.Agreement
import ItemStore.Proofs.Text.Cut
import ItemStore.Proofs.Expression.Clauses
import ItemStore.Proofs.Memory.UpdateText
import ItemStore.Proofs.Memory.Clauses
import ItemStore.Proofs.Memory.Meaning
import ItemStore.Proofs.Schema.Holding
import ItemStore.Proofs.Memory.Validity
import ItemStore.Proofs.Memory.KeyAttributes
import ItemStore.Proofs.Memory.Filing
import ItemStore.Proofs.Request.Record
import ItemStore.Proofs.Request.WireForm
import ItemStore.Proofs.Schema.Legible
import ItemStore.Proofs.Memory.Halfway
import ItemStore.Proofs.Draft.KeyPaths
import ItemStore.Proofs.Expression.Merging
import ItemStore.Proofs.Expression.Legality
import ItemStore.Proofs.Expression.Overlap
import ItemStore.Proofs.Draft.Guard
import ItemStore.Proofs.InPlace
import ItemStore.Proofs.Expression.InPlace
import ItemStore.Proofs.Expression.Failures
import ItemStore.Proofs.Schema.Pruning
import ItemStore.Proofs.Schema.Places
import ItemStore.Proofs.Schema.Parts
import ItemStore.Proofs.Schema.Declared
import ItemStore.Proofs.Expression.Projection
import ItemStore.Proofs.Walk
import ItemStore.Proofs.Schema.Repetition
import ItemStore.Proofs.Expression.Union
import ItemStore.Proofs.Schema.Inspection
import ItemStore.Proofs.Table.Construction
import ItemStore.Proofs.Schema.Resolution
import ItemStore.Proofs.Json.Grammar
import ItemStore.Proofs.Json.Reading
import ItemStore.Proofs.Json.Nesting
import ItemStore.Proofs.Value.Json
import ItemStore.Proofs.Text.Base64
import ItemStore.Proofs.Descriptor.Denotation
import ItemStore.Proofs.Expression.Comparison
import ItemStore.Proofs.Descriptor.WireOrder
import ItemStore.Proofs.Memory.Listing
import ItemStore.Proofs.Schema.ItemDecoding
import ItemStore.Proofs.Expression.FreeToken
import ItemStore.Proofs.Expression.Spelling
import ItemStore.Proofs.Draft.Spelling
