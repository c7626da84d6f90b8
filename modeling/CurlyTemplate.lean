import CurlyTemplate.Main
import CurlyTemplate.Files.Store
import CurlyTemplate.Proofs.Lowering.NormalForm
import CurlyTemplate.Proofs.Lowering.Capture
import CurlyTemplate.Proofs.Source.TagName
import CurlyTemplate.Proofs.Lowering.SelfClosing
import CurlyTemplate.Proofs.Lowering.Content
import CurlyTemplate.Proofs.Lowering.Modifiers
import CurlyTemplate.Proofs.Json.Numerals
import CurlyTemplate.Proofs.Json.Strings
import CurlyTemplate.Proofs.Source.Offsets
import CurlyTemplate.Proofs.Json.Spacing
import CurlyTemplate.Proofs.Json.Values
import CurlyTemplate.Proofs.Decode.Records
import CurlyTemplate.Proofs.Json.ReadBack
import CurlyTemplate.Proofs.Syntax.Encoding
import CurlyTemplate.Proofs.Syntax.RoundTrip
import CurlyTemplate.Proofs.Document.RoundTrip
import CurlyTemplate.Proofs.Json.Holding
import CurlyTemplate.Proofs.Decode.Yields
import CurlyTemplate.Proofs.Syntax.Decoded
import CurlyTemplate.Proofs.Document.Stability
import CurlyTemplate.Proofs.Decimal.Arithmetic
import CurlyTemplate.Proofs.Decimal.Shortest
import CurlyTemplate.Proofs.Decimal.Greatest
import CurlyTemplate.Proofs.Json.Doubles
import CurlyTemplate.Proofs.Decode.Faults
import CurlyTemplate.Proofs.Syntax.Doubles
import CurlyTemplate.Proofs.Syntax.Depth
import CurlyTemplate.Proofs.Document.Acceptance
import CurlyTemplate.Proofs.Lowering.Heads
import CurlyTemplate.Proofs.Lowering.Placeless
import CurlyTemplate.Proofs.Syntax.Unambiguous
import CurlyTemplate.Proofs.Json.Order
import CurlyTemplate.Proofs.Decode.Edits
import CurlyTemplate.Proofs.Decode.Agreement
import CurlyTemplate.Proofs.Decode.EditedRecords
import CurlyTemplate.Proofs.Decode.EditedUnions
import CurlyTemplate.Proofs.Syntax.EditedTrees
import CurlyTemplate.Proofs.Document.Presentation
import CurlyTemplate.Proofs.Tree.Statements
import CurlyTemplate.Proofs.Traversal.Recording
import CurlyTemplate.Proofs.Traversal.Brackets
import CurlyTemplate.Proofs.Traversal.Termination
import CurlyTemplate.Proofs.Lowering.Replacements
import CurlyTemplate.Proofs.Traversal.Choosing
import CurlyTemplate.Proofs.Lowering.Arguments
import CurlyTemplate.Proofs.Text.Dashed
import CurlyTemplate.Proofs.Lowering.Keys
import CurlyTemplate.Proofs.Lowering.Names
import CurlyTemplate.Proofs.Lowering.Frame
import CurlyTemplate.Proofs.Source.Adjacent
import CurlyTemplate.Proofs.Syntax.AttributeText
import CurlyTemplate.Proofs.Decimal.Integral
import CurlyTemplate.Proofs.Syntax.IntegralNumbers
import CurlyTemplate.Proofs.Batch.Accounts
import CurlyTemplate.Proofs.Lowering.ScopeStack
import CurlyTemplate.Proofs.Batch.Expansion
import CurlyTemplate.Proofs.Batch.Reports
import CurlyTemplate.Proofs.Batch.Naming
import CurlyTemplate.Proofs.Syntax.Paths
