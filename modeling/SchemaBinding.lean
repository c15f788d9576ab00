import SchemaBinding.Schema.Equality
import SchemaBinding.Schema.Parser
import SchemaBinding.Schema.Printer
import SchemaBinding.Value.Printer
import SchemaBinding.Binding.Record
import SchemaBinding.Proofs.Parser.Strictness
import SchemaBinding.Proofs.Binding.OneByOne
import SchemaBinding.Proofs.Parser.Registry
import SchemaBinding.Proofs.Parser.RoundTrip
import SchemaBinding.Proofs.Value.Access
import SchemaBinding.Proofs.Value.Branches
import SchemaBinding.Proofs.Value.Knowledge
import SchemaBinding.Proofs.Binding.Writes
import SchemaBinding.Proofs.Binding.TypedSetters
import SchemaBinding.Proofs.Binding.Extract
import SchemaBinding.Proofs.Binding.DefaultErrors
import SchemaBinding.Proofs.Binding.Members
import SchemaBinding.Proofs.Binding.Wrappers
import SchemaBinding.Proofs.Binding.RoundTrip
import SchemaBinding.Proofs.Parser.DefinedOnce
import SchemaBinding.Proofs.Parser.Entries
import SchemaBinding.Proofs.Parser.Induction
import SchemaBinding.Proofs.Parser.Growth
import SchemaBinding.Proofs.Binding.Making
import SchemaBinding.Proofs.Parser.References
import SchemaBinding.Proofs.Binding.Completeness
import SchemaBinding.Proofs.Binding.Inputs
import SchemaBinding.Proofs.Converter.Order
import SchemaBinding.Proofs.Decimal.Binary
import SchemaBinding.Proofs.Value.RoundTrip
import SchemaBinding.Proofs.Json.Keys
import SchemaBinding.Proofs.Parser.Frame
import SchemaBinding.Proofs.Value.Indices
import SchemaBinding.Proofs.Converter.BuiltIn
import SchemaBinding.Proofs.Parser.Symbols
import SchemaBinding.Proofs.Property.Set
import SchemaBinding.Proofs.Sequence
import SchemaBinding.Proofs.Decimal.Narrowing
import SchemaBinding.Proofs.Value.Overflow
import SchemaBinding.Proofs.Binding.SequenceKind
import SchemaBinding.Proofs.Schema.Grammar
import SchemaBinding.Proofs.Value.Latin1
