import EntityJson.Number.Read
import EntityJson.Options.Settings
import EntityJson.Serializer.Basic
import EntityJson.Proofs.Schema.Visibility
import EntityJson.Proofs.Serializer.Filtered
import EntityJson.Proofs.RuleTree.Merged
import EntityJson.Proofs.Schema.Overlay
import EntityJson.Proofs.Serializer.Calls
import EntityJson.Proofs.Serializer.Shown
import EntityJson.Proofs.Serializer.DepthLimit
import EntityJson.Proofs.Serializer.Termination
import EntityJson.Proofs.RuleTree.History
import EntityJson.Proofs.Serializer.Gathered
import EntityJson.Proofs.Serializer.Lockstep
import EntityJson.Proofs.Serializer.SmallerLimit
import EntityJson.Proofs.Serializer.Dropped
import EntityJson.Proofs.Decimal.Layout
import EntityJson.Proofs.Decimal.Rounding
import EntityJson.Proofs.Decimal.Reading
import EntityJson.Proofs.Decimal.Denotation
import EntityJson.Proofs.Schema.Nested
import EntityJson.Proofs.Serializer.Mirror
import EntityJson.Proofs.Serializer.Layering
import EntityJson.Proofs.Serializer.Overruled
import EntityJson.Proofs.Serializer.Sequences
import EntityJson.Proofs.Serializer.Rerooted
import EntityJson.Proofs.Schema.Sources
import EntityJson.Proofs.Attributes.Cache
import EntityJson.Proofs.Serializer.Reads
import EntityJson.Proofs.Serializer.Deferred
import EntityJson.Proofs.RuleTree.Extensional
import EntityJson.Proofs.RuleTree.Union
import EntityJson.Proofs.RuleTree.Outcome
import EntityJson.Proofs.Schema.Added
import EntityJson.Proofs.Decimal.Plain
import EntityJson.Proofs.Rule.Grammar
import EntityJson.Proofs.RuleTree.Listed
import EntityJson.Proofs.Schema.Rendered
import EntityJson.Proofs.Decimal.Grammar
import EntityJson.Proofs.Decimal.Filling
import EntityJson.Proofs.Decimal.Overflow
import EntityJson.Proofs.Decimal.Longhand
import EntityJson.Proofs.Decimal.Separators
import EntityJson.Proofs.Calendar.Instant
