import Lineage.Files.Memory
import Lineage.Files.Tree
import Lineage.Hierarchy.Json
import Lineage.Hierarchy.Load
import Lineage.Hierarchy.View
import Lineage.Json.Printer
import Lineage.Json.Reader
import Lineage.Main
import Lineage.Markup.Decode
import Lineage.Markup.Encode
import Lineage.Markup.Json
import Lineage.Outline.Json
import Lineage.Outline.Walk
import Lineage.Proofs.Ancestry.Merging
import Lineage.Proofs.Ancestry.Reachability
import Lineage.Proofs.Ancestry.Walk
import Lineage.Proofs.Ancestry.Consistency
import Lineage.Proofs.Ancestry.Exploration
import Lineage.Proofs.Ancestry.Index
import Lineage.Proofs.Ancestry.Linearization
import Lineage.Proofs.Ancestry.Precedence
import Lineage.Proofs.Ancestry.Subclass
import Lineage.Proofs.Ancestry.Heredity
import Lineage.Proofs.Ancestry.Cycles
import Lineage.Proofs.Ancestry.Depth
import Lineage.Proofs.Ancestry.Recomputation
import Lineage.Proofs.Ancestry.Inheritance
import Lineage.Proofs.Ancestry.Agreement
import Lineage.Proofs.Indexing.Growth
import Lineage.Proofs.Indexing.Snapshot
import Lineage.Proofs.Indexing.Callables
import Lineage.Proofs.Indexing.Contributions
import Lineage.Proofs.Indexing.Properties
import Lineage.Proofs.Indexing.Loading
import Lineage.Proofs.Indexing.Scoping
import Lineage.Proofs.Indexing.TopLevel
import Lineage.Proofs.Indexing.Declarations
import Lineage.Proofs.Indexing.Naming
import Lineage.Proofs.Markup.RoundTrip
import Lineage.Proofs.Markup.Sections
import Lineage.Proofs.Markup.Ascii
import Lineage.Proofs.Markup.Building
import Lineage.Proofs.Markup.Canonical
import Lineage.Proofs.Markup.Grammar
import Lineage.Proofs.Outline.Tree
import Lineage.Proofs.Outline.Faithfulness
import Lineage.Proofs.Source.Lines
import Lineage.Proofs.Source.Margin
import Lineage.Proofs.Source.Joining
import Lineage.Proofs.Source.Gaps
import Lineage.Proofs.Source.Quotation
import Lineage.Proofs.Outline.Scopes
import Lineage.Proofs.Outline.Brackets
import Lineage.Proofs.Outline.Targets
import Lineage.Proofs.Outline.Unpacking
import Lineage.Proofs.Outline.Alike
import Lineage.Proofs.Outline.Attributes
import Lineage.Proofs.Outline.BrokenClasses
import Lineage.Proofs.Outline.Separation
