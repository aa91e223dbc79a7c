import BatchFlow.Catalog.Builtins
import BatchFlow.Catalog.Models
import BatchFlow.Catalog.Scripted
import BatchFlow.CommandLine.Execute
import BatchFlow.Definition.Text
import BatchFlow.Engine.Limit
import BatchFlow.Graph.Cycle
import BatchFlow.Main
import BatchFlow.Plan.Cache
import BatchFlow.Plan.Json
import BatchFlow.Proofs.Plan.Dimensions
import BatchFlow.Proofs.Run.Counters
import BatchFlow.Proofs.Run.Locality
import BatchFlow.Query.Evaluate
import BatchFlow.Proofs.Run.Scheduling
import BatchFlow.Proofs.Run.Stored
import BatchFlow.Proofs.Run.Assembly
import BatchFlow.Proofs.Catalog.Contracts
import BatchFlow.Proofs.Plan.Blocks
import BatchFlow.Proofs.Run.Honest
import BatchFlow.Proofs.Graph.Cycle
import BatchFlow.Proofs.Plan.Dependencies
import BatchFlow.Proofs.Run.Masks
import BatchFlow.Proofs.Workflow.Acceptance
import BatchFlow.Proofs.Plan.Refusals
import BatchFlow.Proofs.Run.Failure
import BatchFlow.Proofs.Run.Governors
import BatchFlow.Proofs.Run.PassThrough
import BatchFlow.Proofs.Run.Rooted
import BatchFlow.Proofs.Run.Collapse
import BatchFlow.Proofs.Plan.Cache
import BatchFlow.Proofs.Run.WholeBatch
import BatchFlow.Proofs.Run.Exclusive
import BatchFlow.Proofs.Run.Reordering
import BatchFlow.Proofs.Graph.Canonical
import BatchFlow.Proofs.Definition.RoundTrip
import BatchFlow.Proofs.Workflow.Rearrangement
import BatchFlow.Proofs.Run.Preparation
import BatchFlow.Proofs.Graph.Search
import BatchFlow.Proofs.Graph.Blocked
import BatchFlow.Proofs.Selector.Grammar
import BatchFlow.Proofs.Plan.Quotation
import BatchFlow.Proofs.Query.Equality
import BatchFlow.Proofs.Query.Duality
import BatchFlow.Proofs.Query.Fusion
import BatchFlow.Proofs.Query.Scope
import BatchFlow.Proofs.Batch.Enumeration
import BatchFlow.Proofs.Query.Nesting
import BatchFlow.Proofs.Catalog.Crashes
import BatchFlow.Proofs.Argument
