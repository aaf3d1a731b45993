import WorkflowSoundness.IndexSet
import WorkflowSoundness.BitSet.Reach
import WorkflowSoundness.BitSet.Sweep
import WorkflowSoundness.Graph.Basic
import WorkflowSoundness.Graph.Validity
import WorkflowSoundness.Graph.Simple
import WorkflowSoundness.EdgeGraph.OfGraph
import WorkflowSoundness.Measurement.Monitor
import WorkflowSoundness.Annotation
import WorkflowSoundness.Config
import WorkflowSoundness.Dominance.Basic
import WorkflowSoundness.Components
import WorkflowSoundness.WaitingArea
import WorkflowSoundness.Deadlock.Basic
import WorkflowSoundness.FlowNetwork
import WorkflowSoundness.Abundance.ForkNetwork
import WorkflowSoundness.Abundance.Session
import WorkflowSoundness.Abundance.Basic
import WorkflowSoundness.Registry
import WorkflowSoundness.Proofs.Dominance.Tree
import WorkflowSoundness.Proofs.PostOrder
import WorkflowSoundness.Proofs.Trail
import WorkflowSoundness.Proofs.Dominance.Settle
import WorkflowSoundness.Proofs.Dominance.Exact
import WorkflowSoundness.Proofs.Closing
import WorkflowSoundness.Proofs.Flow.Maximum
import WorkflowSoundness.Proofs.Flow.Fork
import WorkflowSoundness.Proofs.Abundance.Definitions
import WorkflowSoundness.Proofs.Reports
import WorkflowSoundness.Proofs.Dominance.Laws
import WorkflowSoundness.Proofs.Execution
import WorkflowSoundness.Proofs.Deadlock.Facts
import WorkflowSoundness.Proofs.Verify
import WorkflowSoundness.Proofs.Abundance.Meetings
import WorkflowSoundness.Proofs.Nested.Grammar
import WorkflowSoundness.Proofs.Nested.Layout
import WorkflowSoundness.Proofs.Nested.Regions
import WorkflowSoundness.Proofs.Dominance.Region
import WorkflowSoundness.Proofs.Nested.Frames
import WorkflowSoundness.Proofs.Nested.Passing
import WorkflowSoundness.Proofs.Nested.Deadlocks
import WorkflowSoundness.Proofs.Abundance.Dependent
import WorkflowSoundness.Proofs.Nested.Rules
import WorkflowSoundness.Proofs.Nested.Abundances
import WorkflowSoundness.Proofs.Nested.Growing
import WorkflowSoundness.Proofs.Nested.Verdict
import WorkflowSoundness.Proofs.Renumbering.Basic
import WorkflowSoundness.Proofs.Renumbering.Meetings
import WorkflowSoundness.Proofs.Renumbering.Verdict
import WorkflowSoundness.Proofs.Walk
import WorkflowSoundness.Proofs.Dominance.Walks
import WorkflowSoundness.Proofs.Dominance.Chain
import WorkflowSoundness.Proofs.Dominance.Ending
import WorkflowSoundness.Proofs.Deadlock.Exact
import WorkflowSoundness.Proofs.Flow.Decomposition
import WorkflowSoundness.Proofs.Abundance.Walks
import WorkflowSoundness.Proofs.Preparation
import WorkflowSoundness.Proofs.Halting
import WorkflowSoundness.Proofs.Total
import WorkflowSoundness.Proofs.StrongComponents
import WorkflowSoundness.Proofs.LowLinks
import WorkflowSoundness.Proofs.Execution.Tables
import WorkflowSoundness.Proofs.Insertion.Deadlocks
import WorkflowSoundness.Proofs.Flow.Crossing
import WorkflowSoundness.Proofs.Abundance.Session
import WorkflowSoundness.Proofs.Abundance.Reuse
import WorkflowSoundness.Proofs.Abundance.Consulting
import WorkflowSoundness.Proofs.Deadlock.Evidence
import WorkflowSoundness.Proofs.Flow.Augmenting
import WorkflowSoundness.Proofs.Abundance.Evidence
import WorkflowSoundness.Proofs.Abundance.Cyclic
import WorkflowSoundness.Proofs.Abundance.Bond
import WorkflowSoundness.Proofs.Abundance.Surviving
import WorkflowSoundness.Proofs.Subdivision.Exact
import WorkflowSoundness.Proofs.Records.Basic
import WorkflowSoundness.Proofs.Records.Simple
import WorkflowSoundness.Proofs.Records.Session
import WorkflowSoundness.Proofs.Records.Closing
import WorkflowSoundness.Proofs.Records.Validity
import WorkflowSoundness.Proofs.WaitingAreas
import WorkflowSoundness.Proofs.Nested.WaitingAreas
import WorkflowSoundness.Proofs.Failure
import WorkflowSoundness.Proofs.Scheduling.Calls
import WorkflowSoundness.Proofs.Scheduling.Filling
import WorkflowSoundness.Proofs.Stores
import WorkflowSoundness.Proofs.Scheduling.Conduct
import WorkflowSoundness.Proofs.Scheduling.Keys
import WorkflowSoundness.Proofs.Scheduling.Verification
import WorkflowSoundness.Proofs.Scheduling.Tallies
import WorkflowSoundness.Proofs.Scheduling.History
import WorkflowSoundness.Proofs.Stores.Table
import WorkflowSoundness.Proofs.IndexSets.Elements
import WorkflowSoundness.Proofs.IndexSets.Scanning
import WorkflowSoundness.Proofs.Deadlock.Solution
