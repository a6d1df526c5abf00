import PatternGraph.Edit.History
import PatternGraph.Graph.Audit
import PatternGraph.Graph.Content
import PatternGraph.Graph.Joined
import PatternGraph.Graph.Projection
import PatternGraph.Graph.Text
import PatternGraph.Matrix.Sparse
import PatternGraph.Path.Draft
import PatternGraph.Proofs.Growth
import PatternGraph.Proofs.Copy
import PatternGraph.Proofs.Walks
import PatternGraph.Proofs.Merging
import PatternGraph.Proofs.Reversal
import PatternGraph.Proofs.Run
import PatternGraph.Proofs.Effect
import PatternGraph.Proofs.Audit
import PatternGraph.Proofs.Reachability
import PatternGraph.Proofs.Search
import PatternGraph.Proofs.Linked
import PatternGraph.Proofs.Components
import PatternGraph.Proofs.Decomposition
import PatternGraph.Proofs.Renaming
import PatternGraph.Proofs.Anonymity
import PatternGraph.Proofs.Budgets
import PatternGraph.Proofs.LateResolution
import PatternGraph.Proofs.Continuation
import PatternGraph.Proofs.Handles
import PatternGraph.Edit.Statement
import PatternGraph.Proofs.Seeds
import PatternGraph.Proofs.Association
import PatternGraph.Proofs.Reassembly
import PatternGraph.Edit.Named
import PatternGraph.Proofs.Saying
import PatternGraph.Proofs.Agreement
import PatternGraph.Proofs.Indistinct
import PatternGraph.Proofs.Tidy
import PatternGraph.Proofs.Joining
import PatternGraph.Proofs.Incremental
import PatternGraph.Proofs.Union
import PatternGraph.Edit.Origin
import PatternGraph.Proofs.Coherence
import PatternGraph.Proofs.Projection
import PatternGraph.Proofs.PathEffect
import PatternGraph.Proofs.Acceptance
import PatternGraph.Proofs.MergeEffect
import PatternGraph.Proofs.CopyEffect
import PatternGraph.Proofs.Splitting
import PatternGraph.Proofs.Restriction
import PatternGraph.Proofs.Cutting
import PatternGraph.Proofs.Backwards
import PatternGraph.Proofs.PathOrder
import PatternGraph.Proofs.Connection
import PatternGraph.Proofs.Turning
import PatternGraph.Proofs.Restoring
import PatternGraph.Proofs.Resolution
import PatternGraph.Matrix.Search
import PatternGraph.Proofs.EntrySet
import PatternGraph.Proofs.Calls
import PatternGraph.Proofs.Drafting
import PatternGraph.Proofs.Replay
import PatternGraph.Proofs.Legible
import PatternGraph.Proofs.Reading
import PatternGraph.Proofs.Verdict
import PatternGraph.Proofs.Blame
import PatternGraph.Proofs.Spelling
import PatternGraph.Proofs.Neighbors
import PatternGraph.Proofs.Exhaustion
import PatternGraph.Proofs.Candidates
