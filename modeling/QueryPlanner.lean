import QueryPlanner.Plan.Builder
import QueryPlanner.Planner.Run
import QueryPlanner.Rule.Simplification
import QueryPlanner.Rule.Template
import QueryPlanner.Rule.Trial
import QueryPlanner.Proofs.Graph.Vertices
import QueryPlanner.Proofs.Graph.Traversal
import QueryPlanner.Proofs.Graph.TopologicalOrder
import QueryPlanner.Proofs.Graph.Consistency
import QueryPlanner.Proofs.Graph.Redirection
import QueryPlanner.Proofs.Graph.Collection
import QueryPlanner.Proofs.Planner.Outcome
import QueryPlanner.Proofs.Graph.Estimation
import QueryPlanner.Proofs.Graph.Growth
import QueryPlanner.Proofs.Planner.Insertion
import QueryPlanner.Proofs.Planner.Sweep
import QueryPlanner.Proofs.Planner.Firing
import QueryPlanner.Proofs.Planner.Execution
import QueryPlanner.Proofs.Planner.Reached
import QueryPlanner.Proofs.Planner.Exactness
import QueryPlanner.Proofs.Planner.Fixpoint
import QueryPlanner.Proofs.Planner.HashConsing
import QueryPlanner.Proofs.Planner.MatchLimit
import QueryPlanner.Proofs.Graph.Unfolding
import QueryPlanner.Proofs.Planner.Extraction
import QueryPlanner.Proofs.Planner.Typing
import QueryPlanner.Proofs.Simplification.Typing
import QueryPlanner.Proofs.Node.Tree
import QueryPlanner.Proofs.Simplification.NormalForm
import QueryPlanner.Proofs.Meaning.Preservation
import QueryPlanner.Proofs.Graph.Sharing
import QueryPlanner.Proofs.Planner.Sharing
import QueryPlanner.Proofs.Planner.Lookup
import QueryPlanner.Proofs.Planner.Steadiness
import QueryPlanner.Proofs.Node.Typing
import QueryPlanner.Proofs.Simplification.Matching
import QueryPlanner.Proofs.Planner.Totality
import QueryPlanner.Proofs.Simplification.Rewriting
import QueryPlanner.Proofs.Simplification.Shapes
import QueryPlanner.Proofs.Simplification.Firing
import QueryPlanner.Proofs.Simplification.Confluence
import QueryPlanner.Proofs.Planner.Failure
import QueryPlanner.Proofs.Simplification.Termination
import QueryPlanner.Proofs.Conversion.Requests
import QueryPlanner.Proofs.Conversion.Converters
import QueryPlanner.Proofs.Planner.Groups
import QueryPlanner.Proofs.Planner.Collection
import QueryPlanner.Proofs.Planner.Observation
import QueryPlanner.Proofs.Planner.Verdicts
import QueryPlanner.Proofs.Planner.Transcription
import QueryPlanner.Proofs.Graph.Matching
import QueryPlanner.Proofs.Simplification.Rows
import QueryPlanner.Proofs.Planner.Survivors
import QueryPlanner.Proofs.Node.Renaming
import QueryPlanner.Proofs.Graph.Renaming
import QueryPlanner.Proofs.Graph.Equivariance
import QueryPlanner.Proofs.Rule.Blindness
import QueryPlanner.Proofs.Planner.Lockstep
import QueryPlanner.Proofs.Planner.Renaming
import QueryPlanner.Proofs.Planner.Alignment
import QueryPlanner.Proofs.Planner.Exposure
import QueryPlanner.Proofs.Planner.Independence
import QueryPlanner.Proofs.Graph.Absorption
import QueryPlanner.Proofs.Graph.Lifetimes
import QueryPlanner.Proofs.Planner.Selection
import QueryPlanner.Proofs.Planner.Reporting
import QueryPlanner.Proofs.Planner.Gathering
import QueryPlanner.Proofs.Planner.Production
import QueryPlanner.Proofs.Planner.Lifetimes
import QueryPlanner.Proofs.Plan.BreadthFirst
import QueryPlanner.Proofs.Planner.Registration
import QueryPlanner.Proofs.Graph.Comparison
import QueryPlanner.Proofs.Planner.FirstMinimum
