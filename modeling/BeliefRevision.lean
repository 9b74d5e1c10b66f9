import BeliefRevision.BeliefFile
import BeliefRevision.Base.Remainders
import BeliefRevision.Base.Revision
import BeliefRevision.Clause.Resolution
import BeliefRevision.CommandLine
import BeliefRevision.Conversion
import BeliefRevision.Formula.Fold
import BeliefRevision.Formula.Parser
import BeliefRevision.Formula.PostOrder
import BeliefRevision.Main
import BeliefRevision.Saturation
import BeliefRevision.Proofs.Conversion
import BeliefRevision.Proofs.Meaning
import BeliefRevision.Proofs.Names
import BeliefRevision.Proofs.DirectConversion
import BeliefRevision.Proofs.Interruption
import BeliefRevision.Proofs.Closure
import BeliefRevision.Proofs.Repetition
import BeliefRevision.Proofs.Termination
import BeliefRevision.Proofs.Session
import BeliefRevision.Proofs.Search
import BeliefRevision.Proofs.Steps
import BeliefRevision.Proofs.Reachable
import BeliefRevision.Proofs.Representation
import BeliefRevision.Proofs.Atomicity
import BeliefRevision.Proofs.Entailment
import BeliefRevision.Proofs.Remainder
import BeliefRevision.Proofs.RemainderSet
import BeliefRevision.Proofs.Room
import BeliefRevision.Proofs.Limits
import BeliefRevision.Proofs.Agreement
import BeliefRevision.Proofs.Revision
import BeliefRevision.Proofs.Stability
import BeliefRevision.Proofs.RoundTrip
import BeliefRevision.Proofs.Spelling
import BeliefRevision.Proofs.Grammar
import BeliefRevision.Proofs.Renumbering
import BeliefRevision.Proofs.ConversionLimit
import BeliefRevision.Proofs.BeliefLines
import BeliefRevision.Proofs.BeliefFiles
import BeliefRevision.Proofs.Replay
import BeliefRevision.Proofs.ReferenceMachine
import BeliefRevision.Proofs.PrintedLines
import BeliefRevision.Proofs.Parts
import BeliefRevision.Proofs.Options
import BeliefRevision.Proofs.LimitErrors
import BeliefRevision.Proofs.Programs
import BeliefRevision.Proofs.Simulation
import BeliefRevision.Proofs.Refinement
import BeliefRevision.Proofs.ReadingOrder
import BeliefRevision.Proofs.ClauseShape
import BeliefRevision.Proofs.FaultPlaces
import BeliefRevision.Proofs.Traversal
import BeliefRevision.Proofs.NormalShape
import BeliefRevision.Proofs.SelectionWalk
import BeliefRevision.Proofs.PartialAssignments
import BeliefRevision.Proofs.JoinedFiles
import BeliefRevision.Proofs.SearchCost
import BeliefRevision.Proofs.WorkReports
import BeliefRevision.Proofs.VisitorCalls
import BeliefRevision.Proofs.ResolutionSteps
import BeliefRevision.Proofs.TreeEquality
