import SolvedForm.Constraint.Alternatives
import SolvedForm.Constraint.Expansion
import SolvedForm.Constraint.Implication
import SolvedForm.Options
import SolvedForm.Proofs.CommonSubsort
import SolvedForm.Proofs.Constraint.Deduction
import SolvedForm.Proofs.Constraint.Ends
import SolvedForm.Proofs.Constraint.Equivariance
import SolvedForm.Proofs.Constraint.Finality
import SolvedForm.Proofs.Constraint.Materialization
import SolvedForm.Proofs.Constraint.MostGeneral
import SolvedForm.Proofs.Constraint.Reachable
import SolvedForm.Proofs.Constraint.Reorientation
import SolvedForm.Proofs.Constraint.Representative
import SolvedForm.Proofs.Constraint.Session
import SolvedForm.Proofs.Model.Exactness
import SolvedForm.Proofs.Model.Obligations
import SolvedForm.Proofs.Solver.Implication
import SolvedForm.Proofs.Term.Distinct
import SolvedForm.Proofs.Unification.Completeness
import SolvedForm.Solver.External
import SolvedForm.Proofs.Constraint.AtRest
import SolvedForm.Proofs.Constraint.RenamedAlternatives
import SolvedForm.Proofs.Unification.Variables
import SolvedForm.Proofs.Constraint.Gathered
import SolvedForm.Proofs.Constraint.Idempotence
import SolvedForm.Proofs.Fragment.Negation
import SolvedForm.Proofs.Term.Commutation
import SolvedForm.Proofs.Constraint.Opens
import SolvedForm.Proofs.Constraint.Neat
import SolvedForm.Proofs.Constraint.Batch
import SolvedForm.Proofs.Constraint.Splitting
import SolvedForm.Proofs.Constraint.WorkList
import SolvedForm.Proofs.Constraint.Evaluated
import SolvedForm.Proofs.Term.Composition
import SolvedForm.Proofs.Model.Scalar
import SolvedForm.Proofs.Constraint.Loose
import SolvedForm.Proofs.Constraint.RemovedBindings
import SolvedForm.Proofs.SubsortOrder
import SolvedForm.Proofs.Term.Elimination
import SolvedForm.Proofs.Unification.Symmetry
import SolvedForm.Proofs.Unification.Irreducible
import SolvedForm.Proofs.Unification.FailingPair
import SolvedForm.Proofs.Model.Expansion
import SolvedForm.Proofs.Constraint.Keys
import SolvedForm.Proofs.Constraint.Composed
import SolvedForm.Proofs.Unification.Refusal
import SolvedForm.Proofs.Unification.Enumeration
import SolvedForm.Proofs.Solver.Capture
