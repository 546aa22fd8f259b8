import Stagewise.Constraint.Projection
import Stagewise.Constraint.Solution
import Stagewise.Main
import Stagewise.Proofs.Agreement
import Stagewise.Proofs.Binders
import Stagewise.Proofs.Bookkeeping
import Stagewise.Proofs.Branches
import Stagewise.Proofs.BuiltinResults
import Stagewise.Proofs.Coincidence
import Stagewise.Proofs.Comparisons
import Stagewise.Proofs.Conditions
import Stagewise.Proofs.Descriptions
import Stagewise.Proofs.FieldPaths
import Stagewise.Proofs.Indiscernibles
import Stagewise.Proofs.Intervals
import Stagewise.Proofs.Lengths
import Stagewise.Proofs.MatchedParts
import Stagewise.Proofs.NestedConjunction
import Stagewise.Proofs.NestedEntailment
import Stagewise.Proofs.NestedInclusion
import Stagewise.Proofs.NestedRecursion
import Stagewise.Proofs.Noninterference
import Stagewise.Proofs.PatternReadings
import Stagewise.Proofs.Purity
import Stagewise.Proofs.Selection
import Stagewise.Proofs.Surroundings
import Stagewise.Proofs.TaggedUnion
import Stagewise.Proofs.Transitivity
import Stagewise.Proofs.Unrolling
import Stagewise.Refinement
import Stagewise.Term.Build
import Stagewise.Term.Sensitivity
import Stagewise.Term.Walk
