import Conformance.Declare
import Conformance.Inference
import Conformance.LogFormat
import Conformance.NamePool
import Conformance.Proofs.Growth
import Conformance.Proofs.Frames
import Conformance.Proofs.Correspondence
import Conformance.Proofs.Simulation
import Conformance.Proofs.Equivariance
import Conformance.Proofs.Closed
import Conformance.Proofs.Evaluation
import Conformance.Proofs.Congruence
import Conformance.Proofs.Closure
import Conformance.Proofs.Repetition
import Conformance.Proofs.FBounds
import Conformance.Proofs.Hierarchy
import Conformance.Proofs.FreeLattice
import Conformance.Proofs.ClassLattice
import Conformance.Proofs.Narrowing
import Conformance.Proofs.ClassInference
import Conformance.Proofs.OwnOperand
import Conformance.Proofs.InterSource
import Conformance.Proofs.Refusals
import Conformance.Proofs.Domain
import Conformance.Proofs.Region
import Conformance.Proofs.Twins
import Conformance.Proofs.Tightening
import Conformance.Proofs.Reachability
import Conformance.Proofs.Scope
import Conformance.Proofs.Trees
import Conformance.Proofs.Convergence
import Conformance.Proofs.Termination
import Conformance.Proofs.Outcomes
import Conformance.Proofs.Thorough
import Conformance.Proofs.Declared
import Conformance.Proofs.Ascent
import Conformance.Proofs.Lineage
import Conformance.Proofs.Inheritance
import Conformance.Proofs.Inversion
import Conformance.Proofs.NullSafety
import Conformance.Proofs.Members
import Conformance.Proofs.DeclaredParents
import Conformance.Proofs.Transport
import Conformance.Proofs.Clauses
import Conformance.Proofs.Lattice
import Conformance.Proofs.Selections
import Conformance.Proofs.MemberMatching
import Conformance.Proofs.Bottom
import Conformance.Proofs.Replacement
import Conformance.Proofs.RigidParameters
import Conformance.Proofs.UnionSources
import Conformance.Proofs.BaseTypes
import Conformance.Proofs.Aliases
import Conformance.Proofs.Bearing
import Conformance.Proofs.StaticBases
import Conformance.Proofs.Erasures
import Conformance.Proofs.Copies
import Conformance.Proofs.Upkeep
import Conformance.Proofs.Sessions
import Conformance.Proofs.FilledBinders
import Conformance.Proofs.ValidStores
import Conformance.Proofs.FiniteTypes
import Conformance.Proofs.Choices
import Conformance.Proofs.SolvingOrder
import Conformance.Proofs.Tracking
import Conformance.Proofs.Descents
import Conformance.Proofs.MatchingSymmetry
import Conformance.Proofs.BoundedWalks
import Conformance.Proofs.Derivability
import Conformance.Proofs.BoundedTraits
import Conformance.Proofs.SameErasure
import Conformance.Proofs.TypeArguments
import Conformance.Proofs.ParameterSubstitution
import Conformance.Proofs.Allowances
import Conformance.Proofs.FreeTraits
import Conformance.Proofs.Chains
import Conformance.Proofs.Owners
import Conformance.Proofs.RenamingBack
import Conformance.Proofs.Tiers
import Conformance.Proofs.Supplied
import Conformance.Proofs.OccursCheck
import Conformance.Proofs.DeclarationsLocal
import Conformance.Proofs.PooledNames
import Conformance.Proofs.GuardAccounts
import Conformance.Proofs.RefinementStripping
