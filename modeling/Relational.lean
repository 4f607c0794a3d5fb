import Relational.Goal.Lists
import Relational.Solutions
import Relational.Stream.Arithmetic
import Relational.Stream.Depth
import Relational.Stream.Lemmas
import Relational.Substitution.Lemmas
import Relational.Proofs.Term.Equality
import Relational.Proofs.Term.Sharing
import Relational.Proofs.Term.Reading
import Relational.Proofs.Substitution.Effort
import Relational.Proofs.Substitution.Walk
import Relational.Proofs.Substitution.Acyclic
import Relational.Proofs.Substitution.Unifies
import Relational.Proofs.Substitution.Unifier
import Relational.Proofs.Stream.Layers
import Relational.Proofs.Stream.Limit
import Relational.Proofs.Substitution.Order
import Relational.Proofs.Search.Finds
import Relational.Proofs.Search.Bindings
import Relational.Proofs.Stream.Pull
import Relational.Proofs.Goal.Meaning
import Relational.Proofs.Search.Sound
import Relational.Proofs.Solutions.StepLimit
import Relational.Proofs.Search.Complete
import Relational.Proofs.Substitution.OccursCheck
import Relational.Proofs.Substitution.Variant
import Relational.Proofs.Substitution.Reified
import Relational.Proofs.Search.Equations
import Relational.Proofs.Search.Branch
import Relational.Proofs.Stream.Occurrences
import Relational.Proofs.Stream.Interleaving
import Relational.Proofs.Stream.Binding
import Relational.Proofs.Goal.Variables
import Relational.Proofs.Search.Disjunction
import Relational.Proofs.Substitution.Built
import Relational.Proofs.Substitution.Log
import Relational.Proofs.Substitution.Closing
import Relational.Proofs.Search.Returns
import Relational.Proofs.Solutions.BoundedPull
import Relational.Proofs.Search.Exhaustion
import Relational.Proofs.Search.Pruning
import Relational.Proofs.Stream.Map
import Relational.Proofs.Substitution.Renaming
import Relational.Proofs.Search.Renaming
import Relational.Proofs.Stream.Schedule
import Relational.Proofs.Substitution.Termination
import Relational.Proofs.Substitution.Descent
import Relational.Proofs.Substitution.Divergence
import Relational.Proofs.Substitution.Agreement
import Relational.Proofs.Substitution.Stacks
import Relational.Proofs.Stream.StepEqual
import Relational.Proofs.Search.Units
import Relational.Proofs.Stream.Recursion
import Relational.Proofs.Stream.Take
import Relational.Proofs.Search.Effort
import Relational.Proofs.Solutions.Run
import Relational.Proofs.Substitution.Frame
import Relational.Proofs.Substitution.Walked
import Relational.Proofs.Substitution.Cells
import Relational.Proofs.Search.ListCalls
import Relational.Proofs.Search.Items
import Relational.Proofs.Search.Membership
import Relational.Proofs.Search.Append
import Relational.Proofs.Search.Placements
