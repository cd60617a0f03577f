import RouteSolver.Main
import RouteSolver.Proofs.Automaton.Exact
import RouteSolver.Proofs.Automaton.Product
import RouteSolver.Proofs.Automaton.Shortest
import RouteSolver.Proofs.Constraint.Exact
import RouteSolver.Proofs.Constraint.HostBits
import RouteSolver.Proofs.Diagram.Cardinality
import RouteSolver.Proofs.Diagram.Comparison
import RouteSolver.Proofs.Diagram.Exact
import RouteSolver.Proofs.Diagram.LeastModel
import RouteSolver.Proofs.Diagram.PathCube
import RouteSolver.Proofs.Diagram.Replay
import RouteSolver.Proofs.Domain.BracketMeaning
import RouteSolver.Proofs.Domain.Coarsest
import RouteSolver.Proofs.Encoding.Faithful
import RouteSolver.Proofs.Json.Printing
import RouteSolver.Proofs.Json.Record
import RouteSolver.Proofs.Route.CommunityGrammar
import RouteSolver.Proofs.Route.Json
import RouteSolver.Proofs.Scenario.Json
import RouteSolver.Proofs.Witness.Completion
import RouteSolver.Proofs.Witness.Equivalent
import RouteSolver.Proofs.Witness.Granted
import RouteSolver.Proofs.Witness.Literals
import RouteSolver.Proofs.Witness.Missing
import RouteSolver.Proofs.Witness.Monotone
import RouteSolver.Proofs.Witness.Numerals
import RouteSolver.Proofs.Witness.PathOutcome
import RouteSolver.Proofs.Witness.Renderable
import RouteSolver.Proofs.Witness.Steered
