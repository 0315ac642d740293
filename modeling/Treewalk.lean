import Treewalk.Arena
import Treewalk.Arithmetic
import Treewalk.Builder
import Treewalk.Eval
import Treewalk.EvalError
import Treewalk.Fuel
import Treewalk.Interner
import Treewalk.Interpreter
import Treewalk.Name
import Treewalk.Node
import Treewalk.Operator
import Treewalk.Proofs.Adequacy
import Treewalk.Proofs.BigStep
import Treewalk.Proofs.CallLimit
import Treewalk.Proofs.Completeness
import Treewalk.Proofs.Construction
import Treewalk.Proofs.CurrentScope
import Treewalk.Proofs.Denotation
import Treewalk.Proofs.DisjointPrograms
import Treewalk.Proofs.Effects
import Treewalk.Proofs.Enclosure
import Treewalk.Proofs.Ending
import Treewalk.Proofs.Foundedness
import Treewalk.Proofs.GainedNames
import Treewalk.Proofs.Hosts
import Treewalk.Proofs.InternerHistory
import Treewalk.Proofs.Invariants
import Treewalk.Proofs.Isomorphism
import Treewalk.Proofs.LexicalScoping
import Treewalk.Proofs.Lockstep
import Treewalk.Proofs.Matching
import Treewalk.Proofs.ParallelConstruction
import Treewalk.Proofs.Piecewise
import Treewalk.Proofs.Placement
import Treewalk.Proofs.Privacy
import Treewalk.Proofs.Reachability
import Treewalk.Proofs.Redeclaration
import Treewalk.Proofs.Relations
import Treewalk.Proofs.RenamedMemory
import Treewalk.Proofs.Renaming
import Treewalk.Proofs.Representation
import Treewalk.Proofs.Scopes
import Treewalk.Proofs.Sessions
import Treewalk.Proofs.SideBySide
import Treewalk.Proofs.Simulation
import Treewalk.Proofs.Soundness
import Treewalk.Proofs.Termination
import Treewalk.Proofs.Translation
import Treewalk.Refusal
import Treewalk.Sink
import Treewalk.Store
import Treewalk.Store.Text
import Treewalk.Tree
import Treewalk.Value
import Treewalk.Proofs.Muting
import Treewalk.Proofs.Sinks
import Treewalk.Proofs.Histories
import Treewalk.Proofs.ScopeForest
import Treewalk.Proofs.Identity
import Treewalk.Proofs.Visibility
import Treewalk.Proofs.Calls
import Treewalk.Proofs.BlockCalls
import Treewalk.Proofs.StatementLists
import Treewalk.Proofs.Loops
import Treewalk.Proofs.Growth
import Treewalk.Proofs.ExactArithmetic
import Treewalk.Proofs.Interning
import Treewalk.Proofs.Storage
import Treewalk.Proofs.BuiltArenas
