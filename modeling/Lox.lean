import Lox.Heap.Lemmas
import Lox.Main
import Lox.Proofs.Eval.Laws
import Lox.Proofs.Eval.Tasks
import Lox.Proofs.Eval.CurrentFrame
import Lox.Proofs.Syntax.Reading
import Lox.Proofs.Syntax.Completeness.Programs
import Lox.Proofs.Token.Words
import Lox.Proofs.Scope.Context
import Lox.Proofs.Scope.Located
import Lox.Proofs.Heap.Chains
import Lox.Proofs.Eval.Sound
import Lox.Proofs.Eval.Ready
import Lox.Proofs.Eval.References
import Lox.Proofs.Eval.Returns
import Lox.Proofs.Renaming.Programs
import Lox.Proofs.Eval.Locality
import Lox.Proofs.Eval.Shape
import Lox.Proofs.Eval.Dispatch
import Lox.Proofs.Eval.Construction
import Lox.Proofs.Eval.Sink
import Lox.Proofs.Eval.Variables
import Lox.Proofs.Syntax.Soundness.Expressions
import Lox.Proofs.Syntax.Soundness.Programs
import Lox.Proofs.Scope.Exact
import Lox.Proofs.Token.Longest
import Lox.Proofs.Token.Reference
import Lox.Proofs.Token.Spaced
import Lox.Proofs.Number.Rounding
import Lox.Proofs.Number.Texts
import Lox.Proofs.Syntax.Appended.Expressions
import Lox.Proofs.Syntax.Appended.Programs
import Lox.Proofs.Scope.Appended
import Lox.Proofs.Relabelling.Machines
import Lox.Proofs.Relabelling.Operations
import Lox.Proofs.Relabelling.Run
import Lox.Proofs.Eval.Appended
import Lox.Proofs.Eval.Changes
import Lox.Proofs.Eval.Openers
import Lox.Proofs.Eval.Code
import Lox.Proofs.Eval.Reuse
import Lox.Proofs.Eval.Arity
import Lox.Proofs.Syntax.Local.Steps
import Lox.Proofs.Syntax.Local.Expressions
import Lox.Proofs.Syntax.Local.Statements
import Lox.Proofs.Syntax.Recovery
import Lox.Proofs.Syntax.Ended
import Lox.Proofs.Syntax.Renumbered
import Lox.Proofs.Syntax.Moved
import Lox.Proofs.Syntax.Loops.Written
import Lox.Proofs.Syntax.Loops.Beside
import Lox.Proofs.Syntax.Loops.Programs
import Lox.Proofs.Scope.Relabelled
import Lox.Proofs.Relabelling.Programs
import Lox.Proofs.Eval.Rounds
import Lox.Proofs.Eval.Loops
import Lox.Proofs.Heap.Built
import Lox.Proofs.Scope.Visits
import Lox.Proofs.Eval.Course.Calls
import Lox.Proofs.Eval.Course.Fields
import Lox.Proofs.Eval.Course.Sessions
import Lox.Proofs.Eval.Properties
import Lox.Proofs.Syntax.Printed
import Lox.Proofs.Syntax.Form
import Lox.Proofs.Syntax.Kept
import Lox.Proofs.Syntax.Shown
import Lox.Proofs.Syntax.Identified
import Lox.Proofs.Eval.Plain
import Lox.Proofs.Eval.Printed
import Lox.Proofs.Syntax.Certain
import Lox.Proofs.Eval.Commands
import Lox.Proofs.Scope.Discipline
import Lox.Proofs.Scope.Words
import Lox.Proofs.Scope.Positions
import Lox.Proofs.Scope.Order
