import Lox.Source
import Lox.Eval

/-!
# Running a source

`run` executes a source on a new machine, but only if nothing is wrong with it. What was printed
before a failure stays printed.
-/

namespace Lox

/-- How a run ends. -/
inductive Ending
  | finished
  | rejected (errors : List Diagnostic)
  | aborted (error : Diagnostic)
  | outOfFuel

/-- What a run printed, and how it ended. -/
structure Outcome where
  printed : List String
  ending : Ending

namespace Outcome

/-- What was printed, each text on a line of its own. -/
def output (o : Outcome) : String :=
  String.join (o.printed.map (· ++ "\n"))

/-- The outcome of a computation that gives nothing. -/
def ofResult : EStateM.Result Stop Machine Unit → Outcome
  | .ok _ m => ⟨m.printed.toList, .finished⟩
  | .error (.failed failure) m => ⟨m.printed.toList, .aborted failure.diagnostic⟩
  | .error .outOfFuel m => ⟨m.printed.toList, .outOfFuel⟩

end Outcome

/-- Executes a source on a new machine, if nothing is wrong with it. -/
def run (fuel : Nat) (host : Host) (source : String) : Outcome :=
  match Source.check source with
  | .error errors => ⟨[], .rejected errors⟩
  | .ok p => .ofResult (Eval.program fuel p.statements p.distances (Machine.start host))

end Lox
