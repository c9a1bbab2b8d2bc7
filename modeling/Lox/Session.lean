import Lox.Source
import Lox.Eval

/-!
# Sessions

A session runs several sources on one machine, one after another. Globals and what was printed
stay from step to step, also after a step that failed. Each source numbers its nodes anew, and the
distances of the last program stay until the next one replaces them.
-/

namespace Lox

/-- One step of a session. -/
inductive Step
  /-- Evaluates one expression, at the distances of the last program. -/
  | evaluate (source : String)
  /-- Surveys and runs a program. -/
  | run (source : String)
  /-- Runs a program at the given distances, which nothing has checked. -/
  | runAt (source : String) (distances : Distances)

/-- How a step ends. -/
inductive Report
  | value (v : Value)
  | done
  | failed (fault : Fault)
  | outOfFuel

namespace Session

/-- How a computation ends, and the machine after it. -/
def finish {α : Type} (report : α → Report) : EStateM.Result Stop Machine α → Report × Machine
  | .ok a m => (report a, m)
  | .error (.failed failure) m => (.failed ⟨.running, [failure.diagnostic]⟩, m)
  | .error .outOfFuel m => (.outOfFuel, m)

/-- Runs what a source was read as, if nothing was wrong with it. -/
def proceed {α β : Type} (report : β → Report) (body : α → Eval β) (m : Machine) :
    Except Fault α → Report × Machine
  | .ok a => finish report (body a m)
  | .error fault => (.failed fault, m)

/-- Takes one step. -/
def step (fuel : Nat) (m : Machine) : Step → Report × Machine
  | .evaluate source => proceed .value (Eval.expr fuel) m (Source.expression source)
  | .run source =>
    proceed (fun _ => .done) (fun p => Eval.program fuel p.statements p.distances) m
      (Source.checked source)
  | .runAt source distances =>
    proceed (fun _ => .done) (fun statements => Eval.program fuel statements distances) m
      (Source.statements source)

/-- Takes steps in order. Each report goes with what its step printed. -/
def steps (fuel : Nat) (m : Machine) : List Step → List (Report × List String)
  | [] => []
  | s :: ss =>
    let (report, m') := step fuel m s
    (report, m'.printed.toList.drop m.printed.size) :: steps fuel m' ss

end Session

end Lox
