import Lox.Proofs.Relabelling.Run
import Lox.Proofs.Scope.Relabelled
import Lox.Proofs.Syntax.Moved

/-!
# Programs with other labels

A program with other labels, different ones for different nodes, is accepted if the program itself
is, and then runs as it does: it prints the same and ends in the same way, and if it fails, with the
same error, on the other line of what is blamed (`outcomeOf_relabel`).
-/

namespace Lox

section
variable (line : Nat → Nat)

/-- The error on another line. -/
def Diagnostic.onLines : Diagnostic → Diagnostic
  | lexical e => lexical { e with line := line e.line }
  | syntactic e => syntactic (e.moved (.onLines line))
  | scope e => scope { e with blamed := { e.blamed with line := line e.blamed.line } }
  | runtime e => runtime { e with line := line e.line }
  | io e => io e

/-- The ending with its errors on other lines. -/
def Ending.onLines : Ending → Ending
  | finished => finished
  | rejected errors => rejected (errors.map (Diagnostic.onLines line))
  | aborted e => aborted (e.onLines line)
  | outOfFuel => outOfFuel

/-- The outcome with its errors on other lines. -/
def Outcome.onLines (o : Outcome) : Outcome :=
  { o with ending := o.ending.onLines line }

end

/-- All code has got its labels in the same way. -/
def Comparison.relabel (R : Relabelling) (distances distances' : Distances) : Comparison :=
  ⟨(· = R), distances, distances', False⟩

variable {R : Relabelling}

theorem Distances.Relabelled.kept {known : ExprId → Prop} {d d' : Distances}
    (h : d.Relabelled R known d') (differ : R.Separates known) {i : ExprId} (isKnown : known i) :
    d'[R.id i]? = d[i]? := by
  refine Option.ext fun n => (h _ n).trans ⟨?_, fun entry => ⟨i, isKnown, rfl, entry⟩⟩
  rintro ⟨i', isKnown', same, entry⟩
  obtain rfl := differ i' i isKnown' isKnown same
  exact entry

/-- With other labels, what is printed and said is the same, on other lines. -/
theorem EndsAlike.outcome_relabel {d d' : Distances} {Q : Unit → Unit → Prop}
    {r r' : EStateM.Result Stop Machine Unit} (alike : EndsAlike (.relabel R d d') Q r r') :
    ((Outcome.ofResult r).ending = .outOfFuel ∧ (Outcome.ofResult r').ending = .outOfFuel) ∨
      Outcome.ofResult r' = (Outcome.ofResult r).onLines R.line := by
  cases alike with
  | ok machines _ =>
    obtain ⟨-, -⟩ := machines
    exact .inr rfl
  | failed machines failures =>
    obtain ⟨-, -⟩ := machines
    cases failures with
    | runtime relabels e =>
      obtain rfl := relabels
      exact .inr rfl
    | io e => exact .inr rfl
  | outOfFuel both =>
    obtain ⟨⟨⟩⟩ | ⟨m', rfl⟩ := both
    exact .inl ⟨rfl, rfl⟩

/-- What happens when statements are surveyed, and then run if they are accepted. -/
def outcomeOf (n : Nat) (host : Host) (ss : List Stmt) : Outcome :=
  match distancesOf ss with
  | .error errors => ⟨[], .rejected (errors.map Diagnostic.scope)⟩
  | .ok distances => .ofResult (Eval.program n ss distances (Machine.start host))

theorem outcomeOf_relabel {ss : List Stmt} (differ : R.Separates (· ∈ Stmt.idsList ss)) (n : Nat)
    (host : Host) :
    ((outcomeOf n host ss).ending = .outOfFuel ∧
      (outcomeOf n host (Stmt.relabelList R ss)).ending = .outOfFuel) ∨
    outcomeOf n host (Stmt.relabelList R ss) = (outcomeOf n host ss).onLines R.line := by
  obtain ⟨rejected, accepted⟩ := Stmt.distancesOf_relabel differ
  unfold outcomeOf
  cases found : distancesOf ss with
  | error errors =>
    refine .inr ?_
    rw [rejected errors found]
    dsimp only [Outcome.onLines, Ending.onLines]
    rw [List.map_map, List.map_map]
    rfl
  | ok d =>
    obtain ⟨d', found', relabelled⟩ := accepted d found
    rw [found']
    have fits : (Comparison.relabel R d d').Fits R (Stmt.idsList ss) :=
      ⟨rfl, fun _ inside => relabelled.kept differ inside⟩
    have follows := (Follows.topLevel (.inl rfl) ss fits (n := n)).bind fun _ _ _ => Follows.flush
    exact (follows _ _ (.start _ host)).outcome_relabel

theorem Ending.onLines_eq_outOfFuel {line : Nat → Nat} {ending : Ending} :
    ending.onLines line = .outOfFuel ↔ ending = .outOfFuel := by
  cases ending <;> simp [onLines]

/-- Programs that are the same when both have got other labels come to the same, on other lines. -/
theorem outcomeOf_alike {R' : Relabelling} {ss ss' : List Stmt}
    (differ : R.Separates (· ∈ Stmt.idsList ss)) (differ' : R'.Separates (· ∈ Stmt.idsList ss'))
    (same : Stmt.relabelList R' ss' = Stmt.relabelList R ss) (n : Nat) (host : Host) :
    ((outcomeOf n host ss).ending = .outOfFuel ∧ (outcomeOf n host ss').ending = .outOfFuel) ∨
      (outcomeOf n host ss').onLines R'.line = (outcomeOf n host ss).onLines R.line := by
  have alike := outcomeOf_relabel differ n host
  have alike' := outcomeOf_relabel differ' n host
  rw [same] at alike'
  have ended {line : Nat → Nat} {o : Outcome}
      (joint : outcomeOf n host (Stmt.relabelList R ss) = o.onLines line)
      (outOfFuel : (outcomeOf n host (Stmt.relabelList R ss)).ending = .outOfFuel) :
      o.ending = .outOfFuel := by
    rw [joint] at outOfFuel
    exact Ending.onLines_eq_outOfFuel.mp outOfFuel
  obtain ⟨first, joint⟩ | joint := alike <;> obtain ⟨second, joint'⟩ | joint' := alike'
  · exact .inl ⟨first, second⟩
  · exact .inl ⟨first, ended joint' joint⟩
  · exact .inl ⟨ended joint joint', second⟩
  · exact .inr (joint'.symm.trans joint)

/-- The run of a source that is read without errors. -/
theorem run_of_read {source : String} (lexical : lexicalErrorsOf source = [])
    (noErrors : (Program.ofTokens (tokensOf source)).errors = []) (n : Nat) (host : Host) :
    run n host source = outcomeOf n host (Program.ofTokens (tokensOf source)).statements := by
  simp only [run, Source.check, lexical, Program.statements?, noErrors, outcomeOf, List.map_nil,
    List.isEmpty_nil, if_true]
  cases distancesOf (Program.ofTokens (tokensOf source)).statements <;> rfl

end Lox
