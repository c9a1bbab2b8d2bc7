import Mathlib
import Lox.Proofs.Token.Lines
import Lox.Proofs.Syntax.Appended.Programs
import Lox.Proofs.Scope.Appended
import Lox.Proofs.Scope.Located
import Lox.Proofs.Relabelling.Run
import Lox.Proofs.Eval.CurrentFrame

/-!
# One source after another

Two accepted sources, one on the lines after the other, are an accepted source: its program is the
one program and then the other, but for the labels of the other (`Source.check_append_line`). It
runs as the first source runs, until this ends, and then goes on (`sources_run_in_order`). Neither
the nodes nor the distances of the second source matter to the first, since a run only sees the
distances of nodes that it comes to.
-/

namespace Lox

open Eval

/-! ## What the sources are read as -/

/-- The program of a source behind another one is that of the other one, and then its own, labelled
from where the other ends. -/
theorem Program.ofTokens_append_line {first second : String}
    (lexical : lexicalErrorsOf first = []) (lexical' : lexicalErrorsOf second = [])
    (noErrors : (ofTokens (tokensOf first)).errors = [])
    (noErrors' : (ofTokens (tokensOf second)).errors = []) :
    lexicalErrorsOf (first ++ "\n" ++ second) = [] ∧
      ofTokens (tokensOf (first ++ "\n" ++ second)) =
        ⟨(ofTokens (tokensOf first)).statements ++
            Stmt.relabelList
              (.after (first.toList.count '\n' + 1) (ofTokens (tokensOf first)).nextId)
              (ofTokens (tokensOf second)).statements,
          [], (ofTokens (tokensOf second)).nextId + (ofTokens (tokensOf first)).nextId⟩ := by
  obtain ⟨tokens, line, noEnd, alone, behind⟩ := tokensOf_append_line lexical
  obtain ⟨tokens', line', noEnd', alone', -⟩ := tokensOf_append_line lexical'
  obtain ⟨joined, lexical''⟩ := behind second
  refine ⟨lexical'' lexical', ?_⟩
  rw [joined]
  rw [alone] at noErrors ⊢
  rw [alone'] at noErrors' ⊢
  exact ofTokens_append noEnd noEnd' rfl rfl rfl noErrors rfl noErrors' _

/-- A source behind another one adds its own statements to the program, with other labels, and the
nodes of both have the distances that they have in the one or the other. -/
theorem Source.check_append_line {first second : String} {p q : Checked}
    (accepted : check first = .ok p) (accepted' : check second = .ok q) :
    ∃ ids distances, check (first ++ "\n" ++ second) = .ok ⟨p.statements ++
        Stmt.relabelList (.after (first.toList.count '\n' + 1) ids) q.statements, distances⟩ ∧
      (∀ id ∈ Stmt.idsList p.statements, distances[id]? = p.distances[id]?) ∧
      ∀ id, distances[id + ids]? = q.distances[id]? := by
  obtain ⟨lexical, noErrors, statements, located⟩ := check_eq_ok accepted
  obtain ⟨lexical', noErrors', statements', located'⟩ := check_eq_ok accepted'
  obtain ⟨lexical'', joined⟩ := Program.ofTokens_append_line lexical lexical' noErrors noErrors'
  have spelt (source : String) : ∀ t ∈ tokensOf source, t.Spelt := fun _ => spelt_of_mem_tokensOf
  have read := Program.read_ofTokens (spelt first) noErrors
  have read' := Program.read_ofTokens (spelt second) noErrors'
  have whole := Program.read_ofTokens (spelt (first ++ "\n" ++ second)) (by rw [joined])
  rw [joined] at whole
  rw [statements] at read
  rw [statements'] at read'
  generalize (Program.ofTokens (tokensOf first)).nextId = k at *
  generalize (Program.ofTokens (tokensOf second)).nextId = k' at *
  rw [statements, statements'] at joined whole
  dsimp only at whole
  obtain ⟨distances, located'', kept, kept'⟩ :=
    Stmt.distancesOf_append read read' whole located located'
  refine ⟨k, distances, ?_, fun id inside => kept id (read.2.bounds id inside).2, kept'⟩
  exact check_of_distancesOf lexical'' (congrArg Program.errors joined)
    (congrArg Program.statements joined) located''

/-! ## How they run -/

theorem Eval.topLevel_append (n : Nat) (ss more : List Stmt) :
    topLevel n (ss ++ more) = topLevel n ss >>= fun _ => topLevel n more := by
  induction ss with
  | nil => rfl
  | cons s ss ih => simp only [List.cons_append, topLevel, ih, bind_assoc]

theorem Eval.program_append (n : Nat) (ss more : List Stmt) (distances : Distances) (m : Machine) :
    program n (ss ++ more) distances m =
      (topLevel n ss >>= fun _ => topLevel n more >>= fun _ => flush)
        { m with distances := distances } := by
  rw [← bind_assoc, ← topLevel_append]
  rfl

theorem Outcome.printed_ofResult (r : EStateM.Result Stop Machine Unit) :
    (ofResult r).printed = (machineOf r).printed.toList := by
  cases r with
  | ok _ m => rfl
  | error stop m => cases stop <;> rfl

/-- At other distances, the statements of a program do the same if these are the same for its own
nodes. -/
theorem Checked.topLevel_alike {p : Checked} {distances : Distances}
    (kept : ∀ id ∈ Stmt.idsList p.statements, distances[id]? = p.distances[id]?)
    {moreFuel : Prop} {n n' : Nat}
    (fuels : (Comparison.same p.distances distances moreFuel).Fuels n n') (host : Host) :
    EndsAlike (.same p.distances distances moreFuel) (fun _ _ => True)
      (topLevel n p.statements (p.start host))
      (topLevel n' p.statements { Machine.start host with distances := distances }) :=
  Follows.topLevel_same fuels p.statements kept _ _ (.start _ host)

/-- If a program fails, so does it with more statements behind it. What it prints, it prints first
also with them. -/
theorem Checked.ofResult_append {n n' : Nat} (deep : n ≤ n') {p : Checked} {distances : Distances}
    (kept : ∀ id ∈ Stmt.idsList p.statements, distances[id]? = p.distances[id]?)
    (more : List Stmt) {host : Host} (flushes : host.flushFails = false) {o o' : Outcome}
    (ends : Outcome.ofResult (program n p.statements p.distances (Machine.start host)) = o)
    (ends' :
      Outcome.ofResult (program n' (p.statements ++ more) distances (Machine.start host)) = o') :
    (∀ e, o.ending = .aborted e → o' = o) ∧ (o.ending = .finished → o.printed <+: o'.printed) := by
  have alone : program n p.statements p.distances (Machine.start host) =
      (topLevel n p.statements >>= fun _ => flush) (p.start host) := rfl
  have fuels : (Comparison.same p.distances distances True).Fuels n n' := .inr ⟨trivial, deep⟩
  have alike := Checked.topLevel_alike kept fuels host
  have goesOn := keeps_topLevel n p.statements (p.start host)
  rw [alone] at ends
  rw [program_append] at ends'
  generalize e : topLevel n p.statements (p.start host) = r at alike goesOn
  generalize e' : topLevel n' p.statements _ = r' at alike
  cases alike with
  | @ok _ _ m m' machines _ =>
    have flushed : flush m = .ok () m := by
      rw [flush, show m.host = host from goesOn.host, flushes]
      rfl
    rw [bind_of_ok e, flushed] at ends
    rw [bind_of_ok e'] at ends'
    have goesOn' := keeps_bind (keeps_topLevel n' more) (fun _ => keeps_flush) m'
    have printed := goesOn'.printed
    rw [machines.printed_eq] at printed
    rw [← ends, ← ends', Outcome.printed_ofResult, Outcome.printed_ofResult]
    exact ⟨nofun, fun _ => printed⟩
  | failed machines failures =>
    rw [bind_of_error e] at ends
    rw [bind_of_error e'] at ends'
    have fails : EndsAlike _ (fun _ _ : Unit => True) _ _ := .failed machines failures
    rw [← ends, ← ends']
    exact ⟨fun _ _ => fails.outcome_eq nofun, nofun⟩
  | outOfFuel =>
    rw [bind_of_error e] at ends
    rw [← ends]
    exact ⟨nofun, nofun⟩

/-- If two sources are accepted, so is the second on the lines after the first. If the run of the
first fails, the run of both prints the same and fails in the same way, and in no other. If the run
of the first finishes, then the run of both, however it ends, prints first what the first prints. -/
theorem sources_run_in_order {first second : String} {p q : Checked}
    (accepted : Source.check first = .ok p) (accepted' : Source.check second = .ok q) :
    (∃ r, Source.check (first ++ "\n" ++ second) = .ok r) ∧
    ∀ host : Host, host.flushFails = false →
      (∀ printed e, RunsTo host first ⟨printed, .aborted e⟩ →
        ∀ o, RunsTo host (first ++ "\n" ++ second) o ↔ o = ⟨printed, .aborted e⟩) ∧
      ∀ printed, RunsTo host first ⟨printed, .finished⟩ →
        ∀ o, RunsTo host (first ++ "\n" ++ second) o → printed <+: o.printed := by
  obtain ⟨ids, distances, accepted'', kept, -⟩ := Source.check_append_line accepted accepted'
  refine ⟨⟨_, accepted''⟩, fun host flushes => ?_⟩
  have together {n n' : Nat} (deep : n ≤ n') {o o' : Outcome} (ran : run n host first = o)
      (ran' : run n' host (first ++ "\n" ++ second) = o') :
      (∀ e, o.ending = .aborted e → o' = o) ∧
        (o.ending = .finished → o.printed <+: o'.printed) := by
    rw [run, accepted] at ran
    rw [run, accepted''] at ran'
    exact Checked.ofResult_append deep kept _ flushes ran ran'
  constructor
  · rintro printed e ⟨n, ran, -⟩ o
    have fails : RunsTo host (first ++ "\n" ++ second) ⟨printed, .aborted e⟩ :=
      ⟨n, (together (Nat.le_refl n) ran rfl).1 e rfl, nofun⟩
    constructor
    · exact fun ends => ends.unique fails
    · rintro rfl
      exact fails
  · rintro printed ⟨n, ran, -⟩ o ⟨n', rfl, ended⟩
    have ran' := run_of_le (Nat.le_max_right n n') ended
    exact (together (Nat.le_max_left n n') ran ran').2 rfl

/-- A function that is declared behind a source comes too late for it, and one that is replaced
there has run by then. -/
theorem second_source_is_late :
    let host : Host := ⟨fun _ => 0, none, false⟩
    let fails := "print \"one\"; f(); // two"
    let finishes := "fun f() \x7b print \"one\"; \x7d f(); // two"
    let second := "var f; f();"
    ∃ p p' q, Source.check fails = .ok p ∧ Source.check finishes = .ok p' ∧
      Source.check second = .ok q ∧ host.flushFails = false ∧
      RunsTo host fails ⟨["one"], .aborted (.runtime ⟨.undefinedVariable "f", 1⟩)⟩ ∧
      (∀ o, RunsTo host (fails ++ "\n" ++ second) o ↔
        o = ⟨["one"], .aborted (.runtime ⟨.undefinedVariable "f", 1⟩)⟩) ∧
      RunsTo host finishes ⟨["one"], .finished⟩ ∧
      ∀ o, RunsTo host (finishes ++ "\n" ++ second) o → ["one"] <+: o.printed := by
  intro host fails finishes second
  obtain ⟨p, accepted⟩ : ∃ p, Source.check fails = .ok p := ⟨_, by cbv⟩
  obtain ⟨p', accepted'⟩ : ∃ p, Source.check finishes = .ok p := ⟨_, by cbv⟩
  obtain ⟨q, accepted''⟩ : ∃ q, Source.check second = .ok q := ⟨_, by cbv⟩
  have ends : RunsTo host fails ⟨["one"], .aborted (.runtime ⟨.undefinedVariable "f", 1⟩)⟩ :=
    ⟨8, by cbv, by rintro ⟨⟩⟩
  have ends' : RunsTo host finishes ⟨["one"], .finished⟩ := ⟨8, by cbv, by rintro ⟨⟩⟩
  refine ⟨p, p', q, accepted, accepted', accepted'', rfl, ends, ?_, ends', ?_⟩
  · exact ((sources_run_in_order accepted accepted'').2 host rfl).1 _ _ ends
  · exact ((sources_run_in_order accepted' accepted'').2 host rfl).2 _ ends'

end Lox
