import Lox.Proofs.Syntax.Printed
import Lox.Proofs.Scope.Located
import Lox.Proofs.Relabelling.Run
import Lox.Proofs.Eval.CurrentFrame
import Lox.Proofs.Eval.Plain

/-!
# Evaluating and printing

To evaluate an expression on a new machine and to run the program that prints it come to the same
(`evaluating_agrees_with_printing`). The survey of this program has nothing to note
(`Expr.survey_start`), so that both find every name among the globals; and since the evaluation
prints nothing, what the program prints is the text of its value (`Report.Agrees`).
-/

namespace Lox

/-! ## The survey -/

/-- The token is neither `this` nor `super`. -/
def Token.IsFree (t : Token) : Prop :=
  t.kind ≠ .keyword .this ∧ t.kind ≠ .keyword .super

theorem Survey.refer_start (id : ExprId) (name : Lexeme) : start.refer id name = start := by
  have unknown : start.status? name.text ≠ some .declared := by simp [start, status?]
  rw [refer, if_neg unknown]
  rfl

mutual

/-- Without scopes around it, an expression has no distances. -/
theorem Expr.survey_start : (e : Expr) → e.WellFormed Token.IsFree → e.survey .start = .start
  | .assign id name value, h => by rw [survey, survey_start value h.2]; rfl
  | .binary _ _ left right, h | .logical _ _ left right, h => by
    rw [survey, survey_start left h.1, survey_start right h.2]
  | .call callee _ arguments, h => by
    rw [survey, survey_start callee h.1, Expr.surveyList_start arguments h.2]
  | .get object _, h => survey_start object h.1
  | .grouping inner, h => survey_start inner h
  | .literal _, _ => rfl
  | .set object _ value, h => by rw [survey, survey_start value h.2.2, survey_start object h.1]
  | .super .., h => by
    obtain ⟨⟨t, free, isSuper, -⟩, -⟩ := h
    exact absurd isSuper free.2
  | .this .., h => by
    obtain ⟨t, free, isThis, -⟩ := h
    exact absurd isThis free.1
  | .unary _ _ right, h => survey_start right h
  | .variable id name, _ => Survey.refer_start id name

theorem Expr.surveyList_start : (es : List Expr) → Expr.WellFormedList Token.IsFree es →
    Expr.surveyList es .start = .start
  | [], _ => rfl
  | e :: es, h => by rw [surveyList, Expr.survey_start e h.1, surveyList_start es h.2]

end

theorem distancesOf_print {e : Expr} (h : e.WellFormed Token.IsFree) :
    distancesOf [.print e] = .ok ∅ := by
  have same : Stmt.surveyList [.print e] .start = .start := Expr.survey_start e h
  rw [distancesOf, same]
  rfl

/-! ## Evaluating and running -/

/-- How a program ends that prints one text: the sink or its flush may fail. -/
def Outcome.ofText (host : Host) (text : String) : Outcome :=
  if host.capacity = some 0 then ⟨[], .aborted (.io .sinkFull)⟩
  else if host.flushFails then ⟨[text], .aborted (.io .flushFailed)⟩
  else ⟨[text], .finished⟩

/-- How the evaluation of an expression ends, and how the program ends that prints it. -/
inductive Report.Agrees (host : Host) : Report → Outcome → Prop
  | value (v : Value) : Agrees host (.value v) (.ofText host v.text)
  | failed (error : RuntimeError) :
    Agrees host (.failed ⟨.running, [.runtime error]⟩) ⟨[], .aborted (.runtime error)⟩
  | outOfFuel (printed : List String) : Agrees host .outOfFuel ⟨printed, .outOfFuel⟩

/-- The evaluation of the source ends, in this way. -/
def EvaluatesTo (host : Host) (source : String) (r : Report) : Prop :=
  ∃ n, (Session.step n (Machine.start host) (.evaluate source)).1 = r ∧ r ≠ .outOfFuel

theorem Outcome.ofResult_write {host : Host} {m : Machine} (same : m.host = host)
    (silent : m.printed = #[]) (text : String) :
    ofResult ((Eval.write text >>= fun _ => Eval.flush) m) = .ofText host text := by
  subst same
  unfold ofText
  split
  · rename_i full
    have failed : Eval.write text m = .error (.failed (.io .sinkFull)) m := by
      simp [Eval.write, full]
    rw [bind_of_error failed]
    simp [ofResult, silent, Failure.diagnostic]
  · rename_i takes
    have written : Eval.write text m = .ok () { m with printed := m.printed.push text } := by
      unfold Eval.write
      split
      · rename_i n limit
        have more : ¬ n ≤ m.printed.size := by
          rw [silent]
          rintro none
          exact takes (limit.trans (congrArg some (Nat.le_zero.mp none)))
        rw [if_neg more]
      · rfl
    rw [bind_of_ok written, Eval.flush]
    split
    · simp [ofResult, silent, Failure.diagnostic]
    · simp [ofResult, silent]

/-- What the program does that prints the expression. -/
theorem Eval.program_print (n : Nat) (e : Expr) (host : Host) :
    program (n + 1) [.print e] ∅ (Machine.start host) =
      (expr n e >>= fun v => write v.text >>= fun _ => flush) (Machine.start host) := by
  have body : (topLevel (n + 1) [.print e] >>= fun _ => flush) =
      expr n e >>= fun v => write v.text >>= fun _ => flush := by
    simp only [topLevel, stmt, bind_assoc, pure_bind]
  rw [← body]
  rfl

/-- Whatever the fuel is, the program that prints an expression ends as the evaluation says, which
ends if the fuel is as much as the expression is large. -/
theorem Report.agrees_of_check {source source' : String} {e : Expr}
    (read : Source.expression source = .ok e)
    (accepted : Source.check source' = .ok ⟨[.print e], ∅⟩) (host : Host) (n : Nat) :
    let report := (Session.step n (Machine.start host) (.evaluate source)).1
    Agrees host report (run (n + 1) host source') ∧ (sizeOf e ≤ n → report ≠ .outOfFuel) := by
  have plain : (Machine.start host).heap.Within Value.IsPlain := .start host trivial
  have ends := (Eval.plainlyExpressions n).expr e _ plain
  have goesOn := Eval.keeps_task n (.expr e) (Machine.start host)
  rw [run, accepted, Session.step, read]
  dsimp only [Session.proceed, Task.run] at goesOn ⊢
  rw [Eval.program_print]
  generalize evaluated : Eval.expr n e (Machine.start host) = r at ends goesOn
  cases ends with
  | ok _ _ silent =>
    have same := goesOn.host
    rw [machineOf] at same
    rw [bind_of_ok evaluated, Outcome.ofResult_write same silent]
    exact ⟨.value _, fun _ => Report.noConfusion⟩
  | failed silent =>
    rw [bind_of_error evaluated, Outcome.ofResult, silent]
    exact ⟨.failed _, fun _ => Report.noConfusion⟩
  | outOfFuel short =>
    rw [bind_of_error evaluated]
    exact ⟨.outOfFuel _, fun enough => absurd enough short⟩

namespace Outcome

theorem ofText_ends (host : Host) (text : String) : (ofText host text).ending ≠ .outOfFuel := by
  unfold ofText
  split_ifs <;> nofun

/-- To print a text is no runtime error. -/
theorem ofText_ne_aborted (host : Host) (text : String) (error : RuntimeError) :
    (ofText host text).ending ≠ .aborted (.runtime error) := by
  unfold ofText
  split_ifs <;> nofun

theorem ofText_of_takes {host : Host} (takes : host.capacity ≠ some 0)
    (flushes : host.flushFails = false) (text : String) :
    ofText host text = ⟨[text], .finished⟩ := by
  rw [ofText, if_neg takes, flushes]
  rfl

theorem output_singleton (text : String) (ending : Ending) :
    output ⟨[text], ending⟩ = text ++ "\n" := by
  simp [output, String.join]

end Outcome

namespace Report.Agrees

variable {host : Host} {r : Report} {o o' : Outcome}

theorem ends_iff (h : Agrees host r o) : o.ending ≠ .outOfFuel ↔ r ≠ .outOfFuel := by
  cases h with
  | value v => exact iff_of_true (Outcome.ofText_ends host v.text) nofun
  | failed error => exact iff_of_true nofun nofun
  | outOfFuel printed => exact iff_of_false (fun ended => ended rfl) fun ended => ended rfl

theorem unique (h : Agrees host r o) (h' : Agrees host r o') (ends : r ≠ .outOfFuel) : o = o' := by
  cases h with
  | value v =>
    cases h'
    rfl
  | failed error =>
    cases h'
    rfl
  | outOfFuel printed => exact absurd rfl ends

end Report.Agrees

/-! ## Whole evaluations -/

section
variable {source source' : String} {e : Expr} (read : Source.expression source = .ok e)
  (accepted : Source.check source' = .ok ⟨[.print e], ∅⟩) (host : Host)
include read accepted

/-- The program that prints an expression runs to what agrees with its evaluation, and to nothing
else. -/
theorem runsTo_iff_evaluatesTo (o : Outcome) :
    RunsTo host source' o ↔ ∃ r, EvaluatesTo host source r ∧ r.Agrees host o := by
  have agrees (n : Nat) := (Report.agrees_of_check read accepted host n).1
  constructor
  · rintro ⟨n, rfl, ended⟩
    cases n with
    | zero =>
      rw [run, accepted] at ended
      exact absurd rfl ended
    | succ n => exact ⟨_, ⟨n, rfl, (agrees n).ends_iff.mp ended⟩, agrees n⟩
  · rintro ⟨_, ⟨n, rfl, ended⟩, agrees'⟩
    obtain rfl := (agrees n).unique agrees' ended
    exact ⟨n + 1, rfl, (agrees n).ends_iff.mpr ended⟩

/-- An evaluation ends with a value or with a runtime error. -/
theorem evaluatesTo_value_or_error :
    (∃ v, EvaluatesTo host source (.value v)) ∨
      ∃ error, EvaluatesTo host source (.failed ⟨.running, [.runtime error]⟩) := by
  obtain ⟨agrees, ends⟩ := Report.agrees_of_check read accepted host (sizeOf e)
  have ended := ends (Nat.le_refl _)
  have evaluates : EvaluatesTo host source _ := ⟨sizeOf e, rfl, ended⟩
  generalize (Session.step (sizeOf e) (Machine.start host) (.evaluate source)).1 = r at *
  generalize run (sizeOf e + 1) host source' = o at agrees
  cases agrees with
  | value v => exact .inl ⟨v, evaluates⟩
  | failed error => exact .inr ⟨error, evaluates⟩
  | outOfFuel printed => exact absurd rfl ended

theorem evaluatesTo_error_iff (error : RuntimeError) :
    EvaluatesTo host source (.failed ⟨.running, [.runtime error]⟩) ↔
      ∃ o, RunsTo host source' o ∧ o.ending = .aborted (.runtime error) ∧ o.output = "" := by
  have agree := runsTo_iff_evaluatesTo read accepted host
  constructor
  · intro evaluates
    exact ⟨_, (agree _).mpr ⟨_, evaluates, .failed error⟩, rfl, rfl⟩
  · rintro ⟨o, runs, aborted, -⟩
    obtain ⟨r, evaluates, agrees⟩ := (agree o).mp runs
    cases agrees with
    | value v => exact absurd aborted (Outcome.ofText_ne_aborted host v.text error)
    | failed error' =>
      cases aborted
      exact evaluates
    | outOfFuel printed => cases aborted

theorem evaluatesTo_value_iff (takes : host.capacity ≠ some 0) (flushes : host.flushFails = false)
    (text : String) :
    (∃ v, EvaluatesTo host source (.value v) ∧ v.text = text) ↔
      ∃ o, RunsTo host source' o ∧ o.ending = .finished ∧ o.output = text ++ "\n" := by
  have agree := runsTo_iff_evaluatesTo read accepted host
  constructor
  · rintro ⟨v, evaluates, rfl⟩
    refine ⟨_, (agree _).mpr ⟨_, evaluates, .value v⟩, ?_⟩
    rw [Outcome.ofText_of_takes takes flushes]
    exact ⟨rfl, Outcome.output_singleton ..⟩
  · rintro ⟨o, runs, finished, output⟩
    obtain ⟨r, evaluates, agrees⟩ := (agree o).mp runs
    cases agrees with
    | value v =>
      rw [Outcome.ofText_of_takes takes flushes, Outcome.output_singleton] at output
      exact ⟨v, evaluates, (String.append_left_inj _).mp output⟩
    | failed | outOfFuel => cases finished

end

theorem Source.expression_of_ofTokens {source : String} {e : Expr}
    (lexical : lexicalErrorsOf source = []) (read : Expr.ofTokens (tokensOf source) = .ok e) :
    expression source = .ok e := by
  have scanned : tokens source = .ok (tokensOf source) := by
    rw [tokens, lexical]
  simp only [expression, scanned, bind, Except.bind, read]

/-- To evaluate an expression and to print it come to the same, if it is read without errors and
has neither `this` nor `super`. The program that prints it has the same tree, with the same numbers
of nodes, and no distances. The evaluation always ends: with a value whose text is the only line
that the program prints, or with the runtime error with which the program fails, having printed
nothing. -/
theorem evaluating_agrees_with_printing {source : String} {e : Expr}
    (lexical : lexicalErrorsOf source = [])
    (free : ∀ t ∈ tokensOf source, t.kind ≠ .keyword .this ∧ t.kind ≠ .keyword .super)
    (read : Expr.ofTokens (tokensOf source) = .ok e) :
    (Program.ofTokens (tokensOf (printing source))).statements? = .ok [.print e] ∧
    Source.check (printing source) = .ok ⟨[.print e], ∅⟩ ∧
    ∀ host : Host,
      ((∃ v, EvaluatesTo host source (.value v)) ∨
        ∃ error, EvaluatesTo host source (.failed ⟨.running, [.runtime error]⟩)) ∧
      (∀ error, EvaluatesTo host source (.failed ⟨.running, [.runtime error]⟩) ↔
        ∃ o, RunsTo host (printing source) o ∧ o.ending = .aborted (.runtime error) ∧
          o.output = "") ∧
      (host.capacity ≠ some 0 → host.flushFails = false → ∀ text,
        (∃ v, EvaluatesTo host source (.value v) ∧ v.text = text) ↔
          ∃ o, RunsTo host (printing source) o ∧ o.ending = .finished ∧
            o.output = text ++ "\n") := by
  obtain ⟨id, program⟩ := Program.ofTokens_printing lexical read
  obtain ⟨-, -, -, -, noErrors, -⟩ := tokensOf_printing lexical
  have accepted : Source.check (printing source) = .ok ⟨[.print e], ∅⟩ :=
    Source.check_of_distancesOf noErrors (congrArg Program.errors program)
      (congrArg Program.statements program) (distancesOf_print (Expr.wellFormed_ofTokens free read))
  have expression := Source.expression_of_ofTokens lexical read
  refine ⟨by rw [program]; rfl, accepted, fun host => ⟨?_, ?_, ?_⟩⟩
  · exact evaluatesTo_value_or_error expression accepted host
  · exact evaluatesTo_error_iff expression accepted host
  · exact evaluatesTo_value_iff expression accepted host

/-- A comment does not reach the semicolon, and a string may go over lines. -/
theorem sum_of_strings_is_printed :
    let host : Host := ⟨fun _ => 0, none, false⟩
    let source := "\"a\" + \"\nb\" // ;"
    let e : Expr := .binary .add ⟨"+", 1⟩ (.literal (.string "a")) (.literal (.string "\nb"))
    lexicalErrorsOf source = [] ∧
      (∀ t ∈ tokensOf source, t.kind ≠ .keyword .this ∧ t.kind ≠ .keyword .super) ∧
      Expr.ofTokens (tokensOf source) = .ok e ∧
      Source.check (printing source) = .ok ⟨[.print e], ∅⟩ ∧
      ∃ o, RunsTo host (printing source) o ∧ o.ending = .finished ∧ o.output = "a\nb\n" := by
  intro host source e
  have lexical : lexicalErrorsOf source = [] := by cbv
  have scanned : tokensOf source = [⟨.string "a", "\"a\"", 1⟩, ⟨.symbol .plus, "+", 1⟩,
      ⟨.string "\nb", "\"\nb\"", 2⟩, ⟨.eof, "", 2⟩] := by cbv
  have free : ∀ t ∈ tokensOf source, t.kind ≠ .keyword .this ∧ t.kind ≠ .keyword .super := by
    rw [scanned]
    simp
  have read : Expr.ofTokens (tokensOf source) = .ok e := by
    cbv
  obtain ⟨-, accepted, agrees⟩ := evaluating_agrees_with_printing lexical free read
  have evaluates : EvaluatesTo host source (.value (.string "a\nb")) := ⟨2, by cbv, Report.noConfusion⟩
  have takes : host.capacity ≠ some 0 := (Option.some_ne_none 0).symm
  exact ⟨lexical, free, read, accepted, ((agrees host).2.2 takes rfl _).mp ⟨_, evaluates, rfl⟩⟩

end Lox
