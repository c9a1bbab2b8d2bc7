import Lox.Diagnostic
import Lox.Syntax.Program
import Lox.Scope.Resolve

/-!
# What a source is read as

A source passes three stages before it runs: scanning, reading and surveying. Here each stage is
taken only when the one before found nothing wrong. `check` is the exception: it reads the good
tokens of a source with lexical errors too, so that it finds the errors of both stages.
-/

namespace Lox

/-- The stage that finds an error. -/
inductive Stage
  | scanning | reading | surveying | running
deriving DecidableEq, Repr

/-- The errors that a stage finds. -/
structure Fault where
  stage : Stage
  errors : List Diagnostic

/-- A program that may be executed, and where its references lie. -/
structure Checked where
  statements : List Stmt
  distances : Distances

namespace Source

/-- The tokens of a source without lexical errors. -/
def tokens (source : String) : Except Fault (List Token) :=
  match lexicalErrorsOf source with
  | [] => .ok (tokensOf source)
  | errors => .error ⟨.scanning, errors.map Diagnostic.lexical⟩

/-- The one expression that a source is. -/
def expression (source : String) : Except Fault Expr := do
  match Expr.ofTokens (← tokens source) with
  | .ok e => .ok e
  | .error e => .error ⟨.reading, [.syntactic e]⟩

/-- The statements of a source. -/
def statements (source : String) : Except Fault (List Stmt) := do
  match (Program.ofTokens (← tokens source)).statements? with
  | .ok statements => .ok statements
  | .error errors => .error ⟨.reading, errors.map Diagnostic.syntactic⟩

/-- A source is read as statements if neither scanning nor reading finds an error. -/
theorem statements_eq_ok {source : String} {ss : List Stmt} :
    statements source = .ok ss ↔ lexicalErrorsOf source = [] ∧
      (Program.ofTokens (tokensOf source)).statements? = .ok ss := by
  unfold statements tokens
  cases lexicalErrorsOf source with
  | cons _ _ => simp [bind, Except.bind]
  | nil =>
    simp only [bind, Except.bind, true_and]
    cases (Program.ofTokens (tokensOf source)).statements? with
    | error errors => simp
    | ok ss' => simp

/-- The statements of a source, and where its references lie. -/
def checked (source : String) : Except Fault Checked := do
  let statements ← statements source
  match distancesOf statements with
  | .ok distances => .ok ⟨statements, distances⟩
  | .error errors => .error ⟨.surveying, errors.map Diagnostic.scope⟩

/-- The program of a source, or all lexical and syntax errors, or, if there are none, all breaches
of the scope rules. -/
def check (source : String) : Except (List Diagnostic) Checked :=
  let lexical := (lexicalErrorsOf source).map Diagnostic.lexical
  match (Program.ofTokens (tokensOf source)).statements? with
  | .error errors => .error (lexical ++ errors.map Diagnostic.syntactic)
  | .ok statements =>
    if lexical.isEmpty then
      match distancesOf statements with
      | .error errors => .error (errors.map Diagnostic.scope)
      | .ok distances => .ok ⟨statements, distances⟩
    else
      .error lexical

end Source

end Lox
