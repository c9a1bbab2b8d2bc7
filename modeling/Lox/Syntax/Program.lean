import Lox.Syntax.Grammar

/-!
# Programs and single expressions

`Program.ofTokens` reads declarations up to the end of the input. After a syntax error it goes on
at the next place where a statement may begin (`resume`), so that one reading finds every error it
can. `Expr.ofTokens` reads one expression that must be all of the input.
-/

namespace Lox

/-- Does a statement that begins with a keyword of its own begin here? -/
def TokenKind.startsStatement : TokenKind → Bool
  | .keyword .class | .keyword .fun | .keyword .var | .keyword .for | .keyword .if
  | .keyword .while | .keyword .print | .keyword .return => true
  | _ => false

/-- The tokens at which reading goes on: after a semicolon, before a statement, or at the end.
`previous` is the token before `ts`. -/
def resumeFrom (previous : TokenKind) : List Token → List Token
  | [] => []
  | t :: ts =>
    match t.kind, previous with
    | .eof, _ => t :: ts
    | _, .symbol .semicolon => t :: ts
    | kind, _ => if kind.startsStatement then t :: ts else resumeFrom kind ts

/-- The tokens at which reading goes on after an error: one token is skipped in any case, unless
the input ends. -/
def resume : List Token → List Token
  | [] => []
  | t :: ts =>
    match t.kind with
    | .eof => t :: ts
    | kind => resumeFrom kind ts

/-- What was read of a program. -/
structure Program where
  statements : List Stmt
  errors : List SyntaxError
  /-- The number that the next node would have. -/
  nextId : ExprId

namespace Program

/-- Reads declarations up to the end of the input. Each round takes a token at least, so `rounds`
may be the number of tokens; rules are nested up to `depth`. -/
def readFrom (depth : Nat) : Nat → Cursor → Program
  | 0, c => ⟨[], [], c.nextId⟩
  | rounds + 1, c =>
    if c.atEnd then
      ⟨[], [], c.nextId⟩
    else
      match Rule.declaration depth c with
      | .ok s c =>
        let p := readFrom depth rounds c
        { p with statements := s :: p.statements }
      | .error e c =>
        let p := readFrom depth rounds { c with rest := resume c.rest }
        { p with errors := e :: p.errors }

/-- Reads a list of tokens as a program. -/
def ofTokens (tokens : List Token) : Program :=
  readFrom (depth tokens) tokens.length ⟨tokens, 0⟩

/-- The statements of a program without errors. -/
def statements? (p : Program) : Except (List SyntaxError) (List Stmt) :=
  if p.errors.isEmpty then .ok p.statements else .error p.errors

theorem statements?_eq_ok {p : Program} {ss : List Stmt} (h : p.statements? = .ok ss) :
    p.errors = [] ∧ p.statements = ss := by
  unfold statements? at h
  split at h
  · rename_i none
    exact ⟨List.isEmpty_iff.mp none, Except.ok.inj h⟩
  · cases h

end Program

/-- The rule for an expression that is all of the input. -/
def Rule.wholeExpression (depth : Nat) : Rule Expr := do
  let e ← Rule.expression depth
  if ← Rule.atEnd then
    return e
  else
    Rule.fail .missingEnd

/-- Reads a list of tokens as one expression. -/
def Expr.ofTokens (tokens : List Token) : Except SyntaxError Expr :=
  match Rule.wholeExpression (depth tokens) ⟨tokens, 0⟩ with
  | .ok e _ => .ok e
  | .error e _ => .error e

end Lox
