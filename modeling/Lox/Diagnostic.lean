import Lox.Token.Scan
import Lox.Syntax.Error
import Lox.Machine

/-!
# Diagnostics

An error of any stage, as it is shown: the stage, the line it points at, what is said about it, and
the full text (`Diagnostic.text`). The full texts of several errors are put on lines of their own
(`Diagnostic.textOf`).
-/

namespace Lox

/-- An error of any stage. -/
inductive Diagnostic
  | lexical (e : LexicalError)
  | syntactic (e : SyntaxError)
  | scope (e : ScopeError)
  | runtime (e : RuntimeError)
  | io (e : IoError)

/-- The place of a token, in words: its text, or the end of the input. -/
def Token.place (t : Token) : String :=
  match t.kind with
  | .eof => "at end"
  | _ => "at '" ++ t.lexeme ++ "'"

/-- A failure of a running program. -/
def Failure.diagnostic : Failure → Diagnostic
  | runtime e => .runtime e
  | io e => .io e

namespace Diagnostic

/-- The kind of error. -/
def kind : Diagnostic → String
  | lexical _ => "Lex"
  | syntactic _ => "Parse"
  | scope _ => "Resolve"
  | runtime _ => "Runtime"
  | io _ => "Io"

/-- The line that the error points at, if it points at one. -/
def line? : Diagnostic → Option Nat
  | lexical e => some e.line
  | syntactic e => some e.token.line
  | scope e => some e.blamed.line
  | runtime e => some e.line
  | io _ => none

/-- What is said about the error. -/
def message : Diagnostic → String
  | lexical e => e.cause.message
  | syntactic e => e.cause.message
  | scope e => e.cause.message
  | runtime e => e.cause.message
  | io e => e.message

/-- A message after the line, and the place on it if there is one. -/
def located (line : Nat) (place message : String) : String :=
  "[line " ++ toString line ++ "] Error" ++ place ++ ": " ++ message

/-- The error as it is shown. -/
def text : Diagnostic → String
  | lexical e => located e.line "" e.cause.message
  | syntactic e => located e.token.line (" " ++ e.token.place) e.cause.message
  | scope e => located e.blamed.line (" at '" ++ e.blamed.text ++ "'") e.cause.message
  | runtime e => e.cause.message ++ "\n[line " ++ toString e.line ++ "]"
  | io e => e.message

/-- Several errors as they are shown. -/
def textOf (errors : List Diagnostic) : String :=
  "\n".intercalate (errors.map text)

end Diagnostic

end Lox
