import Lox.Run
import Lox.Session
import Lox.Syntax.Print

/-!
# Commands

What the command line does with a file: list its tokens, show its syntax tree, evaluate the
expression in it, or run it. A command gives what is written to the two output streams, and the
exit code: 65 for a source that is wrong, 70 for a failure while it runs.
-/

namespace Lox

/-- The commands. -/
inductive Command
  | tokenize (json : Bool)
  | parse
  | evaluate
  | run
deriving DecidableEq, Repr

/-- Why a file could not be read as text. -/
inductive ReadError
  | missing
  | notText
  | other (reason : String)
deriving DecidableEq, Repr

/-- What is said about it. -/
def ReadError.message : ReadError → String
  | missing => "No such file or directory (os error 2)"
  | notText => "stream did not contain valid UTF-8"
  | other reason => reason

/-- What a command writes, and its exit code. -/
structure Transcript where
  stdout : String
  stderr : String
  exitCode : Nat
deriving DecidableEq, Repr

/-- The exit code for the errors that a stage finds. -/
def Stage.exitCode : Stage → Nat
  | scanning | reading | surveying => 65
  | running => 70

namespace Transcript

/-- A text on a line of its own. -/
def success (text : String) : Transcript :=
  ⟨text ++ "\n", "", 0⟩

/-- Errors, after `stdout` was written. -/
def failure (stdout : String) (errors : List Diagnostic) (exitCode : Nat) : Transcript :=
  ⟨stdout, Diagnostic.textOf errors ++ "\n", exitCode⟩

/-- A file that could not be read. -/
def unreadable (file : String) (error : ReadError) : Transcript :=
  ⟨"", "Error: Failed to read file " ++ Text.Quoted.debugFile file ++ "\n\nCaused by:\n    " ++
    error.message ++ "\n", 1⟩

end Transcript

namespace Command

/-- Lists tokens on one stream, and errors on the other. -/
def tokenizeSource (json : Bool) (source : String) : Transcript :=
  let line (t : Token) := (if json then t.json else t.text) ++ "\n"
  let errors := (lexicalErrorsOf source).map fun e => (Diagnostic.lexical e).text ++ "\n"
  ⟨String.join ((tokensOf source).map line), String.join errors, if errors.isEmpty then 0 else 65⟩

/-- Shows the syntax tree of a program. -/
def parseSource (source : String) : Transcript :=
  match Source.statements source with
  | .ok statements => .success (programText statements)
  | .error fault => .failure "" fault.errors fault.stage.exitCode

/-- Evaluates one expression on a new machine; nothing if the fuel does not last. -/
def evaluateSource (fuel : Nat) (host : Host) (source : String) : Option Transcript :=
  match (Session.step fuel (Machine.start host) (.evaluate source)).1 with
  | .value v => some (.success v.text)
  | .failed fault => some (.failure "" fault.errors fault.stage.exitCode)
  | .done | .outOfFuel => none

/-- Runs a program on a new machine; nothing if the fuel does not last. -/
def runSource (fuel : Nat) (host : Host) (source : String) : Option Transcript :=
  let outcome := Lox.run fuel host source
  match outcome.ending with
  | .finished => some ⟨outcome.output, "", 0⟩
  | .rejected errors => some (.failure outcome.output errors 65)
  | .aborted error => some (.failure outcome.output [error] 70)
  | .outOfFuel => none

/-- What a command does with a source. -/
def onSource (fuel : Nat) (host : Host) (source : String) : Command → Option Transcript
  | tokenize json => some (tokenizeSource json source)
  | parse => some (parseSource source)
  | evaluate => evaluateSource fuel host source
  | run => runSource fuel host source

/-- What a command does with a file, of which either the bytes are known or why it could not be
read. -/
def onFile (fuel : Nat) (host : Host) (file : String) (bytes : Except ReadError ByteArray)
    (c : Command) : Option Transcript :=
  match bytes with
  | .error e => some (.unreadable file e)
  | .ok bytes =>
    match String.fromUTF8? bytes with
    | none => some (.unreadable file .notText)
    | some source => c.onSource fuel host source

end Command

end Lox
