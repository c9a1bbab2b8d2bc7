import Std.Time.DateTime.Timestamp
import Lox.Command

/-!
# The command line

`lox COMMAND FILE [--json] [--log]`, where the command is `tokenize`, `parse`, `evaluate` or `run`.
-/

namespace Lox.Main

/-- What the arguments ask for: a command and the file it is for. -/
def request? (args : List String) : Option (Command × String) :=
  let json := args.contains "--json"
  match args.filter fun arg => arg ≠ "--json" && arg ≠ "--log" with
  | ["tokenize", file] => some (.tokenize json, file)
  | ["parse", file] => some (.parse, file)
  | ["evaluate", file] => some (.evaluate, file)
  | ["run", file] => some (.run, file)
  | _ => none

/-- The bytes of a file, or why it could not be read. -/
def readFile (file : String) : IO (Except ReadError ByteArray) := do
  try
    return .ok (← IO.FS.readBinFile file)
  catch
    | .noFileOrDirectory .. => return .error .missing
    | e => return .error (.other (toString e))

/-- The clock begins with the time at which the command was started, and goes on by a millisecond
each time it is read. -/
def host : IO Host := do
  let now ← Std.Time.Timestamp.now
  let start := Float.ofInt now.toMillisecondsSinceUnixEpoch.toInt
  return ⟨fun n => (start + Float.ofNat n) / 1000, none, false⟩

end Lox.Main

open Lox in
/-- Does what the arguments ask for. -/
def main (args : List String) : IO UInt32 := do
  match Main.request? args with
  | none =>
    (← IO.getStderr).putStrLn "Usage: lox <tokenize|parse|evaluate|run> FILE [--json] [--log]"
    return 2
  | some (command, file) =>
    match command.onFile ampleFuel (← Main.host) file (← Main.readFile file) with
    | some t =>
      (← IO.getStdout).putStr t.stdout
      (← IO.getStderr).putStr t.stderr
      return UInt32.ofNat t.exitCode
    | none => return 70
