/-
  PrologMachine.Main ── **THE PROGRAM.**

  Carries out the requests of the command line with the real console and the real files.
-/
import PrologMachine.Console.Command

namespace PrologMachine.Console

/-- Why a file could not be read.  A number that the system gives its faults tells reading a
    directory from passing through a file, and a path with a zero byte from one too long. -/
def faultOf : IO.Error → FileFault
  | .noFileOrDirectory .. => .missing
  | .inappropriateType _ 21 _ => .directory
  | .inappropriateType .. => .notDirectory
  | .invalidArgument _ 22 _ => .unreadable "invalid argument"
  | .invalidArgument .. => .tooLong
  | .permissionDenied .. => .unreadable "permission denied"
  | e => .unreadable (toString e)

/-- Read a file. -/
def readSource (path : String) : IO (Except FileFault String) := do
  try
    return .ok (← IO.FS.readFile path)
  catch e =>
    return .error (faultOf e)

/-- Carry out the requests of a console program. -/
def converse : Dialogue → IO Nat
  | .exit code => return code
  | .print text next => do
    let out ← IO.getStdout
    out.putStr text
    out.flush
    converse next
  | .complain text next => do
    (← IO.getStderr).putStr text
    converse next
  | .readLine next => do
    let line ← (← IO.getStdin).getLine
    converse (next (if line.isEmpty then none else some line))
  | .readFile path next => do
    let content ← readSource path
    converse (next content)

/-- The rounds after which the program gives up, beyond any search. -/
def rounds : Nat := Nat.pow 2 60

end PrologMachine.Console

/-- Run the command line. -/
def main (arguments : List String) : IO UInt32 := do
  let code ← PrologMachine.Console.converse
    (PrologMachine.Console.command arguments PrologMachine.Console.rounds)
  return code.toUInt32
