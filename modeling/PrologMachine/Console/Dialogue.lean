/-
  PrologMachine.Console.Dialogue ── **CONSOLE PROGRAMS AS EFFECTS.**

  A console program is described by what it asks of its surroundings, one request after the other:
  to print, to complain, to read a line or a file; in the end it exits with a code.

    * `Dialogue.play` carries the requests out against given lines and files.
    * `Dialogue.report` passes on what a session wrote and logged.
-/
import PrologMachine.Transcript
import PrologMachine.Text.Blank
import PrologMachine.Text.Quoted

namespace PrologMachine.Console

/-! ## §1. Dialogues. -/

/-- Why a file cannot be read. -/
inductive FileFault where
  /-- There is no such file. -/
  | missing
  /-- It is a directory. -/
  | directory
  /-- Its path goes through something that is no directory. -/
  | notDirectory
  /-- Its path or a name in it is too long. -/
  | tooLong
  /-- Any other reason. -/
  | unreadable (reason : String)
  deriving DecidableEq, Repr

/-- What is said about a file that cannot be read. -/
def FileFault.text (path : String) : FileFault → String
  | .missing => "open " ++ path ++ ": no such file or directory"
  | .directory => "read " ++ path ++ ": is a directory"
  | .notDirectory => "open " ++ path ++ ": not a directory"
  | .tooLong => "open " ++ path ++ ": file name too long"
  | .unreadable reason => "open " ++ path ++ ": " ++ reason

/-- What a console program does. -/
inductive Dialogue where
  /-- Exit with a code. -/
  | exit (code : Nat)
  /-- Print text. -/
  | print (text : String) (next : Dialogue)
  /-- Print text where errors go. -/
  | complain (text : String) (next : Dialogue)
  /-- Read a line with its line break; nothing is left at the end of the input. -/
  | readLine (next : Option String → Dialogue)
  /-- Read a file. -/
  | readFile (path : String) (next : Except FileFault String → Dialogue)

/-- What a console program works with. -/
structure Surroundings where
  /-- The lines of the input, each with its line break. -/
  lines : List String
  /-- The files. -/
  file : String → Except FileFault String

/-- What a console program leaves. -/
structure Outcome where
  /-- The exit code. -/
  exit : Nat
  /-- The text printed. -/
  output : String
  /-- The complaints. -/
  errors : String
  deriving DecidableEq, Repr

/-- Carry out the requests of a console program, after `output` and `errors` were printed. -/
def Dialogue.play : Dialogue → Surroundings → (output errors : String) → Outcome
  | .exit code, _, output, errors => ⟨code, output, errors⟩
  | .print text next, s, output, errors => next.play s (output ++ text) errors
  | .complain text next, s, output, errors => next.play s output (errors ++ text)
  | .readLine next, s, output, errors =>
    match s.lines with
    | [] => (next none).play s output errors
    | line :: rest => (next (some line)).play { s with lines := rest } output errors
  | .readFile path next, s, output, errors => (next (s.file path)).play s output errors

/-! ## §2. What a session leaves. -/

/-- The value of a log field is shown between quotes: an empty one, and one with a blank, an equals
    sign, a quote, a replacement character or a character that does not print. -/
def needsQuoting (value : List Char) : Bool :=
  value.isEmpty || value.any (fun c =>
    c == '=' || c == '"' || c == Text.replacementChar || Text.isBlank c ||
      (c.toNat ≠ 127 && !Text.isPrintable c))

/-- The value of a log field as it is shown. -/
def fieldText (value : String) : String :=
  if needsQuoting value.toList then Text.quoted value else value

/-- The line that a log entry is shown as. -/
def logLine (e : LogEntry) : String :=
  "level=" ++ e.level.text ++ " msg=" ++ fieldText e.message ++
    String.join (e.fields.map (fun f => " " ++ f.1 ++ "=" ++ fieldText f.2)) ++ "\n"

/-- Pass on what was written and logged. -/
def Dialogue.report (t : Transcript) (next : Dialogue) : Dialogue :=
  let logged := t.newestFirst.foldl (fun d e => .complain (logLine e) d) next
  if t.output.isEmpty then logged else .print t.output logged

/-- Text in red. -/
def red (s : String) : String := "\x1b[31m" ++ s ++ "\x1b[0m"

/-- Text in green. -/
def green (s : String) : String := "\x1b[32m" ++ s ++ "\x1b[0m"

end PrologMachine.Console
