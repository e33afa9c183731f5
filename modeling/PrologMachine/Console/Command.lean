/-
  PrologMachine.Console.Command ── **THE COMMAND LINE.**

  The first argument chooses what to do: consult a program and answer a query, start the
  interactive top level, or tell the version.  Sessions on the command line have all libraries.
-/
import PrologMachine.Console.Flags
import PrologMachine.Console.TopLevel

namespace PrologMachine.Console

/-! ## §1. Texts. -/

/-- The name of the command. -/
def commandName : String := "prolog"

/-- The name and version of the system. -/
def banner : String := "goprolog " ++ version

/-- How the command is used. -/
def usage : String :=
  banner ++ "\n\nUsage:\n  " ++ commandName ++
    " run [-q query] [-all] [-debug] [-max-steps N] [-timeout D] <file.pl>\n" ++
    "                                     " ++
    "Consult a program, run its directives and an optional query.\n  " ++
    commandName ++ " repl [file.pl ...]              Start the interactive top level.\n  " ++
    commandName ++ " version                         Print the version.\n\n"

/-! ## §2. Running a program. -/

/-- Exit with code one after an error message, in red behind `context`. -/
def failWith (context : String) (e : Error) : Dialogue :=
  .complain (context ++ red e.message ++ "\n") (.exit 1)

/-- Print the solutions of a search, at most `n` of them and only one unless `all`; a search
    without solutions prints false.  `found` says whether one was printed before. -/
def printSolutions (all : Bool) : (n : Nat) → (found : Bool) → Solutions → Session → Dialogue
  | 0, _, _, _ => .exit 0
  | n + 1, found, q, s =>
    let ((solution, e), q, s) := s.next q
    let (transcript, s) := s.drain
    .report transcript <|
      match e, solution with
      | some e, _ => failWith "" e
      | none, some solution =>
        .print (solution.text ++ "\n") (if all then printSolutions all n true q s else .exit 0)
      | none, none => if found then .exit 0 else .print "false\n" (.exit 1)

/-- Consult a program text and answer the query of the flags. -/
def runSource (flags : RunFlags) (path source : String) (patience : Nat) : Dialogue :=
  match Session.start
      { debug := flags.debug, maxSteps := flags.maxSteps, libraries := Library.all, patience } with
  | (some e, s) => .report s.transcript (failWith "" e)
  | (none, s) =>
    let (e, s) := s.consult source
    let (transcript, s) := s.drain
    .report transcript <|
      match e with
      | some e => failWith (path ++ ": ") e
      | none =>
        if flags.query = "" then .exit 0
        else match s.query flags.query with
          | (.error e, s) => .report s.transcript (failWith "" e)
          | (.ok q, s) => printSolutions flags.all patience false q s

/-- Run a program file. -/
def runCommand (arguments : List String) (patience : Nat) : Dialogue :=
  match readFlags {} arguments with
  | .error fault => .complain (fault.message ++ flagHelp) (.exit 2)
  | .ok (flags, [path]) =>
    .readFile path (fun
      | .error fault =>
        .complain (commandName ++ ": cannot read " ++ path ++ ": " ++ fault.text path ++ "\n")
          (.exit 1)
      | .ok source => runSource flags path source patience)
  | .ok _ => .complain ("usage: " ++ commandName ++ " run [flags] <file.pl>\n") (.exit 2)

/-! ## §3. The commands. -/

/-- Start the top level after consulting files. -/
def topLevelCommand (paths : List String) (patience : Nat) : Dialogue :=
  .print (banner ++ ", type :help for commands\n") <|
    match Session.start { libraries := Library.all, caching := .sized 0, patience } with
    | (some e, s) => .report s.transcript (failWith "" e)
    | (none, s) => TopLevel.consultFiles (TopLevel.loop patience) paths { session := s }

/-- Do what the arguments of the command line say.  Nothing without a limit of its own goes on for
    more than `patience` rounds. -/
def command (arguments : List String) (patience : Nat) : Dialogue :=
  match arguments with
  | [] => .print usage (.exit 2)
  | "run" :: rest => runCommand rest patience
  | "repl" :: paths => topLevelCommand paths patience
  | "version" :: _ => .print (version ++ "\n") (.exit 0)
  | "-h" :: _ => .print usage (.exit 0)
  | "--help" :: _ => .print usage (.exit 0)
  | "help" :: _ => .print usage (.exit 0)
  | name :: _ =>
    .complain (commandName ++ ": unknown command " ++ Text.quoted name ++ "\n")
      (.print usage (.exit 2))

end PrologMachine.Console
