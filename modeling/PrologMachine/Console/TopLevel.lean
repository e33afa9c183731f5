/-
  PrologMachine.Console.TopLevel ── **THE INTERACTIVE TOP LEVEL.**

  The top level reads questions and answers them, one solution at a time.  A question may go over
  several lines: reading goes on as long as the text so far is cut short by its end.  A text that
  starts with a colon is a command.

    * `isComplete` says when a question needs no further line.
    * `TopLevel.prompt` refuses prompts with hidden characters: they are not shown and nothing is
      read, so a solution with such a character ends the enumeration.
-/
import PrologMachine.Console.Dialogue
import PrologMachine.Console.Lines
import PrologMachine.Session.Basic

namespace PrologMachine.Console

open PrologMachine.Text (Glyph)

/-! ## §1. Reading questions. -/

/-- What asks for a question. -/
def questionPrompt : String := "?- "

/-- What asks for the rest of a question. -/
def continuationPrompt : String := "|  "

/-- What stands between a solution and the reply to it. -/
def replyGap : String := "   "

/-- The state of a top level. -/
structure TopLevel where
  /-- The session. -/
  session : Session
  /-- The rest of a line that was too long for one read. -/
  pending : List Glyph := []

/-- What a prompt brings. -/
inductive Reply where
  /-- A line without its line break. -/
  | line (text : List Glyph)
  /-- The end of the input. -/
  | ended
  /-- The prompt was not shown. -/
  | refused
  deriving DecidableEq, Repr

/-- A text that starts with a colon is a command, after leading blanks. -/
def isCommand (text : List Glyph) : Bool :=
  (Text.trimBy Glyph.isBlank text).head? = some (.whole ':')

/-- No further line is needed: a command, a text that can be read, or one that no further line can
    mend. -/
def isComplete (text : List Glyph) : Bool :=
  isCommand text ||
    match readProgram {} (Text.faces text) 0 with
    | .ok _ => true
    | .error e => !e.incomplete

namespace TopLevel

/-- Take over one read from a line; the rest is pending. -/
def receive (t : TopLevel) (line : List Glyph) (next : Reply → TopLevel → Dialogue) : Dialogue :=
  let (piece, rest) := splitPiece line
  next (.line (dropLineBreak piece)) { t with pending := rest }

/-- Show a prompt and read a line. -/
def prompt (t : TopLevel) (text : String) (next : Reply → TopLevel → Dialogue) : Dialogue :=
  if text.toList.any Text.isHidden then next .refused t
  else .print text <|
    if t.pending.isEmpty then
      .readLine (fun
        | none => next .ended t
        | some line => t.receive (Text.glyphs line) next)
    else t.receive t.pending next

/-- Read a question of at most `n` lines after the lines `sofar`. -/
def readQuestion (next : Option (List Glyph) → TopLevel → Dialogue) :
    (n : Nat) → (sofar : Option (List Glyph)) → TopLevel → Dialogue
  | 0, _, t => next none t
  | n + 1, sofar, t =>
    t.prompt (if sofar.isSome then continuationPrompt else questionPrompt) (fun reply t =>
      match reply with
      | .ended => next none t
      | .refused => next (some []) t
      | .line text =>
        let source := match sofar with
          | some s => s ++ .whole '\n' :: text
          | none => text
        if isComplete source then next (some source) t
        else readQuestion next n (some source) t)

/-! ## §2. Answering. -/

/-- Pass on what the session wrote and logged. -/
def flush (t : TopLevel) (next : TopLevel → Dialogue) : Dialogue :=
  let (transcript, session) := t.session.drain
  .report transcript (next { t with session })

/-- Complain in red. -/
def complain (t : TopLevel) (message : String) (next : TopLevel → Dialogue) : Dialogue :=
  .complain (red message ++ "\n") (next t)

/-- The reply that asks for the next solution. -/
def wantsMore : Reply → Bool
  | .line text => Text.trimBy Glyph.isBlank text = [.whole ';']
  | _ => false

/-- Show at most `n` solutions, one after the other as long as the next is asked for. -/
def showSolutions (next : TopLevel → Dialogue) : (n : Nat) → Solutions → TopLevel → Dialogue
  | 0, _, t => next t
  | n + 1, q, t =>
    let ((found, e), q, session) := t.session.next q
    { t with session }.flush (fun t =>
      match e, found with
      | some e, _ => t.complain e.message next
      | none, none => .print (red "false." ++ "\n") (next t)
      | none, some solution =>
        t.prompt (solution.text ++ replyGap) (fun reply t =>
          if wantsMore reply then showSolutions next n q t
          else .print (green "true." ++ "\n") (next t)))

/-- A question without the mark of a question in front. -/
def dropQuestionMark (question : List Glyph) : List Glyph :=
  match question with
  | .whole '?' :: .whole '-' :: gs => gs
  | _ => question

/-- Answer a question.  The offsets of its faults count the bytes that were read. -/
def answer (t : TopLevel) (question : List Glyph) (next : TopLevel → Dialogue) : Dialogue :=
  let question := Text.trimBy Glyph.isBlank (dropQuestionMark question)
  match t.session.query (Text.faces question) with
  | (.error e, session) =>
    { t with session }.complain (e.relocate (Text.readOffset question)).message next
  | (.ok q, session) => showSolutions next session.options.patience q { t with session }

/-! ## §3. Commands. -/

/-- Consult a file. -/
def consultFile (t : TopLevel) (path : String) (next : TopLevel → Dialogue) : Dialogue :=
  .readFile path (fun
    | .error fault => t.complain (fault.text path) next
    | .ok source =>
      let (e, session) := t.session.consult source
      { t with session }.flush (fun t =>
        match e with
        | some e => t.complain (path ++ ": " ++ e.message) next
        | none => next t))

/-- Consult files in order. -/
def consultFiles (next : TopLevel → Dialogue) : List String → TopLevel → Dialogue
  | [], t => next t
  | path :: paths, t => t.consultFile path (consultFiles next paths)

end TopLevel

/-- A command of the top level. -/
inductive Command where
  /-- Leave. -/
  | quit
  /-- Show the commands. -/
  | help
  /-- Consult files. -/
  | consult (paths : List String)
  /-- Disassemble a predicate. -/
  | listing (arguments : List (List Glyph))
  /-- List the predicates. -/
  | predicates
  /-- Anything else. -/
  | unknown
  deriving DecidableEq, Repr

/-- The lower case of a character whose lower case is a plain Latin letter; besides the capitals
    these are the dotted capital I and the kelvin sign. -/
def plainLower (c : Char) : Char :=
  if c.toNat = 0x130 then 'i' else if c.toNat = 0x212A then 'k' else Number.lowerAscii c

/-- The command in a line; its name may be written in any case. -/
def Command.ofText (line : List Glyph) : Command :=
  match Text.wordsBy Glyph.isBlank line with
  | [] => .unknown
  | name :: arguments =>
    match String.ofList (name.map (fun g => plainLower g.face)) with
    | ":quit" => .quit
    | ":q" => .quit
    | ":help" => .help
    | ":consult" => .consult (arguments.map Text.faces)
    | ":listing" => .listing arguments
    | ":predicates" => .predicates
    | _ => .unknown

/-- What the help command shows. -/
def commandHelp : String :=
  "Commands:\n" ++
    "  :consult <file.pl>    add the clauses of a file\n" ++
    "  :listing <name/arity> print the compiled code of a predicate\n" ++
    "  :predicates           list the predicates defined so far\n" ++
    "  :quit                 leave\n" ++
    "Anything else is a question; after an answer type ; for the next one.\n"

namespace TopLevel

/-- Run a command; leaving exits with code zero. -/
def command (t : TopLevel) (c : Command) (next : TopLevel → Dialogue) : Dialogue :=
  match c with
  | .quit => .exit 0
  | .help => .print commandHelp (next t)
  | .consult [] => .print "usage: :consult <file.pl>\n" (next t)
  | .consult paths => consultFiles next paths t
  | .listing [indicator] =>
    match t.session.listing indicator with
    | .error e => t.complain e.message next
    | .ok text => .print text (next t)
  | .listing _ => .print "usage: :listing <name/arity>\n" (next t)
  | .predicates => .print (String.join (t.session.predicates.map (· ++ "\n"))) (next t)
  | .unknown => .print "unknown command. Type :help for the list.\n" (next t)

/-! ## §4. The loop. -/

/-- Do what a text asks for. -/
def respond (t : TopLevel) (text : List Glyph) (next : TopLevel → Dialogue) : Dialogue :=
  match Text.trimBy Glyph.isBlank text with
  | [] => next t
  | .whole ':' :: gs => t.command (Command.ofText (.whole ':' :: gs)) next
  | gs => t.answer gs next

/-- Read and answer at most `n` questions; the end of the input ends the line and exits. -/
def loop : (n : Nat) → TopLevel → Dialogue
  | 0, _ => .exit 0
  | n + 1, t =>
    readQuestion (fun question t =>
      match question with
      | none => .print "\n" (.exit 0)
      | some text => t.respond text (loop n))
      t.session.options.patience none t

end TopLevel

end PrologMachine.Console
