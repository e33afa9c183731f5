/-
  PrologMachine.Console.Directory ── **FILES IN ONE DIRECTORY.**

  A console program can be played with files that are given by name and text.  They stand together
  in the present directory, and there are no others: `Directory.read` follows a path from part to
  part as an operating system does.
-/
import PrologMachine.Console.Dialogue

namespace PrologMachine.Console

/-- The files of a directory, by name. -/
structure Directory where
  /-- The text of a file. -/
  text? : String → Option String

/-- The longest name of a file, in bytes. -/
def longestName : Nat := 255

/-- The length that a path must not reach, in bytes. -/
def pathLimit : Nat := 4096

/-- A path split at its slashes. -/
def splitPath : List Char → List (List Char)
  | [] => [[]]
  | c :: cs => if c = '/' then [] :: splitPath cs else Text.consWord c (splitPath cs)

/-- An empty part of a path, or a single dot, stays where it is. -/
def staysInPlace (part : String) : Bool := part = "" || part = "."

namespace Directory

/-- Follow the parts of a path.  `inside` says whether they start in the directory; outside of it
    nothing but further directories is known. -/
def follow (d : Directory) : (inside : Bool) → (parts : List String) → Except FileFault String
  | _, [] => .error .directory
  | inside, part :: parts =>
    if staysInPlace part then d.follow inside parts
    else if part = ".." then d.follow false parts
    else if longestName < part.utf8ByteSize then .error .tooLong
    else match if inside then d.text? part else none with
      | none => .error .missing
      | some text => if parts.isEmpty then .ok text else .error .notDirectory

/-- Read the file under a path. -/
def read (d : Directory) (path : String) : Except FileFault String :=
  if path.toList.contains (Char.ofNat 0) then .error (.unreadable "invalid argument")
  else if path = "" then .error .missing
  else if pathLimit ≤ path.utf8ByteSize then .error .tooLong
  else d.follow (path.toList.head? ≠ some '/') ((splitPath path.toList).map String.ofList)

end Directory

end PrologMachine.Console
