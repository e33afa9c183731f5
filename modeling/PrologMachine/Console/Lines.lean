/-
  PrologMachine.Console.Lines ── **LINES OF INPUT.**

  Input is read line by line, and a long line piece by piece: what a read returns has at most
  `pieceSize` bytes, and the rest of the line is left for the next read.  A character that lies
  across the end of a piece is parted into its bytes.
-/
import PrologMachine.Text.Glyph

namespace PrologMachine.Console

open PrologMachine.Text (Glyph)

/-- Put `c` in front of the first line, or start one. -/
def consLine (c : Char) : List (List Char) → List (List Char)
  | [] => [[c]]
  | l :: ls => (c :: l) :: ls

/-- The lines of a text, each with its line break; the last may have none. -/
def linesOf : List Char → List (List Char)
  | [] => []
  | c :: cs => if c = '\n' then ['\n'] :: linesOf cs else consLine c (linesOf cs)

/-- The lines of an input text. -/
def inputLines (input : String) : List String := (linesOf input.toList).map String.ofList

/-- How many bytes one read returns at most. -/
def pieceSize : Nat := 4096

/-- The first `room` bytes of a line, or all of it when there are fewer, and the rest. -/
def takeBytes : (room : Nat) → List Glyph → List Glyph × List Glyph
  | _, [] => ([], [])
  | room, g :: gs =>
    if g.size ≤ room then
      let (front, rest) := takeBytes (room - g.size) gs
      (g :: front, rest)
    else if room = 0 then ([], g :: gs)
    else ((g.bytes.take room).map .stray, (g.bytes.drop room).map .stray ++ gs)

/-- What one read returns of a line, and what it leaves; a carriage return is not parted from what
    follows it. -/
def splitPiece (line : List Glyph) : List Glyph × List Glyph :=
  match takeBytes pieceSize line with
  | (piece, []) => (piece, [])
  | (piece, rest) =>
    if piece.getLast? = some (.whole '\r') then (piece.dropLast, .whole '\r' :: rest)
    else (piece, rest)

/-- A line without its line break, which may start with a carriage return. -/
def dropLineBreak (line : List Glyph) : List Glyph :=
  match line.reverse with
  | .whole '\n' :: .whole '\r' :: gs => gs.reverse
  | .whole '\n' :: gs => gs.reverse
  | _ => line

end PrologMachine.Console
