/-
  PrologMachine.Text.Glyph ── **CHARACTERS, AND BYTES PARTED FROM THEIR CHARACTER.**

  A long line is read in pieces of a fixed number of bytes, and such a piece may end inside a
  character.  The bytes on both sides then stand alone.  A stray byte reads as the replacement
  character, but takes up one byte where that character takes up three.

    * `Glyph.face` is the character that a glyph reads as, `Glyph.size` the room it takes up.
    * `readOffset` turns offsets in the text that is read into offsets in the bytes it is read from.
-/
import PrologMachine.Text.Blank

namespace PrologMachine.Text

/-- What a piece of input consists of. -/
inductive Glyph where
  /-- A character. -/
  | whole (c : Char)
  /-- A byte that was parted from the rest of its character. -/
  | stray (byte : UInt8)
  deriving DecidableEq, Repr

/-- The character that stands for whatever is none. -/
def replacementChar : Char := Char.ofNat 0xFFFD

namespace Glyph

/-- The character that a glyph reads as. -/
def face : Glyph → Char
  | whole c => c
  | stray _ => replacementChar

/-- The bytes of a glyph. -/
def bytes : Glyph → List UInt8
  | whole c => String.utf8EncodeChar c
  | stray byte => [byte]

/-- The number of bytes that a glyph takes up. -/
def size : Glyph → Nat
  | whole c => c.utf8Size
  | stray _ => 1

/-- A glyph that reads as white space. -/
def isBlank (g : Glyph) : Bool := Text.isBlank g.face

end Glyph

/-- The characters of a text as glyphs. -/
def glyphs (s : String) : List Glyph := s.toList.map .whole

/-- The text that glyphs read as. -/
def faces (gs : List Glyph) : String := String.ofList (gs.map Glyph.face)

/-- Where the byte `offset` of the text that `gs` read as lies among the bytes of `gs`. -/
def readOffset : (gs : List Glyph) → (offset : Nat) → Nat
  | [], offset => offset
  | g :: gs, offset =>
    if offset < g.face.utf8Size then offset
    else g.size + readOffset gs (offset - g.face.utf8Size)

end PrologMachine.Text
