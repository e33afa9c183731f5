/-
  PrologMachine.Text.Quoted ── **TEXT BETWEEN DOUBLE QUOTES.**

  Messages show source text between double quotes.  A quote and a backslash get a backslash, the
  seven usual control characters get their letter, any other character that does not print is
  written by its code point in two, four or eight hexadecimal digits.  A byte parted from its
  character is written by its two hexadecimal digits.
-/
import PrologMachine.Text.Glyph
import PrologMachine.Text.Printable

namespace PrologMachine.Text

/-- The code point `n` in lower case hexadecimal, padded with zeros to `width` digits. -/
def hexDigits (width n : Nat) : List Char :=
  let ds := Nat.toDigits 16 n
  List.replicate (width - ds.length) '0' ++ ds

/-- How one character is shown between double quotes. -/
def quoteChar (c : Char) : List Char :=
  if c = '"' then ['\\', '"']
  else if c = '\\' then ['\\', '\\']
  else if isPrintable c then [c]
  else match c.toNat with
    | 7 => ['\\', 'a']
    | 8 => ['\\', 'b']
    | 9 => ['\\', 't']
    | 10 => ['\\', 'n']
    | 11 => ['\\', 'v']
    | 12 => ['\\', 'f']
    | 13 => ['\\', 'r']
    | n =>
      if n < 32 || n == 127 then '\\' :: 'x' :: hexDigits 2 n
      else if n < 65536 then '\\' :: 'u' :: hexDigits 4 n
      else '\\' :: 'U' :: hexDigits 8 n

/-- The text `s` between double quotes. -/
def quoted (s : String) : String :=
  String.ofList ('"' :: s.toList.flatMap quoteChar ++ ['"'])

/-- How one glyph is shown between double quotes. -/
def quoteGlyph : Glyph → List Char
  | .whole c => quoteChar c
  | .stray byte => '\\' :: 'x' :: hexDigits 2 byte.toNat

/-- The glyphs `gs` between double quotes. -/
def quotedGlyphs (gs : List Glyph) : String :=
  String.ofList ('"' :: gs.flatMap quoteGlyph ++ ['"'])

end PrologMachine.Text
