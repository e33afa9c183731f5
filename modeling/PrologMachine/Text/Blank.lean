/-
  PrologMachine.Text.Blank ── **BLANKS AROUND AND BETWEEN WORDS.**

  Questions and commands are trimmed and split at the white space of Unicode, which is wider than
  the layout the reader skips: it holds the no-break space and the typographic blanks too.
-/

namespace PrologMachine.Text

/-- White space in the sense of Unicode. -/
def isBlank (c : Char) : Bool :=
  let n := c.toNat
  (9 ≤ n && n ≤ 13) || n == 32 || n == 0x85 || n == 0xA0 || n == 0x1680 ||
    (0x2000 ≤ n && n ≤ 0x200A) || n == 0x2028 || n == 0x2029 || n == 0x202F ||
    n == 0x205F || n == 0x3000

variable {α : Type}

/-- The list without the blanks at its two ends. -/
def trimBy (blank : α → Bool) (xs : List α) : List α :=
  ((xs.dropWhile blank).reverse.dropWhile blank).reverse

/-- The text without the blanks at its two ends. -/
def trimBlanks (cs : List Char) : List Char := trimBy isBlank cs

/-- Put `x` in front of the first word, or start one. -/
def consWord (x : α) : List (List α) → List (List α)
  | [] => [[x]]
  | w :: ws => (x :: w) :: ws

/-- Split at blanks, keeping an empty word wherever two blanks meet. -/
def splitAtBlanks (blank : α → Bool) : List α → List (List α)
  | [] => [[]]
  | x :: xs =>
    if blank x then [] :: splitAtBlanks blank xs else consWord x (splitAtBlanks blank xs)

/-- The maximal runs of elements that are no blanks, in order. -/
def wordsBy (blank : α → Bool) (xs : List α) : List (List α) :=
  (splitAtBlanks blank xs).filter (fun w => !w.isEmpty)

end PrologMachine.Text
