/-
  PrologMachine.Heap.Writer ── **RUN-TIME TERMS AS TEXT.**

  Run-time terms are written like read ones, after following bindings.  A structure that would
  be written again inside itself is cut off with `...`.

  `Heap.chars` is bounded by the number of structures: each nested call enters a structure that
  is not open yet, or goes from the end of a list to its last tail.
-/
import PrologMachine.Heap.Basic

namespace PrologMachine

/-- What stands for a structure inside itself. -/
def cycleChars : List Char := "...".toList

namespace Heap

mutual

/-- The written form of a value, inside the structures that are `opened`. -/
def chars (h : Heap) : (n : Nat) → (opened : List StructId) → Value → List Char
  | 0, _, _ => cycleChars
  | n + 1, opened, t =>
    match h.deref t with
    | .absent => absentChars
    | .var v => varChars (h.varCell v).name (h.varCell v).id
    | .const c => c.value.chars
    | .struct s =>
      if opened.contains s then cycleChars
      else
        let cell := h.structCell s
        match cell.name, cell.args with
        | "cons", [x, xs] =>
          '[' :: h.chars n (s :: opened) x ++ h.tailChars n (s :: opened) xs ++ [']']
        | name, [] => atomChars name.toList
        | name, x :: xs =>
          atomChars name.toList ++ '(' :: h.chars n (s :: opened) x ++
            xs.flatMap (fun y => ',' :: h.chars n (s :: opened) y) ++ [')']

/-- What follows the first element inside the brackets of a list. -/
def tailChars (h : Heap) : (n : Nat) → (opened : List StructId) → Value → List Char
  | 0, _, _ => '|' :: cycleChars
  | n + 1, opened, t =>
    match h.deref t with
    | .struct s =>
      let cell := h.structCell s
      match cell.name, cell.args with
      | "cons", [x, xs] =>
        if opened.contains s then '|' :: cycleChars
        else ',' :: h.chars n (s :: opened) x ++ h.tailChars n (s :: opened) xs
      | _, _ => '|' :: h.chars n opened (.struct s)
    | .const ⟨.nil, _⟩ => []
    | v => '|' :: h.chars n opened v

end

/-- How deep the writer can nest. -/
def writeBound (h : Heap) : Nat := 2 * h.structs.size + 2

/-- The written form of a value. -/
def text (h : Heap) (t : Value) : String := String.ofList (h.chars h.writeBound [] t)

end Heap

end PrologMachine
