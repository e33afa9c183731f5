/-
  PrologMachine.Library ── **PREDICATES WRITTEN IN PROLOG.**

  Libraries are program texts that a session loads among its builtin predicates.
-/

namespace PrologMachine

/-- A library: its name in messages and its program text. -/
structure Library where
  /-- The name. -/
  name : String
  /-- The program text. -/
  source : String
  deriving DecidableEq, Repr

namespace Library

/-! ## §1. Lists. -/

/-- A list is a front and a back. -/
def append : Library :=
  ⟨"append/3", "\nappend([], L, L).\nappend([H|T], L, [H|R]) :- append(T, L, R).\n"⟩

/-- The elements of a list in order. -/
def member : Library :=
  ⟨"member/2", "\nmember(X, [X|_]).\nmember(X, [_|T]) :- member(X, T).\n"⟩

/-- A list backwards. -/
def reverse : Library :=
  ⟨"reverse/2",
    "\nreverse(L, R) :- reverse_acc(L, [], R).\nreverse_acc([], A, A).\n" ++
      "reverse_acc([H|T], A, R) :- reverse_acc(T, [H|A], R).\n"⟩

/-- The length of a proper list. -/
def length : Library :=
  ⟨"length/2", "\nlength([], 0).\nlength([_|T], N) :- length(T, M), N is M + 1.\n"⟩

/-- The last element of a list. -/
def last : Library :=
  ⟨"last/2", "\nlast([X], X).\nlast([_|T], X) :- last(T, X).\n"⟩

/-- The list predicates. -/
def lists : List Library := [append, member, reverse, length, last]

/-! ## §2. Numbers. -/

/-- The whole numbers from one to another. -/
def between : Library :=
  ⟨"between/3",
    "\nbetween(L, H, L) :- L =< H.\n" ++
      "between(L, H, X) :- L < H, L1 is L + 1, between(L1, H, X).\n"⟩

/-- Zero and the positive numbers. -/
def succOrZero : Library :=
  ⟨"succ_or_zero/1", "\nsucc_or_zero(0).\nsucc_or_zero(N) :- N > 0.\n"⟩

/-- The larger of two numbers. -/
def max : Library :=
  ⟨"max/3", "\nmax(X, Y, X) :- X >= Y, !.\nmax(_, Y, Y).\n"⟩

/-- The smaller of two numbers. -/
def min : Library :=
  ⟨"min/3", "\nmin(X, Y, X) :- X =< Y, !.\nmin(_, Y, Y).\n"⟩

/-- The arithmetic predicates. -/
def arith : List Library := [between, succOrZero, max, min]

/-- All libraries. -/
def all : List Library := lists ++ arith

/-- The libraries under a key: all, a group, or a single one. -/
def ofKey (key : String) : List Library :=
  match key with
  | "all" => all
  | "lists" => lists
  | "arith" => arith
  | "append" => [append]
  | "member" => [member]
  | "reverse" => [reverse]
  | "length" => [length]
  | "last" => [last]
  | "between" => [between]
  | "succ_or_zero" => [succOrZero]
  | "max" => [max]
  | "min" => [min]
  | _ => []

end Library

end PrologMachine
