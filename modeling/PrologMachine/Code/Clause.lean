/-
  PrologMachine.Code.Clause ── **COMPILED CLAUSES.**

  A clause is a set of labelled blocks.  The block `head` decodes the goal, the block `g0` starts
  the body; a fact has a head only, a query bodies only.  A native clause has no code: its
  predicate answers by itself.  Clauses made up for negated bodies hang below the clause that
  needs them.
-/
import PrologMachine.Code.Instruction
import PrologMachine.Number.Numeral

namespace PrologMachine

/-! ## §1. Names that the compiler reserves. -/

/-- The label of the head. -/
def headLabel : String := "head"

/-- The label where a body starts. -/
def bodyLabel : String := "g0"

/-- The functor of queries. -/
def queryFunctor : String := ".q."

/-- The signature of queries. -/
def querySignature : Signature := ⟨queryFunctor, 0⟩

/-- How the names of made-up clauses start; no bare atom starts so. -/
def auxiliaryLead : List Char := "$not".toList

/-- The text starts like the name of a made-up clause. -/
def isAuxiliary (text : String) : Bool := auxiliaryLead.isPrefixOf text.toList

/-- The name of the `n`-th made-up clause. -/
def auxiliaryName (n : Nat) : String := String.ofList (auxiliaryLead ++ Nat.toDigits 10 n)

/-! ## §2. Clauses. -/

/-- A labelled block of instructions. -/
abbrev Block := String × List Instruction

/-- A compiled clause. -/
structure Clause where
  /-- The predicate it belongs to. -/
  signature : Signature
  /-- The blocks. -/
  code : List Block
  /-- A native predicate answers instead of code. -/
  native : Bool
  /-- The clauses made up for negated bodies in this one. -/
  auxiliaries : List Clause
  deriving Inhabited

namespace Clause

/-- The block with a label. -/
def block? (c : Clause) (label : String) : Option (List Instruction) := c.code.lookup label

/-- The clause has a head and nothing else. -/
def isFact (c : Clause) : Bool := (c.block? headLabel).isSome && c.code.length == 1

/-- The clause is a query. -/
def isQuery (c : Clause) : Bool := (c.block? headLabel).isNone && c.signature.name == queryFunctor

/-- The place of a label in a listing: the head first, numbered labels by number, others last. -/
def labelRank (label : String) : Int :=
  if label = headLabel then -1
  else
    let digits := match label.toList with
      | 'g' :: cs => cs
      | cs => cs
    match Number.readWhole digits with
    | .ok n => n
    | .error _ => 1073741824

/-- The labels in the order of a listing. -/
def labels (c : Clause) : List String :=
  (c.code.map Prod.fst).mergeSort (fun a b => decide (labelRank a ≤ labelRank b))

/-- The listing of one block. -/
def blockText (c : Clause) (label : String) : String :=
  label ++ ":\n" ++
    String.join (((c.block? label).getD []).map (fun i => "\t" ++ i.text ++ "\n"))

/-- The listing of a clause without its auxiliaries. -/
def ownText (c : Clause) : String :=
  if c.native then c.signature.text ++ " (native)\n"
  else c.signature.text ++ "\n" ++ String.join (c.labels.map c.blockText)

mutual

/-- The listing of a clause; a native one shows no auxiliaries. -/
def text : Clause → String
  | ⟨s, code, native, aux⟩ =>
    ownText ⟨s, code, native, []⟩ ++ if native then "" else texts aux

/-- The listings of clauses, one after the other. -/
def texts : List Clause → String
  | [] => ""
  | c :: cs => c.text ++ texts cs

end

mutual

/-- The auxiliaries of a clause at any depth, each before its own. -/
def descendants : Clause → List Clause
  | ⟨_, _, _, aux⟩ => descendantsOf aux

/-- Clauses with their auxiliaries at any depth, each before its own. -/
def descendantsOf : List Clause → List Clause
  | [] => []
  | c :: cs => c :: descendants c ++ descendantsOf cs

end

end Clause

end PrologMachine
