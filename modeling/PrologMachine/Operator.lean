/-
  PrologMachine.Operator ── **OPERATORS AND THEIR PRIORITIES.**

  An operator has a priority and a class that says on which sides it takes operands and whether an
  operand of the same priority may stand there without parentheses.
-/

namespace PrologMachine

/-- The class of an operator: `f` is the operator, `x` an operand of lower priority, `y` one of the
    same priority at most. -/
inductive OpClass where
  /-- Between its operands, associating on neither side. -/
  | xfx
  /-- Between its operands, associating to the right. -/
  | xfy
  /-- Between its operands, associating to the left. -/
  | yfx
  /-- Before its operand, which may have the same priority. -/
  | fy
  /-- Before its operand, which must bind tighter. -/
  | fx
  deriving DecidableEq, Repr, Inhabited

/-- An operator. -/
structure OpDef where
  /-- The name it is written with. -/
  symbol : String
  /-- Its priority; the larger, the looser it binds. -/
  priority : Int
  /-- Its class. -/
  kind : OpClass
  deriving DecidableEq, Repr, Inhabited

namespace OpDef

/-- The operator stands before its operand. -/
def standsBefore (d : OpDef) : Bool := d.kind == .fy || d.kind == .fx

/-- The largest priority of the left operand. -/
def leftMax (d : OpDef) : Int :=
  match d.kind with
  | .xfx | .xfy => d.priority - 1
  | .yfx => d.priority
  | .fy | .fx => 0

/-- The largest priority of the right operand. -/
def rightMax (d : OpDef) : Int :=
  match d.kind with
  | .xfx | .yfx | .fx => d.priority - 1
  | .xfy | .fy => d.priority

end OpDef

/-- The operators known to a reader.  A symbol has at most one meaning between operands and at
    most one before its operand. -/
structure OpTable where
  /-- The operators written between their operands, the latest definition first. -/
  between : List OpDef := []
  /-- The operators written before their operand, the latest definition first. -/
  before : List OpDef := []
  deriving DecidableEq, Repr, Inhabited

namespace OpTable

/-- Add an operator; it takes the place of one with the same symbol on the same side. -/
def add (t : OpTable) (d : OpDef) : OpTable :=
  if d.standsBefore then { t with before := d :: t.before }
  else { t with between := d :: t.between }

/-- The operator written between its operands as `symbol`. -/
def between? (t : OpTable) (symbol : String) : Option OpDef :=
  t.between.find? (·.symbol == symbol)

/-- The operator written before its operand as `symbol`. -/
def before? (t : OpTable) (symbol : String) : Option OpDef :=
  t.before.find? (·.symbol == symbol)

/-- The table of the operators in `ds`, added in order. -/
def ofList (ds : List OpDef) : OpTable := ds.foldl add {}

/-- The standard operators. -/
def standard : OpTable :=
  ofList
    [⟨":-", 1200, .xfx⟩, ⟨"?-", 1200, .fx⟩, ⟨":-", 1200, .fx⟩, ⟨";", 1100, .xfy⟩,
      ⟨",", 1000, .xfy⟩, ⟨"\\+", 900, .fy⟩, ⟨"=", 700, .xfx⟩, ⟨"\\=", 700, .xfx⟩,
      ⟨"==", 700, .xfx⟩, ⟨"\\==", 700, .xfx⟩, ⟨"is", 700, .xfx⟩, ⟨"<", 700, .xfx⟩,
      ⟨">", 700, .xfx⟩, ⟨"=<", 700, .xfx⟩, ⟨">=", 700, .xfx⟩, ⟨"=:=", 700, .xfx⟩,
      ⟨"=\\=", 700, .xfx⟩, ⟨"+", 500, .yfx⟩, ⟨"-", 500, .yfx⟩, ⟨"*", 400, .yfx⟩,
      ⟨"/", 400, .yfx⟩, ⟨"//", 400, .yfx⟩, ⟨"mod", 400, .yfx⟩, ⟨"-", 200, .fy⟩]

end OpTable

end PrologMachine
