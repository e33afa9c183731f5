/-
  PrologMachine.Proofs.Renumbering.Code ── **CODE UP TO THE NUMBERS OF A COMPILER.**

  Code is the same up to renumbering if it differs in the constants and in the auxiliary predicates
  that it names, and in nothing else.  Linking blocks keeps this.

    * `Renumbering.Instr`, `Codes`, `Block`, `Clause`: the same code up to renumbering.
    * `Renumbering.Fragments`: fragments of bodies; `Fragments.conj`, `Fragments.disj` link them.
-/
import PrologMachine.Proofs.Code.Compilation
import PrologMachine.Proofs.Renumbering.Heap

namespace PrologMachine

namespace Renumbering

variable {ρ : Renumbering}

/-! ## §1. Instructions and clauses. -/

/-- The same instruction up to renumbering.  Only heads and goals are named, and no instruction uses
    the register of the goal as a variable. -/
structure Instr (ρ : Renumbering) (i i' : Instruction) : Prop where
  /-- The opcode. -/
  op : i'.op = i.op
  /-- The predicate of a head or goal. -/
  goal : i.register = "$x0" → ρ.Goal ⟨i.functor, i.arity⟩ ⟨i'.functor, i'.arity⟩
  /-- The functor of any other structure. -/
  functor : i.register ≠ "$x0" → i'.functor = i.functor
  /-- The arity. -/
  arity : i'.arity = i.arity
  /-- The register. -/
  register : i'.register = i.register
  /-- The variable. -/
  name : i'.name = i.name
  /-- The constant. -/
  constant : Option.Rel ρ.Const i.constant i'.constant
  /-- The result register. -/
  result : i'.result = i.result
  /-- The label. -/
  label : i'.label = i.label
  /-- The variable is not the goal. -/
  name_ne : i.name ≠ "$x0"
  /-- Nor is the result. -/
  result_ne : i.result ≠ "$x0"

/-- The same code up to renumbering. -/
abbrev Codes (ρ : Renumbering) : Code → Code → Prop := List.Forall₂ ρ.Instr

/-- The same block up to renumbering. -/
def Block (ρ : Renumbering) (b b' : PrologMachine.Block) : Prop := b'.1 = b.1 ∧ ρ.Codes b.2 b'.2

/-- Clauses with the same code up to renumbering. -/
structure Clause (ρ : Renumbering) (c c' : PrologMachine.Clause) : Prop where
  /-- Native code answers both or neither. -/
  native : c'.native = c.native
  /-- The blocks. -/
  code : List.Forall₂ ρ.Block c.code c'.code

/-- The blocks of one label are counterparts. -/
theorem Clause.block? {c c' : PrologMachine.Clause} (h : ρ.Clause c c') (label : String) :
    Option.Rel ρ.Codes (c.block? label) (c'.block? label) := by
  have hcode := h.code
  unfold PrologMachine.Clause.block?
  generalize c.code = code at hcode ⊢
  generalize c'.code = code' at hcode ⊢
  induction hcode with
  | nil => exact .none
  | @cons b b' bs bs' hb _ ih =>
    obtain ⟨l, code⟩ := b
    obtain ⟨l', code'⟩ := b'
    obtain ⟨rfl, hcode⟩ := hb
    simp only [List.lookup]
    cases label == l' with
    | true => exact .some hcode
    | false => exact ih

/-- No name is not the name of the goal. -/
theorem empty_ne : "" ≠ "$x0" := by decide

/-- Where the goal is not mentioned only the constant counts. -/
theorem Instr.constant_eq {i : Instruction} (hregister : i.register ≠ "$x0")
    (hname : i.name ≠ "$x0") (hresult : i.result ≠ "$x0")
    {c : Option Constant} (hc : Option.Rel ρ.Const i.constant c) :
    ρ.Instr i { i with constant := c } :=
  ⟨rfl, fun h => (hregister h).elim, fun _ => rfl, rfl, rfl, rfl, hc, rfl, rfl, hname, hresult⟩

/-- An instruction without a constant that names no predicate. -/
theorem Instr.refl {i : Instruction} (hconstant : i.constant = none)
    (hregister : i.register ≠ "$x0") (hname : i.name ≠ "$x0")
    (hresult : i.result ≠ "$x0") : ρ.Instr i i :=
  constant_eq hregister hname hresult (c := i.constant) (by rw [hconstant]; exact .none)

/-! ## §2. More numbers. -/

/-- The second renumbering pairs whatever the first one does. -/
instance : Preorder Renumbering where
  le ρ ρ' := (∀ g g', ρ.goals g g' → ρ'.goals g g') ∧ ∀ n n', ρ.cells n n' → ρ'.cells n n'
  le_refl _ := ⟨fun _ _ h => h, fun _ _ h => h⟩
  le_trans _ _ _ h h' := ⟨fun _ _ hg => h'.1 _ _ (h.1 _ _ hg), fun _ _ hn => h'.2 _ _ (h.2 _ _ hn)⟩

variable {ρ' : Renumbering}

theorem Goal.mono {g g' : Signature} (hρ : ρ ≤ ρ') (h : ρ.Goal g g') : ρ'.Goal g g' :=
  h.imp id (hρ.1 _ _)

theorem Const.mono {c c' : Constant} (hρ : ρ ≤ ρ') (h : ρ.Const c c') : ρ'.Const c c' := by
  refine ⟨h.value, ?_⟩
  have hcell := h.cell
  generalize c.cell = a at hcell
  generalize c'.cell = b at hcell
  cases a <;> cases b <;> first | exact hcell.elim | exact ⟨hcell.1, hρ.2 _ _ hcell.2⟩ | exact hcell

theorem Instr.mono {i i' : Instruction} (hρ : ρ ≤ ρ') (h : ρ.Instr i i') : ρ'.Instr i i' :=
  { h with
    goal := fun hr => (h.goal hr).mono hρ
    constant := by
      have hc := h.constant
      generalize i.constant = c at hc
      generalize i'.constant = c' at hc
      cases hc with
      | none => exact .none
      | some hc => exact .some (hc.mono hρ) }

theorem Codes.mono {code code' : Code} (hρ : ρ ≤ ρ') (h : ρ.Codes code code') :
    ρ'.Codes code code' := h.imp fun _ _ => .mono hρ

theorem Block.mono {b b' : PrologMachine.Block} (hρ : ρ ≤ ρ') (h : ρ.Block b b') : ρ'.Block b b' :=
  ⟨h.1, Codes.mono hρ h.2⟩

theorem Clause.mono {c c' : PrologMachine.Clause} (hρ : ρ ≤ ρ') (h : ρ.Clause c c') :
    ρ'.Clause c c' :=
  ⟨h.native, h.code.imp fun _ _ => .mono hρ⟩

/-! ## §3. Linking blocks. -/

/-- Fragments with the same blocks up to renumbering. -/
structure Fragments (ρ : Renumbering) (f f' : Fragment) : Prop where
  /-- They are entered at the same label. -/
  entry : f'.entry = f.entry
  /-- The blocks. -/
  blocks : List.Forall₂ ρ.Block f.blocks f'.blocks
  /-- Control leaves them through the same blocks. -/
  exits : f'.exits = f.exits

variable {f f' g g' : Fragment} {code code' : Code} {blocks blocks' : List PrologMachine.Block}
  {label : String}

theorem Fragments.mono (hρ : ρ ≤ ρ') (h : ρ.Fragments f f') : ρ'.Fragments f f' :=
  { h with blocks := h.blocks.imp fun _ _ => .mono hρ }

/-- A single goal. -/
theorem Fragments.leaf (h : ρ.Codes code code') (primitive : Bool) :
    ρ.Fragments (Fragment.leaf label code primitive) (Fragment.leaf label code' primitive) :=
  ⟨rfl, .cons ⟨rfl, h⟩ .nil, rfl⟩

/-- Blocks that are changed alike are counterparts. -/
theorem changeBlock {change change' : Code → Code}
    (h : ∀ {code code'}, ρ.Codes code code' → ρ.Codes (change code) (change' code'))
    (hb : List.Forall₂ ρ.Block blocks blocks') : List.Forall₂ ρ.Block
      (Fragment.changeBlock label change blocks) (Fragment.changeBlock label change' blocks') := by
  unfold Fragment.changeBlock
  rw [List.forall₂_map_left_iff, List.forall₂_map_right_iff]
  refine hb.imp fun b b' hb => ?_
  rw [hb.1]
  split
  · exact ⟨rfl, h hb.2⟩
  · exact hb

/-- A tail is stripped on both sides or on neither. -/
theorem Codes.stripTail (h : ρ.Codes code code') :
    ρ.Codes (Fragment.stripTail code) (Fragment.stripTail code') := by
  have hlast := getElem?_rel h (code.length - 1)
  unfold Fragment.stripTail
  rw [List.getLast?_eq_getElem?, List.getLast?_eq_getElem?, ← h.length_eq]
  generalize code[code.length - 1]? = x at hlast
  generalize code'[code.length - 1]? = x' at hlast
  cases hlast with
  | none => exact h
  | some hi =>
    simp only
    rw [hi.op]
    split
    · rw [List.dropLast_eq_take, List.dropLast_eq_take, ← h.length_eq]
      exact List.forall₂_take _ h
    · exact h

/-- Both sides are continued alike. -/
theorem Codes.continueWith {next next' : Code} (e : Exit) (hn : ρ.Codes next next')
    (h : ρ.Codes code code') :
    ρ.Codes (Fragment.continueWith e next code) (Fragment.continueWith e next' code') := by
  refine List.rel_append (List.rel_append h.stripTail ?_) hn
  split
  · exact .nil
  · exact .cons (.refl rfl empty_ne empty_ne empty_ne) .nil

/-- Both sides are linked by the same jumps. -/
theorem jumpFrom (label : String) (exits : List Exit) (h : List.Forall₂ ρ.Block blocks blocks') :
    List.Forall₂ ρ.Block (Fragment.jumpFrom label exits blocks)
      (Fragment.jumpFrom label exits blocks') := by
  unfold Fragment.jumpFrom
  induction exits generalizing blocks blocks' with
  | nil => exact h
  | cons e exits ih =>
    refine ih (changeBlock (fun hc => Codes.continueWith e ?_ hc) h)
    exact .cons (.refl rfl empty_ne empty_ne empty_ne) .nil

/-- First one, then the other. -/
theorem Fragments.conj (hl : ρ.Fragments f f') (hr : ρ.Fragments g g') :
    ρ.Fragments (f.conj g) (f'.conj g') := by
  have hjump : ρ.Fragments
      ⟨f.entry, Fragment.jumpFrom g.entry f.exits f.blocks ++ g.blocks, g.exits⟩
      ⟨f'.entry, Fragment.jumpFrom g'.entry f'.exits f'.blocks ++ g'.blocks, g'.exits⟩ := by
    refine ⟨hl.entry, ?_, hr.exits⟩
    rw [hl.exits, hr.entry]
    exact List.rel_append (jumpFrom _ _ hl.blocks) hr.blocks
  unfold Fragment.conj
  have hblocks := hr.blocks
  rw [hl.exits] at hjump ⊢
  generalize f.exits = exits at hjump ⊢
  generalize g.blocks = blocks at hblocks hjump ⊢
  generalize g'.blocks = blocks' at hblocks hjump ⊢
  rcases exits with _ | ⟨e, _ | ⟨e', exits⟩⟩ <;>
    rcases hblocks with _ | ⟨hb, _ | ⟨hb', hblocks⟩⟩ <;> try exact hjump
  refine ⟨hl.entry, ?_, by rw [hr.exits]⟩
  exact changeBlock (fun hc => Codes.continueWith e hb.2 hc) hl.blocks

/-- One, with the other as alternative. -/
theorem Fragments.disj (outermost : Bool) (hl : ρ.Fragments f f') (hr : ρ.Fragments g g') :
    ρ.Fragments (Fragment.disj outermost f g) (Fragment.disj outermost f' g') := by
  refine ⟨hl.entry, ?_, ?_⟩
  · simp only [Fragment.disj]
    rw [hl.entry, hr.entry]
    refine List.rel_append (changeBlock (fun hc => .cons ?_ hc) hl.blocks)
      (changeBlock (fun hc => ?_) hr.blocks)
    · exact .refl rfl empty_ne empty_ne empty_ne
    · split
      · exact .cons (.refl rfl empty_ne empty_ne empty_ne) hc
      · exact hc
  · simp only [Fragment.disj]
    rw [hl.exits, hr.exits]

end Renumbering

end PrologMachine
