/-
  PrologMachine.Proofs.Code.Paths ── **THE PATHS THROUGH A BODY.**

  A body is a tree of goals: a conjunction takes each path of its left part and goes on with each
  path of its right part, a disjunction takes the paths of its left part before those of its right
  part.  The blocks of the body are joined, made to jump and given alternatives, but read from
  `g0`, with an alternative read after what stands in front of it, they spell these paths in this
  order and nothing else.

    * `Body.goals`: the goals of a body with the code that each of them is emitted as.
    * `Reads`: the paths that code spells.
    * `Fragment.Follows.conj`, `Fragment.Follows.disj`: linking two parts keeps their paths.
    * `Body.realised`: the blocks of every rule, auxiliary clause and question spell its goals.
    * `Compiler.clause_realises`, `Compiler.query_realises`: so do those of what the compiler returns.
-/
import PrologMachine.Proofs.Code.Compilation

namespace PrologMachine

open Emit

/-! ## §1. Goals and their paths. -/

/-- A goal at the end of a body. -/
structure Leaf where
  /-- What it is emitted as. -/
  code : Code
  /-- The code handles its own failure. -/
  primitive : Bool

/-- What the goal spells when another one follows. -/
def Leaf.lead (x : Leaf) : Code :=
  Fragment.stripTail x.code ++ if x.primitive then [] else [{ op := .maybeFail }]

/-- The goals of a body. -/
inductive Goals where
  /-- A single goal. -/
  | goal (leaf : Leaf)
  /-- First one part, then the other. -/
  | both (left right : Goals)
  /-- One part, or else the other. -/
  | either (left right : Goals)

/-- The ways through the goals, in the order in which they are tried. -/
def Goals.paths : Goals → List (List Leaf)
  | .goal x => [[x]]
  | .both l r => l.paths.flatMap fun p => r.paths.map fun q => p ++ q
  | .either l r => l.paths ++ r.paths

/-- The goals `a, (b ; c), d` have two ways through. -/
example (a b c d : Leaf) :
    (Goals.both (.goal a) (.both (.either (.goal b) (.goal c)) (.goal d))).paths =
      [[a, b, d], [a, c, d]] := rfl

/-- The code of a path: only the last goal keeps its return or end of query. -/
def spell : List Leaf → Code
  | [] => []
  | [x] => x.code
  | x :: y :: rest => x.lead ++ spell (y :: rest)

/-- A fragment that is one goal. -/
def Goals.single (f : Fragment) : Goals :=
  .goal ⟨f.blocks.flatMap Prod.snd, f.exits.all Exit.primitive⟩

/-- The goals of a body, each with what it is emitted as on its own. -/
def Body.goals : Body → UnitInfo → Emit Goals
  | .conj l r, u => do
    let left ← l.goals u
    let right ← r.goals u
    return .both left right
  | .disj l r, u => do
    let left ← l.goals u
    let right ← r.goals u
    return .either left right
  | b, u => Goals.single <$> b.fragment u true

/-- A path through goals is never empty. -/
theorem Goals.ne_nil_of_mem_paths {g : Goals} {p : List Leaf} (h : p ∈ g.paths) : p ≠ [] := by
  induction g generalizing p with
  | goal x =>
    obtain rfl : p = [x] := by simpa [paths] using h
    exact List.cons_ne_nil _ _
  | both l r ihl _ =>
    simp only [paths, List.mem_flatMap, List.mem_map] at h
    obtain ⟨a, ha, b, -, rfl⟩ := h
    exact List.append_ne_nil_of_left_ne_nil (ihl ha) b
  | either l r ihl ihr =>
    rcases List.mem_append.1 h with h | h
    · exact ihl h
    · exact ihr h

/-- Two paths in turn are spelled in turn, and only the last leaf keeps its tail. -/
theorem spell_append (p : List Leaf) {q : List Leaf} (hq : q ≠ []) :
    spell (p ++ q) = p.flatMap Leaf.lead ++ spell q := by
  induction p with
  | nil => rfl
  | cons x p ih =>
    obtain ⟨y, rest, hrest⟩ := List.exists_cons_of_ne_nil (List.append_ne_nil_of_right_ne_nil p hq)
    rw [List.cons_append, hrest, spell, ← hrest, ih, List.flatMap_cons, List.append_assoc]

/-! ## §2. Reading code. -/

/-- The instruction decides nothing about what is read next. -/
def Instruction.Plain (i : Instruction) : Prop :=
  i.op ≠ .jump ∧ i.op ≠ .tryElse ∧ i.op ≠ .tryFinally

/-- All instructions are plain. -/
def Code.Plain (code : Code) : Prop := ∀ i ∈ code, i.Plain

@[simp] theorem Code.plain_nil : Code.Plain [] := by simp [Code.Plain]

@[simp] theorem Code.plain_cons {i : Instruction} {code : Code} :
    Code.Plain (i :: code) ↔ i.Plain ∧ Code.Plain code := by
  simp [Code.Plain]

@[simp] theorem Code.plain_append {a b : Code} :
    Code.Plain (a ++ b) ↔ Code.Plain a ∧ Code.Plain b := by
  simp [Code.Plain, or_imp, forall_and]

/-- Plain code goes to no label. -/
theorem Code.Plain.straight {code : Code} (h : Code.Plain code) : Code.Straight code :=
  fun i hi hgoes => hgoes.elim (h i hi).1 (h i hi).2.1

/-- The paths that code spells, where `look` finds the block of a label: `jump` goes on with its
    block, `tryElse` has the paths behind it first and those of its block then. -/
inductive Reads (look : String → Option Code) : Code → List Code → Prop where
  /-- The end of the code. -/
  | nil : Reads look [] [[]]
  /-- Go on with another block. -/
  | jump {i : Instruction} {rest code : Code} {paths : List Code} (hop : i.op = .jump)
      (hblock : look i.label = some code) (hpaths : Reads look code paths) :
      Reads look (i :: rest) paths
  /-- What follows, or else another block. -/
  | tryElse {i : Instruction} {rest code : Code} {first second : List Code} (hop : i.op = .tryElse)
      (hblock : look i.label = some code) (hfirst : Reads look rest first)
      (hsecond : Reads look code second) : Reads look (i :: rest) (first ++ second)
  /-- The mark of the last alternative says nothing. -/
  | tryFinally {i : Instruction} {rest : Code} {paths : List Code} (hop : i.op = .tryFinally)
      (hpaths : Reads look rest paths) : Reads look (i :: rest) paths
  /-- Any other instruction belongs to every path behind it. -/
  | plain {i : Instruction} {rest : Code} {paths : List Code} (hi : i.Plain)
      (hpaths : Reads look rest paths) : Reads look (i :: rest) (paths.map (i :: ·))

namespace Reads

variable {look : String → Option Code} {code : Code} {paths paths' : List Code}

/-- **Code spells one list of paths.** -/
theorem unique (h : Reads look code paths) (h' : Reads look code paths') : paths = paths' := by
  -- The first instruction decides which rule has been used, so both readings end with the same one.
  induction h generalizing paths' with
  | nil => cases h'; rfl
  | jump hop hblock _ ih =>
    cases h' with
    | jump _ hblock' h' => exact ih (Option.some.inj (hblock.symm.trans hblock') ▸ h')
    | tryElse hop' => exact absurd (hop.symm.trans hop') nofun
    | tryFinally hop' => exact absurd (hop.symm.trans hop') nofun
    | plain hi => exact absurd hop hi.1
  | tryElse hop hblock _ _ ih₁ ih₂ =>
    cases h' with
    | jump hop' => exact absurd (hop.symm.trans hop') nofun
    | tryElse _ hblock' h₁ h₂ =>
      rw [ih₁ h₁, ih₂ (Option.some.inj (hblock.symm.trans hblock') ▸ h₂)]
    | tryFinally hop' => exact absurd (hop.symm.trans hop') nofun
    | plain hi => exact absurd hop hi.2.1
  | tryFinally hop _ ih =>
    cases h' with
    | jump hop' => exact absurd (hop.symm.trans hop') nofun
    | tryElse hop' => exact absurd (hop.symm.trans hop') nofun
    | tryFinally _ h' => exact ih h'
    | plain hi => exact absurd hop hi.2.2
  | plain hi _ ih =>
    cases h' with
    | jump hop => exact absurd hop hi.1
    | tryElse hop => exact absurd hop hi.2.1
    | tryFinally hop => exact absurd hop hi.2.2
    | plain _ h' => rw [ih h']

/-- Plain code in front belongs to every path. -/
theorem append_plain {lead : Code} (hlead : Code.Plain lead) (h : Reads look code paths) :
    Reads look (lead ++ code) (paths.map (lead ++ ·)) := by
  induction lead with
  | nil => simpa using h
  | cons i lead ih =>
    rw [Code.plain_cons] at hlead
    simpa [Function.comp_def] using Reads.plain hlead.1 (ih hlead.2)

/-- Plain code spells itself. -/
theorem of_plain (hcode : Code.Plain code) : Reads look code [code] := by
  simpa using append_plain hcode Reads.nil

end Reads

/-! ## §3. What follows a fragment. -/

/-- What stands behind the exits of a fragment, and the paths that it spells. -/
inductive Behind (look : String → Option Code) : Option Code → Option (List Code) → Prop where
  /-- Nothing: the exits end the body. -/
  | nothing : Behind look none none
  /-- The code of another part. -/
  | code {next : Code} {paths : List Code} (h : Reads look next paths) :
      Behind look (some next) (some paths)

/-- What a path spells with that behind it. -/
def endings (paths : Option (List Code)) (p : List Leaf) : List Code :=
  match paths with
  | none => [spell p]
  | some qs => qs.map (p.flatMap Leaf.lead ++ ·)

/-- What may follow two paths in turn is what may follow the second one, behind the first. -/
theorem endings_append (paths : Option (List Code)) (p : List Leaf) {q : List Leaf} (hq : q ≠ []) :
    endings paths (p ++ q) = (endings paths q).map (p.flatMap Leaf.lead ++ ·) := by
  cases paths with
  | none => simp [endings, spell_append p hq]
  | some qs => simp [endings]

/-- A conjunction goes on behind its left part as its right part does. -/
theorem endings_both (paths : Option (List Code)) (l r : Goals) :
    (Goals.both l r).paths.flatMap (endings paths) =
      l.paths.flatMap (endings (some (r.paths.flatMap (endings paths)))) := by
  rw [Goals.paths, List.flatMap_assoc]
  refine List.flatMap_congr fun p _ => ?_
  rw [endings, List.map_flatMap, List.flatMap_map]
  exact List.flatMap_congr fun q hq => endings_append paths p (Goals.ne_nil_of_mem_paths hq)

namespace Fragment

/-- Code once it is known which exit it is, if any, and what stands behind the exits. -/
def ending (next : Option Code) (x : Option Exit) (code : Code) : Code :=
  match x, next with
  | some x, some next => continueWith x next code
  | _, _ => code

/-- The exit that the block with a label is. -/
def exitOf (exits : List Exit) (label : String) : Option Exit := exits.find? (·.label = label)

/-- Blocks once it is known what stands behind the exits. -/
def closeAll (next : Option Code) (exits : List Exit) (blocks : List Block) : List Block :=
  blocks.map fun b => (b.1, ending next (exitOf exits b.1) b.2)

variable {next : Option Code} {exits exits' : List Exit} {l : String} {code : Code}
  {blocks : List Block}

@[simp] theorem ending_none : ending next none code = code := rfl

/-- An instruction in front stays in front. -/
theorem ending_cons (i : Instruction) (x : Option Exit) (hcode : code ≠ []) :
    ending next x (i :: code) = i :: ending next x code := by
  have hstrip : stripTail (i :: code) = i :: stripTail code := by
    simpa using stripTail_append (a := [i]) hcode
  cases x with
  | none => rfl
  | some x =>
    cases next with
    | none => rfl
    | some next => simp only [ending, continueWith_eq, hstrip, List.cons_append]

/-- What stands behind a part that follows an exit stands behind both. -/
theorem ending_continueWith (x z : Exit) (label : String) (c₀ : Code) (hcode : code ≠ []) :
    ending next (some { z with label }) (continueWith x code c₀) =
      continueWith x (ending next (some z) code) c₀ := by
  cases next with
  | none => rfl
  | some next =>
    have hstrip : stripTail (continueWith x code c₀) = stripTail c₀ ++ guard x ++ stripTail code :=
      stripTail_append hcode
    simp only [ending]
    rw [continueWith_eq, hstrip, continueWith_eq x, continueWith_eq z]
    simp only [guard, List.append_assoc]

/-- A block that is no exit has no exit. -/
theorem exitOf_eq_none (h : l ∉ exits.map Exit.label) : exitOf exits l = none := by
  rw [exitOf, List.find?_eq_none]
  intro x hx hl
  exact h (List.mem_map.2 ⟨x, hx, by simpa using hl⟩)

/-- The exit of a block of the left part. -/
theorem exitOf_append_left (h : l ∉ exits'.map Exit.label) :
    exitOf (exits ++ exits') l = exitOf exits l := by
  have hnone := exitOf_eq_none h
  rw [exitOf] at hnone ⊢
  rw [List.find?_append, hnone, Option.or_none, exitOf]

/-- The exit of a block of the right part. -/
theorem exitOf_append_right (h : l ∉ exits.map Exit.label) :
    exitOf (exits ++ exits') l = exitOf exits' l := by
  have hnone := exitOf_eq_none h
  rw [exitOf] at hnone ⊢
  rw [List.find?_append, hnone, Option.none_or, exitOf]

@[simp] theorem exitOf_self (x : Exit) (xs : List Exit) : exitOf (x :: xs) x.label = some x := by
  simp [exitOf]

theorem exitOf_cons_of_ne {x : Exit} (xs : List Exit) (h : l ≠ x.label) :
    exitOf (x :: xs) l = exitOf xs l :=
  exitOf_append_right (show l ∉ [x].map Exit.label by simpa using h)

/-- The blocks of a closed fragment are its blocks, each with its ending. -/
theorem mem_closeAll {b : Block} :
    b ∈ closeAll next exits blocks ↔
      ∃ c, (b.1, c) ∈ blocks ∧ b.2 = ending next (exitOf exits b.1) c := by
  constructor
  · intro h
    obtain ⟨b₀, h₀, rfl⟩ := List.mem_map.1 h
    exact ⟨b₀.2, h₀, rfl⟩
  · rintro ⟨c, hc, hb⟩
    exact List.mem_map.2 ⟨(b.1, c), hc, Prod.ext rfl hb.symm⟩

theorem changeBlock_id (label : String) (blocks : List Block) :
    changeBlock label (fun code => code) blocks = blocks := by
  simp [changeBlock]

/-- The block of the label is changed. -/
theorem mem_changeBlock_self {f : Code → Code} (h : (l, code) ∈ blocks) :
    (l, f code) ∈ changeBlock l f blocks := List.mem_map.2 ⟨_, h, if_pos rfl⟩

theorem mem_changeBlock_of_ne {label : String} {f : Code → Code} (h : (l, code) ∈ blocks)
    (hne : l ≠ label) : (l, code) ∈ changeBlock label f blocks := List.mem_map.2 ⟨_, h, if_neg hne⟩

/-- The blocks of two parts are closed side by side. -/
theorem closeAll_append (a b : List Block) :
    closeAll next exits (a ++ b) = closeAll next exits a ++ closeAll next exits b := List.map_append

/-- Only the exits that are among the blocks matter. -/
theorem closeAll_congr (h : ∀ b ∈ blocks, exitOf exits b.1 = exitOf exits' b.1) :
    closeAll next exits blocks = closeAll next exits' blocks :=
  List.map_congr_left fun b hb => by rw [h b hb]

/-- An instruction in front of a block stays there. -/
theorem closeAll_cons (label : String) (i : Instruction) (hcodes : ∀ b ∈ blocks, b.2 ≠ []) :
    closeAll next exits (changeBlock label (i :: ·) blocks) =
      changeBlock label (i :: ·) (closeAll next exits blocks) := by
  rw [closeAll, closeAll, changeBlock, changeBlock, List.map_map, List.map_map]
  refine List.map_congr_left fun b hb => ?_
  by_cases hlabel : b.1 = label
  · simp only [Function.comp, if_pos hlabel, ending_cons i _ (hcodes b hb)]
  · simp only [Function.comp, if_neg hlabel]

/-- Joining code to the single exit closes the blocks with it. -/
theorem changeBlock_eq (x : Exit) (c : Code) (blocks : List Block) :
    changeBlock x.label (continueWith x c) blocks = closeAll (some c) [x] blocks := by
  refine List.map_congr_left fun b _ => ?_
  by_cases hb : b.1 = x.label
  · simp [hb, ending]
  · rw [if_neg hb, exitOf_cons_of_ne [] hb]
    rfl

/-- Jumping from every exit closes the blocks with the jump. -/
theorem jumpFrom_eq (label : String) : ∀ {exits : List Exit} (blocks : List Block),
    (exits.map Exit.label).Nodup →
      jumpFrom label exits blocks = closeAll (some [{ op := .jump, label }]) exits blocks := by
  intro exits
  induction exits with
  | nil => intro blocks _; simp [jumpFrom, closeAll, exitOf]
  | cons x xs ih =>
    intro blocks hnodup
    rw [List.map_cons, List.nodup_cons] at hnodup
    have hstep : jumpFrom label (x :: xs) blocks =
        jumpFrom label xs (changeBlock x.label (continueWith x [{ op := .jump, label }]) blocks) := rfl
    rw [hstep, ih _ hnodup.2, changeBlock, closeAll, List.map_map]
    refine List.map_congr_left fun b _ => ?_
    by_cases hb : b.1 = x.label
    · -- The block leaves through `x`, and through no later exit.
      simp only [Function.comp, if_pos hb, exitOf_eq_none (hb ▸ hnodup.1), ending_none]
      rw [hb, exitOf_self]
      rfl
    · simp only [Function.comp, if_neg hb, exitOf_cons_of_ne xs hb]

/-! ## §4. Linked goals. -/

/-- Entered, the fragment spells the paths of the goals, whatever stands behind its exits. -/
structure Follows (f : Fragment) (goals : Goals) : Prop where
  /-- It can be left. -/
  exits : f.exits ≠ []
  /-- Its blocks have code. -/
  codes : ∀ l code, (l, code) ∈ f.blocks → code ≠ []
  /-- It spells the paths, if its other blocks are found. -/
  reads : ∀ look next paths, Behind look next paths →
    (∀ l code, (l, code) ∈ closeAll next f.exits f.blocks → l ≠ f.entry → look l = some code) →
    ∀ code, (f.entry, code) ∈ closeAll next f.exits f.blocks →
      Reads look code (goals.paths.flatMap (endings paths))

namespace Follows

variable {lo mid hi : Nat} {left right f : Fragment} {l r : Goals}

/-- A leaf is one block, and it spells its goal. -/
theorem leaf (label : String) {code : Code} (primitive : Bool) (hne : code ≠ [])
    (hplain : Code.Plain code) :
    (Fragment.leaf label code primitive).Follows (.goal ⟨code, primitive⟩) where
  exits := List.cons_ne_nil _ _
  codes l code' h := by
    obtain ⟨-, rfl⟩ : l = label ∧ code' = code := by simpa [Fragment.leaf] using h
    exact hne
  reads look next paths hbehind _ code' h := by
    obtain rfl : code' = ending next (some ⟨label, primitive⟩) code := by
      simpa [Fragment.leaf, closeAll, exitOf] using h
    cases hbehind with
    | nothing => simpa [Goals.paths, endings, spell, ending] using Reads.of_plain hplain
    | code hnext =>
      have hlead : Code.Plain (Leaf.mk code primitive).lead := by
        rw [Leaf.lead, Code.plain_append]
        refine ⟨fun i hi => hplain i (stripTail_subset i hi), ?_⟩
        cases primitive <;> simp [Instruction.Plain]
      simpa [Goals.paths, endings, ending, continueWith, Leaf.lead] using hnext.append_plain hlead

/-- A single block joined to a single exit. -/
theorem join {x : Exit} {b : Block} (hl : left.Follows l) (hr : right.Follows r)
    (hlaid : right.Laid mid hi) (hx : left.exits = [x]) (hb : right.blocks = [b]) :
    Follows
      { entry := left.entry
        blocks := changeBlock x.label (continueWith x b.2) left.blocks
        exits := right.exits.map (fun y => { y with label := x.label }) } (.both l r) := by
  -- The right part is one block, so it has one exit, which is the exit of the joined block.
  have hcode : b.2 ≠ [] := hr.codes b.1 b.2 (by simp [hb])
  obtain ⟨z, hz⟩ : ∃ z, right.exits = [z] := by
    have hlen := hlaid.single_exits hb
    have hpos := List.length_pos_iff.2 hr.exits
    exact List.length_eq_one_iff.1 (by omega)
  have hlabel : z.label = b.1 := hlaid.single_exit hb (by simp [hz])
  have hentry : right.entry = b.1 := by simpa [hb, labels] using hlaid.entered
  refine ⟨by simp [hz], fun l' c' h => ?_, fun look next paths hbehind hlook c' h => ?_⟩
  · obtain ⟨c₀, h₀, ⟨-, rfl⟩ | ⟨-, rfl⟩⟩ := mem_changeBlock h
    · exact hl.codes l' c' h₀
    · exact List.append_ne_nil_of_right_ne_nil _ hcode
  · -- Closing the joined block is joining the closed right block.
    have hblocks : closeAll next [{ z with label := x.label }]
        (changeBlock x.label (continueWith x b.2) left.blocks) =
        closeAll (some (ending next (some z) b.2)) left.exits left.blocks := by
      rw [hx, ← changeBlock_eq, closeAll, changeBlock, changeBlock, List.map_map]
      refine List.map_congr_left fun b' _ => ?_
      by_cases hb' : b'.1 = x.label
      · simp [Function.comp, hb', exitOf, ending_continueWith x z x.label b'.2 hcode]
      · simp [Function.comp, hb', exitOf_eq_none]
    have hright : Reads look (ending next (some z) b.2) (r.paths.flatMap (endings paths)) := by
      have hclosed : closeAll next right.exits right.blocks = [(right.entry, ending next (some z) b.2)] := by
        simp [closeAll, hb, hz, hentry, ← hlabel]
      refine hr.reads look next paths hbehind (fun l' c' h' hne => ?_) _ (by simp [hclosed])
      rw [hclosed, List.mem_singleton] at h'
      exact absurd (Prod.mk.inj h').1 hne
    simp only [hz, List.map_cons, List.map_nil, hblocks] at hlook h
    rw [endings_both]
    exact hl.reads look _ _ (.code hright) hlook c' h

/-- Every exit jumping to what follows. -/
theorem jump (hl : left.Follows l) (hr : right.Follows r) (hlaid : left.Laid lo mid)
    (hlaid' : right.Laid mid hi) :
    Follows
      { entry := left.entry
        blocks := jumpFrom right.entry left.exits left.blocks ++ right.blocks
        exits := right.exits } (.both l r) := by
  refine ⟨hr.exits, fun l' c' h => ?_, fun look next paths hbehind hlook c' h => ?_⟩
  · rcases List.mem_append.1 h with h | h
    · obtain ⟨c₀, h₀, rfl | ⟨x, -, -, rfl⟩⟩ := mem_jumpFrom hlaid.exitsNodup h
      · exact hl.codes l' c' h₀
      · exact List.append_ne_nil_of_right_ne_nil _ (List.cons_ne_nil _ _)
    · exact hr.codes l' c' h
  · -- What stands behind the right part does not touch the blocks of the left part.
    have hblocks : closeAll next right.exits
        (jumpFrom right.entry left.exits left.blocks ++ right.blocks) =
        closeAll (some [{ op := .jump, label := right.entry }]) left.exits left.blocks ++
          closeAll next right.exits right.blocks := by
      rw [closeAll, List.map_append, ← closeAll, ← jumpFrom_eq _ _ hlaid.exitsNodup]
      congr 1
      refine (List.map_congr_left fun b hb => ?_).trans (List.map_id _)
      have hlabel : b.1 ∈ labels left.blocks := by simpa using mem_labels (show (b.1, b.2) ∈ _ from hb)
      rw [exitOf_eq_none fun hmem => ?_, ending_none]
      · rfl
      · obtain ⟨x, hx, hxl⟩ := List.mem_map.1 hmem
        exact hlaid.disjoint hlaid' hlabel (hxl ▸ hlaid'.exits x hx)
    simp only [hblocks] at hlook h
    -- The right part is read as before, since its blocks are found.
    have hright : ∀ l' c', (l', c') ∈ closeAll next right.exits right.blocks → look l' = some c' := by
      intro l' c' h'
      obtain ⟨c₀, h₀, -⟩ := mem_closeAll.1 h'
      exact hlook l' c' (List.mem_append_right _ h') (hlaid.ne_entry hlaid' (mem_labels h₀))
    obtain ⟨c₁, h₁⟩ := hlaid'.entry_mem
    have hentered : (right.entry, ending next (exitOf right.exits right.entry) c₁) ∈
        closeAll next right.exits right.blocks := mem_closeAll.2 ⟨c₁, h₁, rfl⟩
    -- The jump leads to the first block of the right part, and from there to all its paths.
    have hjump : Reads look [{ op := .jump, label := right.entry }] (r.paths.flatMap (endings paths)) :=
      .jump rfl (hright _ _ hentered)
        (hr.reads look next paths hbehind (fun l' c' h' _ => hright l' c' h') _ hentered)
    rw [endings_both]
    refine hl.reads look _ _ (.code hjump) (fun l' c' h' => hlook l' c' (List.mem_append_left _ h')) c' ?_
    refine (List.mem_append.1 h).resolve_right fun h' => ?_
    obtain ⟨c₀, h₀, -⟩ := mem_closeAll.1 h'
    exact hlaid.ne_entry hlaid' (mem_labels h₀) rfl

/-- A conjunction is joined or linked by a jump, and spells its goals in turn. -/
theorem conj (hl : left.Follows l) (hr : right.Follows r) (hlaid : left.Laid lo mid)
    (hlaid' : right.Laid mid hi) : (Fragment.conj left right).Follows (.both l r) := by
  unfold Fragment.conj
  split
  · next x lbl code hx hb => exact hl.join hr hlaid' hx hb
  · exact hl.jump hr hlaid hlaid'

/-- **One fragment, with the other as alternative.** -/
theorem disj (outermost : Bool) (hl : left.Follows l) (hr : right.Follows r) (hlaid : left.Laid lo mid)
    (hlaid' : right.Laid mid hi) :
    (Fragment.disj outermost left right).Follows (.either l r) := by
  refine ⟨List.append_ne_nil_of_left_ne_nil hl.exits _, fun l' c' h => ?_,
    fun look next paths hbehind hlook c' h => ?_⟩
  · rcases List.mem_append.1 h with h | h
    · obtain ⟨c₀, h₀, ⟨-, rfl⟩ | ⟨-, rfl⟩⟩ := mem_changeBlock h
      · exact hl.codes l' c' h₀
      · exact List.cons_ne_nil _ _
    · obtain ⟨c₀, h₀, ⟨-, rfl⟩ | ⟨-, rfl⟩⟩ := mem_changeBlock h
      · exact hr.codes l' c' h₀
      · cases outermost with
        | true => exact List.cons_ne_nil _ _
        | false => exact hr.codes l' c₀ h₀
  · let i : Instruction := { op := .tryElse, label := right.entry }
    let mark : Code → Code := fun code => if outermost then { op := .tryFinally } :: code else code
    -- Each part is closed by its own exits, the instructions in front stay in front.
    have hleft : closeAll next (left.exits ++ right.exits) (changeBlock left.entry (i :: ·) left.blocks) =
        changeBlock left.entry (i :: ·) (closeAll next left.exits left.blocks) := by
      rw [closeAll_cons _ _ fun b hb => hl.codes b.1 b.2 hb]
      congr 1
      refine closeAll_congr fun b hb => exitOf_append_left fun hmem => ?_
      obtain ⟨x, hx, hxl⟩ := List.mem_map.1 hmem
      exact hlaid.disjoint hlaid' (mem_labels hb) (hxl ▸ hlaid'.exits x hx)
    have hright : closeAll next (left.exits ++ right.exits) (changeBlock right.entry mark right.blocks) =
        changeBlock right.entry mark (closeAll next right.exits right.blocks) := by
      have hmark : closeAll next right.exits (changeBlock right.entry mark right.blocks) =
          changeBlock right.entry mark (closeAll next right.exits right.blocks) := by
        cases outermost with
        | true => exact closeAll_cons _ _ fun b hb => hr.codes b.1 b.2 hb
        | false => simp [mark, changeBlock_id]
      refine (closeAll_congr fun b hb => exitOf_append_right fun hmem => ?_).trans hmark
      obtain ⟨x, hx, hxl⟩ := List.mem_map.1 hmem
      have hlabel : b.1 ∈ labels right.blocks := by simpa using mem_labels (show (b.1, b.2) ∈ _ from hb)
      exact hlaid.disjoint hlaid' (hxl ▸ hlaid.exits x hx) hlabel
    have hblocks : closeAll next (Fragment.disj outermost left right).exits
        (Fragment.disj outermost left right).blocks =
        changeBlock left.entry (i :: ·) (closeAll next left.exits left.blocks) ++
          changeBlock right.entry mark (closeAll next right.exits right.blocks) := by
      rw [← hleft, ← hright, ← closeAll_append]
      rfl
    rw [hblocks] at hlook h
    have hlookLeft : ∀ l' c', (l', c') ∈ closeAll next left.exits left.blocks → l' ≠ left.entry →
        look l' = some c' := fun l' c' h' hne =>
      hlook l' c' (List.mem_append_left _ (mem_changeBlock_of_ne h' hne)) hne
    have hne : ∀ l' c', (l', c') ∈ closeAll next right.exits right.blocks → l' ≠ left.entry := by
      intro l' c' h'
      obtain ⟨c₀, h₀, -⟩ := mem_closeAll.1 h'
      exact hlaid.ne_entry hlaid' (mem_labels h₀)
    have hlookRight : ∀ l' c', (l', c') ∈ closeAll next right.exits right.blocks →
        l' ≠ right.entry → look l' = some c' := fun l' c' h' hne' =>
      hlook l' c' (List.mem_append_right _ (mem_changeBlock_of_ne h' hne')) (hne l' c' h')
    obtain ⟨c₁, h₁⟩ := hlaid'.entry_mem
    have hentered : (right.entry, ending next (exitOf right.exits right.entry) c₁) ∈
        closeAll next right.exits right.blocks := mem_closeAll.2 ⟨c₁, h₁, rfl⟩
    have hsecond := hr.reads look next paths hbehind hlookRight _ hentered
    have hmarked : Reads look (mark (ending next (exitOf right.exits right.entry) c₁))
        (r.paths.flatMap (endings paths)) := by
      cases outermost with
      | true => exact .tryFinally rfl hsecond
      | false => exact hsecond
    obtain ⟨c₀, h₀, ⟨hne', -⟩ | ⟨-, rfl⟩⟩ := mem_changeBlock ((List.mem_append.1 h).resolve_right
      fun h' => by
        obtain ⟨c₀, h₀, -⟩ := mem_changeBlock h'
        exact hne _ _ h₀ rfl)
    · exact absurd rfl hne'
    · rw [Goals.paths, List.flatMap_append]
      refine .tryElse rfl (hlook _ _ (List.mem_append_right _ (mem_changeBlock_self hentered))
        (hne _ _ hentered)) ?_ hmarked
      exact hl.reads look next paths hbehind hlookLeft c₀ h₀

end Follows

end Fragment

/-! ## §5. The code of single goals. -/

/-- Building a goal decides nothing about what is read next. -/
theorem Code.Puts.plain {code : Code} (h : Code.Puts code) : Code.Plain code := by
  intro i hi
  have hputs := h i hi
  refine ⟨fun hop => ?_, fun hop => ?_, fun hop => ?_⟩
  all_goals
    rw [hop] at hputs
    cases hputs

/-- The code of a call is plain. -/
theorem callGoal_plain (isNative : Signature → Bool) (g : Goal) (negated : Bool) (e : Emitter) :
    Code.Plain ((callGoal isNative g negated).eval e).1 := by
  have hbuild := (buildGoal_puts g e).plain
  cases negated <;> cases hnative : (g.attrs.has .builtin || isNative g.signature) <;>
    simp [callGoal, Instruction.Plain, hnative, hbuild]

/-- A constant is pushed by a plain instruction. -/
theorem pushConst_plain (a : Atomic) (e : Emitter) : ((pushConst a).eval e).1.Plain := by
  cases a <;> simp [pushConst, Instruction.Plain]

/-- An operator is a plain instruction. -/
theorem opcode_plain (op : Operator) (y : String) :
    Instruction.Plain { op := op.opcode, result := y } := by
  cases op with
  | value o => cases o <;> simp [Operator.opcode, ArithOp.opcode, Instruction.Plain]
  | compare c => cases c <;> simp [Operator.opcode, CompareOp.opcode, Instruction.Plain]

/-- Both operands pushed and the operator applied. -/
theorem operation_plain {code : Code} {a b i : Instruction} (hcode : Code.Plain code) (ha : a.Plain)
    (hb : b.Plain) (hi : i.Plain) : Code.Plain (code ++ [{ op := .prepare }, a, b, i]) := by
  have hprepare : Instruction.Plain { op := .prepare } := ⟨nofun, nofun, nofun⟩
  simp [hcode, hprepare, ha, hb, hi]

/-- The code of an expression is plain. -/
theorem evalOperand_plain (x : Expr) : ∀ e : Emitter,
    Code.Plain ((evalOperand x).eval e).1.1 ∧ ((evalOperand x).eval e).1.2.Plain := by
  induction x with
  | var name => exact fun e => by simp [evalOperand, Instruction.Plain]
  | const a => exact fun e => by simpa [evalOperand] using pushConst_plain a e
  | apply op keeps l r ihl ihr =>
    intro e
    obtain ⟨hleft, ha⟩ := ihl e
    obtain ⟨hright, hb⟩ := ihr ((evalOperand l).eval e).2
    have hpush : ∀ y, Instruction.Plain { op := .pushValue, name := y } := by simp [Instruction.Plain]
    have hcode := Code.plain_append.2 ⟨hleft, hright⟩
    cases keeps with
    | true => exact ⟨operation_plain hcode ha hb (opcode_plain op _), hpush _⟩
    | false => exact ⟨operation_plain hcode ha hb (opcode_plain op _), hpush _⟩

/-- The target of an assignment is pushed by a plain instruction. -/
theorem pushTarget_plain (target : Target) (e : Emitter) : ((pushTarget target).eval e).1.Plain := by
  cases target with
  | var name =>
    simp only [pushTarget, eval_bind, eval_ite, eval_pure, eval_occurs]
    split <;> simp [Instruction.Plain]
  | const a => exact pushConst_plain a e

/-- The code of an assignment is plain. -/
theorem assignCode_plain (target : Target) (value : Expr) (e : Emitter) :
    Code.Plain ((assignCode target value).eval e).1 := by
  obtain ⟨hcode, hright⟩ := evalOperand_plain value e
  exact operation_plain hcode (pushTarget_plain target _) hright ⟨nofun, nofun, nofun⟩

/-- A variable of a head is decoded by a plain instruction. -/
theorem decodeVar_plain (root : Bool) (name : String) (e : Emitter) :
    ((decodeVar root name).eval e).1.Plain := by
  simp only [decodeVar, eval_ite, eval_pure, eval_bind, eval_occurs]
  split
  · simp [Instruction.Plain]
  · cases root <;> cases e.seen.contains name <;> simp [Instruction.Plain]

theorem decodeConst_plain (root : Bool) (a : Atomic) (e : Emitter) :
    ((decodeConst root a).eval e).1.Plain := by
  cases root <;> cases a <;> simp [decodeConst, Instruction.Plain]

theorem decodeArg_plain (root : Bool) (t : Term) (e : Emitter) :
    Code.Plain ((decodeArg root t).eval e).1.1 := by
  match t with
  | .var name id => simpa [decodeArg] using decodeVar_plain root name e
  | .const a pos => simpa [decodeArg] using decodeConst_plain root a e
  | .app name [] attrs pos => simpa [decodeArg] using decodeConst_plain root (.atom name) e
  | .app name (a :: as) attrs pos => cases root <;> simp [decodeArg, Instruction.Plain]
  | .absent => simp [decodeArg]

/-- The arguments of a head are decoded by plain code. -/
theorem decodeArgs_plain (root : Bool) (ts : List Term) :
    ∀ e : Emitter, Code.Plain ((decodeArgs root ts).eval e).1.1 := by
  induction ts with
  | nil => exact fun e => by simp [decodeArgs]
  | cons t ts ih => exact fun e => by simpa [decodeArgs] using ⟨decodeArg_plain root t e, ih _⟩

theorem getStruct_plain (name : String) (arity r : Nat) : (getStruct name arity r).Plain :=
  ⟨nofun, nofun, nofun⟩

theorem decodeNested_plain (ts : List Term) (places : List (Option Nat)) :
    ∀ e : Emitter, Code.Plain ((decodeNested ts places).eval e).1 := by
  fun_induction decodeNested ts places with
  | case1 name args attrs pos ts r rs ihBelow ihRest =>
    intro e
    have hown := decodeArgs_plain false args
    simp [getStruct_plain, hown, ihBelow, ihRest]
  | case2 t ts r rs _ ih => exact ih
  | case3 => exact fun e => by simp

/-- The code of a head is plain up to its last instruction. -/
theorem decodeHead_eq (name : String) (args : List Term) (hasBody : Bool) (e : Emitter) :
    ∃ lead, Code.Plain lead ∧ ((decodeHead name args hasBody).eval e).1 =
      lead ++ [if hasBody then { op := .jump, label := bodyLabel } else { op := .proceed }] := by
  refine ⟨getStruct name args.length 0 ::
    ((decodeArgs true args).eval { e with registers := 0 }).1.1 ++
      ((decodeNested args ((decodeArgs true args).eval { e with registers := 0 }).1.2).eval
        ((decodeArgs true args).eval { e with registers := 0 }).2).1, ?_, rfl⟩
  simp [getStruct_plain, decodeArgs_plain, decodeNested_plain]

/-- The head goes to the body only. -/
theorem decodeHead_targets (name : String) (args : List Term) (e : Emitter) {l : String}
    (h : Code.Targets ((decodeHead name args true).eval e).1 l) : l = bodyLabel := by
  obtain ⟨lead, hlead, hcode⟩ := decodeHead_eq name args true e
  rw [hcode] at h
  rcases Code.targets_append.1 h with h | h
  · exact (hlead.straight.not_targets l h).elim
  · simpa [Code.targets_cons, eq_comm] using h

/-! ## §6. Bodies. -/

/-- The fragment emitted for a body has leaf labels of its own and follows the goals of the body. -/
def Body.Spelled (b : Body) (u : UnitInfo) (outermost : Bool) (e : Emitter) : Prop :=
  ((b.fragment u outermost).eval e).1.Laid e.leaves ((b.fragment u outermost).eval e).2.leaves ∧
    ((b.fragment u outermost).eval e).1.Follows ((b.goals u).eval e).1 ∧
    ((b.goals u).eval e).2 = ((b.fragment u outermost).eval e).2

/-- A body that is emitted as one goal. -/
theorem Body.spelled_leaf {b : Body} {u : UnitInfo} {e e' : Emitter} {code : Code} {primitive : Bool}
    (hgoals : b.goals u = Goals.single <$> b.fragment u true)
    (hfragment : ∀ outermost,
      (b.fragment u outermost).eval e = (.leaf (leafLabel e.leaves) code primitive, e'))
    (hleaves : e'.leaves = e.leaves + 1) (hne : code ≠ []) (hplain : Code.Plain code)
    (outermost : Bool) : b.Spelled u outermost e := by
  have hsingle : Goals.single (.leaf (leafLabel e.leaves) code primitive) = .goal ⟨code, primitive⟩ := by
    simp [Goals.single, Fragment.leaf]
  rw [Body.Spelled, hgoals, eval_map, hfragment, hfragment, hleaves, hsingle]
  exact ⟨Fragment.leaf_laid hplain.straight, .leaf _ primitive hne hplain, rfl⟩

/-- The return or the end of query behind a goal. -/
theorem UnitInfo.plain_tail (u : UnitInfo) {code : Code} (h : Code.Plain code) :
    Code.Plain (code ++ [u.tail]) := by
  cases hq : u.isQuery <;> simp [h, UnitInfo.tail, hq, Instruction.Plain]

/-- **The fragment of a body follows its goals.** -/
theorem Body.spelled (b : Body) : ∀ (u : UnitInfo) (outermost : Bool) (e : Emitter),
    b.Spelled u outermost e := by
  -- Only conjunctions and disjunctions have parts; every other body is one leaf, whose code is plain.
  induction b with
  | conj l r ihl ihr =>
    intro u outermost e
    obtain ⟨hlaid, hl, hle⟩ := ihl u outermost e
    obtain ⟨hlaid', hr, hre⟩ := ihr u outermost ((l.fragment u outermost).eval e).2
    refine ⟨hlaid.conj hlaid', ?_, ?_⟩
    · simp only [Body.fragment, Body.goals, eval_bind, eval_pure, hle]
      exact hl.conj hr hlaid hlaid'
    · simp only [Body.fragment, Body.goals, eval_bind, eval_pure, hle, hre]
  | disj l r ihl ihr =>
    intro u outermost e
    obtain ⟨hlaid, hl, hle⟩ := ihl u false e
    obtain ⟨hlaid', hr, hre⟩ := ihr u false ((l.fragment u false).eval e).2
    refine ⟨hlaid.disj outermost hlaid', ?_, ?_⟩
    · simp only [Body.fragment, Body.goals, eval_bind, eval_pure, hle]
      exact hl.disj outermost hr hlaid hlaid'
    · simp only [Body.fragment, Body.goals, eval_bind, eval_pure, hle, hre]
  | cut =>
    intro u outermost e
    have hcut : Code.Plain [{ op := .cut }] := by simp [Instruction.Plain]
    exact spelled_leaf rfl (fun _ => rfl) rfl (List.cons_ne_nil _ _) (u.plain_tail hcut) outermost
  | fail =>
    intro u outermost e
    have hfail : Code.Plain [{ op := .fail }] := by simp [Instruction.Plain]
    exact spelled_leaf rfl (fun _ => rfl) rfl (List.cons_ne_nil _ _) hfail outermost
  | succeed =>
    intro u outermost e
    exact spelled_leaf rfl (fun _ => rfl) rfl (List.cons_ne_nil _ _) (u.plain_tail Code.plain_nil) outermost
  | call g =>
    intro u outermost e
    exact spelled_leaf rfl (fun _ => rfl) (Emit.Local.callGoal u.isNative g false _).1
      (List.append_ne_nil_of_right_ne_nil _ (List.cons_ne_nil _ _))
      (u.plain_tail (callGoal_plain u.isNative g false _)) outermost
  | negatedCall g =>
    intro u outermost e
    exact spelled_leaf rfl (fun _ => rfl) (Emit.Local.callGoal u.isNative g true _).1
      (List.append_ne_nil_of_right_ne_nil _ (List.cons_ne_nil _ _))
      (u.plain_tail (callGoal_plain u.isNative g true _)) outermost
  | negatedBody head body _ =>
    intro u outermost e
    exact spelled_leaf rfl (fun _ => rfl) (Emit.Local.callGoal u.isNative head true _).1
      (List.append_ne_nil_of_right_ne_nil _ (List.cons_ne_nil _ _))
      (u.plain_tail (callGoal_plain u.isNative head true _)) outermost
  | assign target value =>
    intro u outermost e
    exact spelled_leaf rfl (fun _ => rfl) (Emit.Local.assignCode target value _).1
      (List.append_ne_nil_of_right_ne_nil _ (List.cons_ne_nil _ _))
      (u.plain_tail (assignCode_plain target value _)) outermost
  | evaluate value =>
    intro u outermost e
    exact spelled_leaf rfl (fun _ => rfl) (Emit.Local.evalOperand value _).1
      (List.append_ne_nil_of_right_ne_nil _ (List.cons_ne_nil _ _))
      (u.plain_tail (evalOperand_plain value _).1) outermost

/-- In front of another goal a goal spells its own code, and a check of its outcome unless it handles its
    failure itself. -/
theorem Leaf.lead_tail (u : UnitInfo) (code : Code) (primitive : Bool) :
    Leaf.lead ⟨code ++ [u.tail], primitive⟩ = code ++ if primitive then [] else [{ op := .maybeFail }] := by
  rw [Leaf.lead, Fragment.stripTail_tail]

/-- A body that is emitted as one goal has one path. -/
theorem Body.paths_leaf {b : Body} {u : UnitInfo} {e e' : Emitter} {label : String} {code : Code}
    {primitive : Bool} (hgoals : b.goals u = Goals.single <$> b.fragment u true)
    (hfragment : (b.fragment u true).eval e = (.leaf label code primitive, e')) :
    ((b.goals u).eval e).1.paths = [[⟨code, primitive⟩]] := by
  rw [hgoals, eval_map, hfragment]
  simp [Goals.single, Goals.paths, Fragment.leaf]

/-- The goal has code of its own, which the end of the body follows; only `fail` needs no end. -/
def Leaf.Ended (u : UnitInfo) (x : Leaf) : Prop :=
  (∃ code, x.code = code ++ [u.tail]) ∨ x = ⟨[{ op := .fail }], true⟩

/-- Every goal of a body has the end of the body behind its code. -/
theorem Body.ended (b : Body) (u : UnitInfo) : ∀ e, ∀ p ∈ ((b.goals u).eval e).1.paths, ∀ x ∈ p, x.Ended u := by
  have hone {b : Body} {e e' : Emitter} {label : String} {code : Code} {primitive : Bool} 
      (hgoals : b.goals u = Goals.single <$> b.fragment u true)
      (hfragment : (b.fragment u true).eval e = (.leaf label code primitive, e'))
      (hleaf : Leaf.Ended u ⟨code, primitive⟩) : ∀ p ∈ ((b.goals u).eval e).1.paths, ∀ x ∈ p, x.Ended u := by
    rw [Body.paths_leaf hgoals hfragment]
    simpa using hleaf
  induction b with
  | conj l r ihl ihr =>
    intro e p hp x hx
    obtain ⟨p₁, hp₁, hp⟩ := List.mem_flatMap.1 hp
    obtain ⟨p₂, hp₂, rfl⟩ := List.mem_map.1 hp
    exact (List.mem_append.1 hx).elim (ihl e p₁ hp₁ x) (ihr _ p₂ hp₂ x)
  | disj l r ihl ihr =>
    intro e p hp x hx
    exact (List.mem_append.1 hp).elim (ihl e p · x hx) (ihr _ p · x hx)
  | fail => exact fun e => hone rfl rfl (.inr rfl)
  | cut => exact fun e => hone rfl rfl (.inl ⟨[{ op := .cut }], rfl⟩)
  | succeed => exact fun e => hone rfl rfl (.inl ⟨[], rfl⟩)
  | _ => exact fun e => hone rfl rfl (.inl ⟨_, rfl⟩)

/-! ## §7. Clauses. -/

/-- The blocks of a clause have the body at `g0`, go to blocks of the clause only, and read from
    `g0` they spell the paths of the goals. -/
structure Clause.Realises (c : Clause) (goals : Goals) : Prop where
  /-- Labels are labels of blocks. -/
  targets : ∀ l code, (l, code) ∈ c.code → ∀ t, Code.Targets code t → ∃ block, c.block? t = some block
  /-- The body is found and spells the paths in their order. -/
  body : ∃ code, c.block? bodyLabel = some code ∧
    ∀ paths, Reads c.block? code paths ↔ paths = goals.paths.map spell

/-- Where no label occurs twice, every block is found by its label. -/
theorem lookup_of_mem {blocks : List Block} (hnodup : (Fragment.labels blocks).Nodup) {l : String}
    {code : Code} (h : (l, code) ∈ blocks) : blocks.lookup l = some code := by
  obtain ⟨a, b, rfl⟩ := List.append_of_mem h
  refine List.lookup_eq_some_iff.2 ⟨a, b, rfl, fun p hp => ?_⟩
  rw [Fragment.labels_append, List.nodup_append] at hnodup
  have hne := hnodup.2.2 p.1 (Fragment.mem_labels hp) l (by simp [Fragment.labels])
  simpa using Ne.symm hne

/-- A fragment that follows goals realises them in a clause, behind a head that goes to the body. -/
theorem Fragment.Follows.realises {f : Fragment} {goals : Goals} {hi : Nat} (hf : f.Follows goals)
    (hlaid : f.Laid 0 hi) (head : List Block)
    (hhead : ∀ b ∈ head, b.1 = headLabel ∧ ∀ t, Code.Targets b.2 t → t = bodyLabel)
    (hone : head.length ≤ 1) (s : Signature) (aux : List Clause) :
    Clause.Realises ⟨s, head ++ f.blocks, false, aux⟩ goals := by
  -- The head has its own label, and the labels of the body are those of its leaves.
  have hnodup : (labels (head ++ f.blocks)).Nodup := by
    rw [labels_append]
    refine List.nodup_append.2 ⟨?_, hlaid.nodup, fun l hl l' hl' => ?_⟩
    · match head, hone with
      | [], _ => exact List.nodup_nil
      | [b], _ => exact List.nodup_singleton _
    · obtain ⟨b, hb, rfl⟩ := List.mem_map.1 hl
      obtain ⟨n, -, -, rfl⟩ := hlaid.leaves l' hl'
      rw [(hhead b hb).1]
      exact (leafLabel_ne_head n).symm
  have hblock : ∀ l code, (l, code) ∈ f.blocks →
      Clause.block? ⟨s, head ++ f.blocks, false, aux⟩ l = some code :=
    fun l code h => lookup_of_mem hnodup (List.mem_append_right _ h)
  have hentry : f.entry = bodyLabel := hlaid.entry.trans leafLabel_zero
  obtain ⟨code, hcode⟩ := hlaid.entry_mem
  refine ⟨fun l c h t ht => ?_, code, hentry ▸ hblock _ _ hcode, fun paths => ?_⟩
  -- A target of the head is the body; the targets of the body are blocks of its own.
  · rcases List.mem_append.1 h with h | h
    · rw [(hhead _ h).2 t ht]
      exact ⟨code, hentry ▸ hblock _ _ hcode⟩
    · obtain ⟨b, hb, rfl⟩ := List.mem_map.1 (hlaid.targets l c h t ht).1
      exact ⟨b.2, hblock _ _ hb⟩
  · -- Nothing stands behind the exits of a whole body.
    have hclosed : closeAll none f.exits f.blocks = f.blocks := by
      refine (List.map_congr_left fun b _ => ?_).trans (List.map_id _)
      cases exitOf f.exits b.1 <;> rfl
    have hpaths : goals.paths.flatMap (endings none) = goals.paths.map spell :=
      List.map_eq_flatMap.symm
    have hreads := hf.reads (Clause.block? ⟨s, head ++ f.blocks, false, aux⟩) none none .nothing
      (fun l c h _ => hblock l c (hclosed ▸ h)) code (hclosed.symm ▸ hcode)
    rw [hpaths] at hreads
    exact ⟨fun h => h.unique hreads, fun h => h ▸ hreads⟩

/-- The code of a question. -/
theorem Body.realises_question (b : Body) (u : UnitInfo) (compiler constants : Nat) (s : Signature)
    (aux : List Clause) :
    let e : Emitter := { compiler, constants }
    Clause.Realises ⟨s, ((b.fragment u true).eval e).1.blocks, false, aux⟩ ((b.goals u).eval e).1 := by
  intro e
  obtain ⟨hlaid, hf, -⟩ := b.spelled u true e
  exact hf.realises hlaid [] (by simp) (Nat.zero_le 1) s aux

/-- The code of a rule or an auxiliary clause. -/
theorem Body.realises_rule (b : Body) (u : UnitInfo) (compiler constants : Nat) (name : String)
    (args : List Term) :
    let e : Emitter := { compiler, constants }
    ((clauseOf name args (some (b.fragment u true))).eval e).1.Realises
      ((decodeHead name args true >>= fun _ => b.goals u).eval e).1 := by
  intro e
  have hlocal := Emit.Local.decodeHead name args true e
  obtain ⟨hlaid, hf, -⟩ := b.spelled u true ((decodeHead name args true).eval e).2
  rw [hlocal.1] at hlaid
  refine hf.realises hlaid [(headLabel, ((decodeHead name args true).eval e).1)] ?_ (Nat.le_refl 1)
    ⟨name, args.length⟩ _
  intro block hblock
  obtain rfl := List.mem_singleton.1 hblock
  exact ⟨rfl, fun t ht => decodeHead_targets name args e ht⟩

/-- **Linking realises the body.**  The blocks of a question, and those of a rule or an auxiliary
    clause behind their head, have the body at `g0` and go to blocks of the clause only.  Read from
    `g0` they spell the paths through the goals of the body, in order, and nothing else. -/
theorem Body.realised (b : Body) (u : UnitInfo) (compiler constants : Nat) :
    let e : Emitter := { compiler, constants }
    (∀ (s : Signature) (aux : List Clause),
      Clause.Realises ⟨s, ((b.fragment u true).eval e).1.blocks, false, aux⟩ ((b.goals u).eval e).1) ∧
    ∀ (name : String) (args : List Term),
      ((clauseOf name args (some (b.fragment u true))).eval e).1.Realises
        ((decodeHead name args true >>= fun _ => b.goals u).eval e).1 :=
  ⟨b.realises_question u compiler constants, b.realises_rule u compiler constants⟩

namespace Compiler

variable {c : Compiler} {t : Term}

/-- **An accepted rule has the code of its body.** -/
theorem clause_realises {head body : Term} {cl : Clause} (hsplit : splitClause t = .ok (head, some body))
    (hclause : (c.clause t).1 = .ok cl) :
    ∃ name args b, headOf head = .ok (name, args) ∧ (c.body false body).1 = .ok b ∧
      cl.Realises ((decodeHead name args true >>= fun _ => b.goals (c.unitInfo false)).eval c.emitter).1 := by
  obtain ⟨head', rule, name, args, hsplit', hname, hrule⟩ := clause_eq_ok hclause
  obtain ⟨rfl, rfl⟩ := Prod.mk.inj (Except.ok.inj (hsplit.symm.trans hsplit'))
  obtain ⟨hnone, -⟩ | ⟨body', b, hbody, hb, rfl⟩ := hrule
  · cases hnone
  · obtain rfl := Option.some.inj hbody
    exact ⟨name, args, b, hname, hb, b.realises_rule _ c.id c.constants name args⟩

/-- **An accepted question has the code of its goals.** -/
theorem query_realises {q : Clause} (hquery : (c.query t).1 = .ok q) :
    ∃ b, (c.body true (questionGoal t)).1 = .ok b ∧
      q.Realises ((b.goals (c.unitInfo true)).eval c.emitter).1 := by
  obtain ⟨b, hb, rfl⟩ := query_eq_ok hquery
  exact ⟨b, hb, b.realises_question _ c.id c.constants querySignature _⟩

/-- The question `a, (b ; c), d` spells `a, b, d` and then `a, c, d`. -/
example :
    let call (f : String) : Code := [{ op := .allocate }, putStruct f 0 0, { op := .setup }, { op := .call },
      { op := .maybeRetry }, { op := .deallocate }]
    let atom (f : String) : Term := .const (.atom f) 0
    let t : Term := .app "conj" [atom "a",
      .app "conj" [.app "disj" [atom "b", atom "c"] .none 0, atom "d"] .none 0] .none 0
    let check : Code := [{ op := .maybeFail }]
    ∃ q code, (({} : Compiler).query t).1 = .ok q ∧ q.block? bodyLabel = some code ∧
      Reads q.block? code [call "a" ++ check ++ call "b" ++ check ++ call "d" ++ [{ op := .end_ }],
        call "a" ++ check ++ call "c" ++ check ++ call "d" ++ [{ op := .end_ }]] := by
  intro call atom t check
  obtain ⟨q, hq⟩ : ∃ q, (({} : Compiler).query t).1 = .ok q := ⟨_, rfl⟩
  obtain ⟨b, hb, hrealises⟩ := query_realises hq
  obtain ⟨code, hcode, hreads⟩ := hrealises.body
  obtain rfl := Except.ok.inj hb
  refine ⟨q, code, hq, hcode, (hreads _).2 ?_⟩
  simp [call, check, Body.goals, Body.fragment, Goals.single, Fragment.leaf, callGoal, buildGoal, buildNested,
    putArgs, unitInfo, UnitInfo.tail, Attrs.has, Attrs.none, Attrs.builtin, Goals.paths, spell, Leaf.lead,
    Fragment.stripTail]

end Compiler

end PrologMachine
