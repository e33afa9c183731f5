/-
  PrologMachine.Proofs.Code.Linking ── **LINKED BODIES.**

  Joining and jumping keep the discipline of code: every block of a fragment is closed, every label
  that is gone to is the label of a block other than the entry, and behind every exit more code may
  follow.

    * `Fragment.stripTail_spec`: stripping drops one last `proceed` or `end` and nothing else.
    * `Fragment.Laid` is the invariant of labels and `Fragment.Linked` adds the discipline;
      `conj` and `disj` keep both.
    * `Body.fragment_linked`: the fragment of every proper body is linked.
    * `clauseOf_compiled`: the clause that is made of a head and a linked body is compiled.
-/
import PrologMachine.Compiler
import PrologMachine.Proofs.Code.Emission

namespace PrologMachine

open Emit

/-! ## §1. Emission that makes no leaf. -/

/-- The emitter adds neither leaf goals nor auxiliary clauses. -/
def Emit.Local {α : Type} (x : Emit α) : Prop :=
  ∀ e : Emitter, (x.eval e).2.leaves = e.leaves ∧ (x.eval e).2.auxiliaries = e.auxiliaries

namespace Emit.Local

variable {α β : Type}

protected theorem pure (a : α) : Emit.Local (pure a : Emit α) := fun _ => ⟨rfl, rfl⟩

/-- Emission in turn makes no leaf, if neither part does. -/
protected theorem bind {x : Emit α} {k : α → Emit β} (hx : x.Local) (hk : ∀ a, (k a).Local) :
    (x >>= k).Local := by
  intro e
  simp only [eval_bind]
  have h := hk (x.eval e).1 (x.eval e).2
  exact ⟨h.1.trans (hx e).1, h.2.trans (hx e).2⟩

protected theorem ite (c : Prop) [Decidable c] {x y : Emit α} (hx : x.Local) (hy : y.Local) :
    Emit.Local (if c then x else y) := by split <;> assumption

theorem constant (a : Atomic) : (Emit.constant a).Local := fun _ => ⟨rfl, rfl⟩

theorem occurs (name : String) : (Emit.occurs name).Local := by
  intro e
  rw [eval_occurs]
  split <;> exact ⟨rfl, rfl⟩

theorem clearRegisters : Emit.clearRegisters.Local := fun _ => ⟨rfl, rfl⟩

theorem newRegister : Emit.newRegister.Local := fun _ => ⟨rfl, rfl⟩

theorem newResult : Emit.newResult.Local := fun _ => ⟨rfl, rfl⟩

/-- Decoding an argument makes no leaf. -/
theorem decodeArg (root : Bool) (t : Term) : (decodeArg root t).Local := by
  have hconst : ∀ a, (decodeConst root a).Local := fun a => (constant a).bind fun _ => .pure _
  match t with
  | .var name id =>
    exact .bind (.ite _ (.pure _) ((occurs name).bind fun _ => .pure _)) fun _ => .pure _
  | .const a pos => exact (hconst a).bind fun _ => .pure _
  | .app name [] attrs pos => exact (hconst _).bind fun _ => .pure _
  | .app name (a :: as) attrs pos => exact newRegister.bind fun _ => .pure _
  | .absent => exact .pure _

theorem decodeArgs (root : Bool) : ∀ ts : List Term, (decodeArgs root ts).Local
  | [] => .pure _
  | t :: ts => (decodeArg root t).bind fun _ => (decodeArgs root ts).bind fun _ => .pure _

theorem decodeNested (ts : List Term) (places : List (Option Nat)) :
    (decodeNested ts places).Local := by
  fun_induction PrologMachine.decodeNested ts places with
  | case1 name args attrs pos ts r rs ihBelow ihRest =>
    exact (decodeArgs false args).bind fun d => (ihBelow d.2).bind fun _ =>
      ihRest.bind fun _ => .pure _
  | case2 t ts r rs _ ih => exact ih
  | case3 => exact .pure _

theorem decodeHead (name : String) (args : List Term) (hasBody : Bool) :
    (decodeHead name args hasBody).Local :=
  clearRegisters.bind fun _ => (decodeArgs true args).bind fun d =>
    (decodeNested args d.2).bind fun _ => .pure _

/-- Passing an argument makes no leaf. -/
theorem putArg (t : Term) : (putArg t).Local := by
  match t with
  | .var name id =>
    exact .ite _ (.pure _) ((occurs name).bind fun _ => .ite _ (.pure _) (.pure _))
  | .const a pos => exact (constant a).bind fun _ => .pure _
  | .app name args attrs pos => exact (constant _).bind fun _ => .pure _
  | .absent => exact .pure _

theorem putArgs (ts : List Term) (places : List (Option Nat)) : (putArgs ts places).Local := by
  fun_induction PrologMachine.putArgs ts places with
  | case1 t ts r rs ih => exact ih.bind fun _ => .pure _
  | case2 t ts rs ih => exact (putArg t).bind fun _ => ih.bind fun _ => .pure _
  | case3 => exact .pure _

theorem buildNested (ts : List Term) : (buildNested ts).Local := by
  fun_induction PrologMachine.buildNested ts with
  | case1 => exact .pure _
  | case2 name a as attrs pos ts ihBelow ihRest =>
    exact newRegister.bind fun _ => ihBelow.bind fun b => (putArgs (a :: as) b.2).bind fun _ =>
      ihRest.bind fun _ => .pure _
  | case3 t ts _ ih => exact ih.bind fun _ => .pure _

theorem callGoal (isNative : Signature → Bool) (g : Goal) (negated : Bool) :
    (callGoal isNative g negated).Local := by
  refine .bind ?_ fun _ => .pure _
  exact clearRegisters.bind fun _ => (buildNested g.args).bind fun b =>
    (putArgs g.args b.2).bind fun _ => .pure _

theorem evalOperand (x : Expr) : (evalOperand x).Local := by
  induction x with
  | var name => exact (occurs name).bind fun _ => .pure _
  | const a => exact ((constant a).bind fun _ => .pure _).bind fun _ => .pure _
  | apply op keeps l r ihl ihr =>
    exact ihl.bind fun _ => ihr.bind fun _ => .ite _ (newResult.bind fun _ => .pure _) (.pure _)

theorem assignCode (target : Target) (value : Expr) : (assignCode target value).Local := by
  refine (evalOperand value).bind fun _ => .bind ?_ fun _ => newResult.bind fun _ => .pure _
  cases target with
  | var name => exact (occurs name).bind fun _ => .ite _ (.pure _) (.pure _)
  | const a => exact (constant a).bind fun _ => .pure _

end Emit.Local

/-! ## §2. Opening an exit. -/

variable {admits : Signature → Bool}

namespace Fragment

/-- What comes between the code of an exit and the code that follows it. -/
def guard (x : Exit) : Code := if x.primitive then [] else [{ op := .maybeFail }]

/-- The end of a body gives way to what follows it. -/
theorem continueWith_eq (x : Exit) (next code : Code) :
    continueWith x next code = stripTail code ++ guard x ++ next := rfl

/-- More code may follow the block behind its exit. -/
def Open (admits : Signature → Bool) (x : Exit) (code : Code) : Prop :=
  ∃ p, Phase.body.run admits (stripTail code ++ guard x) = some p ∧ (p = .body ∨ p = .failed)

/-- The last instruction is dropped if it is a return or an end of query, and kept otherwise. -/
theorem stripTail_concat (code : Code) (i : Instruction) :
    stripTail (code ++ [i]) = if i.op = .proceed ∨ i.op = .end_ then code else code ++ [i] := by
  simp [stripTail]

/-- **Only a return or an end of query is dropped, one of them, and from the end only.** -/
theorem stripTail_spec (code : Code) :
    (∃ i : Instruction, (i.op = .proceed ∨ i.op = .end_) ∧ code = stripTail code ++ [i]) ∨
      stripTail code = code ∧ ∀ i ∈ code.getLast?, i.op ≠ .proceed ∧ i.op ≠ .end_ := by
  rcases List.eq_nil_or_concat code with rfl | ⟨l, i, rfl⟩
  · exact .inr ⟨rfl, fun i hi => by cases hi⟩
  rw [List.concat_eq_append, stripTail_concat]
  split
  · next hop => exact .inl ⟨i, hop, rfl⟩
  · next hop =>
    refine .inr ⟨rfl, fun j hj => ?_⟩
    obtain rfl : i = j := by simpa using hj
    exact not_or.1 hop

/-- The end is dropped from the part that stands last. -/
theorem stripTail_append {a b : Code} (hb : b ≠ []) : stripTail (a ++ b) = a ++ stripTail b := by
  obtain ⟨l, i, rfl⟩ := (List.eq_nil_or_concat' b).resolve_left hb
  rw [← List.append_assoc, stripTail_concat, stripTail_concat]
  split
  · rfl
  · rw [List.append_assoc]

theorem stripTail_subset {code : Code} : ∀ i ∈ stripTail code, i ∈ code := by
  intro i hi
  rcases stripTail_spec code with ⟨tail, -, hcode⟩ | ⟨hcode, -⟩
  · rw [hcode]
    exact List.mem_append_left _ hi
  · rwa [hcode] at hi

/-- The end of a body is dropped. -/
theorem stripTail_tail (u : UnitInfo) (code : Code) : stripTail (code ++ [u.tail]) = code := by
  cases h : u.isQuery <;> simp [stripTail_concat, UnitInfo.tail, h]

/-- A block has code. -/
theorem ne_nil_of_closes {code : Code} (h : Phase.body.Closes admits code) : code ≠ [] := by
  rintro rfl
  obtain ⟨q, hq, hf⟩ := h
  obtain rfl : Phase.body = q := by simpa using hq
  simp [Phase.Final] at hf

/-- Going on behind an open exit is going on between goals. -/
theorem Open.run {x : Exit} {code next : Code} (h : Open admits x code) (hn : next ≠ []) :
    Phase.body.run admits (continueWith x next code) = Phase.body.run admits next := by
  obtain ⟨p, hp, rfl | rfl⟩ := h
  · rw [continueWith_eq, Phase.run_append, hp, Option.bind_some]
  · rw [continueWith_eq, Phase.run_append, hp, Option.bind_some, Phase.run_failed hn]

/-- Code that goes on with a closed block is closed. -/
theorem Open.closes {x : Exit} {code next : Code} (h : Open admits x code)
    (hn : Phase.body.Closes admits next) : Phase.body.Closes admits (continueWith x next code) := by
  obtain ⟨q, hq, hf⟩ := hn
  exact ⟨q, by rw [h.run (ne_nil_of_closes ⟨q, hq, hf⟩), hq], hf⟩

/-- The exit of what follows an open exit is open. -/
theorem Open.trans {x y : Exit} {code next : Code} (h : Open admits x code) (hy : Open admits y next)
    (hn : next ≠ []) : Open admits y (continueWith x next code) := by
  obtain ⟨q, hq, hf⟩ := hy
  have hstrip : stripTail (continueWith x next code) ++ guard y =
      (stripTail code ++ guard x) ++ (stripTail next ++ guard y) := by
    rw [continueWith_eq, stripTail_append hn, List.append_assoc]
  obtain ⟨p, hp, rfl | rfl⟩ := h
  · exact ⟨q, by rw [hstrip, Phase.run_append, hp, Option.bind_some, hq], hf⟩
  · by_cases hnil : stripTail next ++ guard y = []
    · exact ⟨.failed, by rw [hstrip, hnil, List.append_nil, hp], .inr rfl⟩
    · exact ⟨q, by rw [hstrip, Phase.run_append, hp, Option.bind_some, Phase.run_failed hnil, hq],
        hf⟩

/-- An instruction in front that stays between goals changes nothing. -/
theorem Open.cons {x : Exit} {code : Code} {i : Instruction} (h : Open admits x code) (hc : code ≠ [])
    (hi : Phase.body.next admits i = some .body) : Open admits x (i :: code) := by
  obtain ⟨p, hp, hf⟩ := h
  refine ⟨p, ?_, hf⟩
  rw [← List.singleton_append, stripTail_append hc, List.append_assoc, List.singleton_append,
    Phase.run_cons, hi, Option.bind_some, hp]

/-- An instruction may be put in front of a closed block. -/
theorem closes_cons {code : Code} {i : Instruction} (h : Phase.body.Closes admits code)
    (hi : Phase.body.next admits i = some .body) : Phase.body.Closes admits (i :: code) := by
  obtain ⟨q, hq, hf⟩ := h
  exact ⟨q, by rw [Phase.run_cons, hi, Option.bind_some, hq], hf⟩

/-- What is gone to behind an open exit is gone to before it or after it. -/
theorem targets_continueWith {x : Exit} {code next : Code} {l : String}
    (h : Code.Targets (continueWith x next code) l) : Code.Targets code l ∨ Code.Targets next l := by
  rw [continueWith_eq, Code.targets_append, Code.targets_append] at h
  rcases h with (⟨i, hi, hgoes⟩ | ⟨i, hi, hgoes, -⟩) | h
  · exact .inl ⟨i, stripTail_subset i hi, hgoes⟩
  · rw [guard] at hi
    split at hi
    · simp at hi
    · obtain rfl : i = { op := .maybeFail } := by simpa using hi
      simp at hgoes
  · exact .inr h

/-! ## §3. Changing blocks. -/

/-- The labels of blocks. -/
def labels (blocks : List Block) : List String := blocks.map Prod.fst

@[simp] theorem labels_append (a b : List Block) : labels (a ++ b) = labels a ++ labels b := by
  simp [labels]

@[simp] theorem labels_changeBlock (label : String) (f : Code → Code) (blocks : List Block) :
    labels (changeBlock label f blocks) = labels blocks := by
  simp only [labels, changeBlock, List.map_map]
  apply List.map_congr_left
  intro b _
  simp only [Function.comp]
  split <;> rfl

/-- A changed block comes from one of the same label. -/
theorem mem_changeBlock {label l : String} {f : Code → Code} {blocks : List Block} {code : Code}
    (h : (l, code) ∈ changeBlock label f blocks) :
    ∃ code₀, (l, code₀) ∈ blocks ∧
      ((l ≠ label ∧ code = code₀) ∨ (l = label ∧ code = f code₀)) := by
  obtain ⟨b, hb, heq⟩ := List.mem_map.1 h
  split at heq
  · next hl =>
    obtain ⟨rfl, rfl⟩ := Prod.mk.inj heq
    exact ⟨b.2, hb, .inr ⟨hl, rfl⟩⟩
  · next hl =>
    subst heq
    exact ⟨code, hb, .inl ⟨hl, rfl⟩⟩

@[simp] theorem labels_jumpFrom (label : String) (exits : List Exit) (blocks : List Block) :
    labels (jumpFrom label exits blocks) = labels blocks := by
  induction exits generalizing blocks with
  | nil => rfl
  | cons x xs ih => exact (ih _).trans (labels_changeBlock _ _ _)

/-- Every block is as it was, or is an exit and jumps. -/
theorem mem_jumpFrom {label l : String} {code : Code} :
    ∀ {exits : List Exit} {blocks : List Block}, (exits.map Exit.label).Nodup →
      (l, code) ∈ jumpFrom label exits blocks →
      ∃ code₀, (l, code₀) ∈ blocks ∧
        (code = code₀ ∨
          ∃ x ∈ exits, x.label = l ∧ code = continueWith x [{ op := .jump, label }] code₀) := by
  intro exits
  induction exits with
  | nil => intro blocks _ h; exact ⟨code, h, .inl rfl⟩
  | cons x xs ih =>
    intro blocks hnodup h
    rw [List.map_cons, List.nodup_cons] at hnodup
    obtain ⟨code₁, h₁, hcode⟩ := ih hnodup.2 h
    obtain ⟨code₀, h₀, ⟨-, rfl⟩ | ⟨hl, rfl⟩⟩ := mem_changeBlock h₁
    -- Another exit may still change it.
    · refine ⟨code₁, h₀, hcode.imp_right ?_⟩
      rintro ⟨y, hy, hrest⟩
      exact ⟨y, List.mem_cons_of_mem _ hy, hrest⟩
    · -- The block is the exit `x`, so no later exit changes it again.
      refine ⟨code₀, h₀, .inr ⟨x, by simp, hl.symm, ?_⟩⟩
      rcases hcode with rfl | ⟨y, hy, hyl, -⟩
      · rfl
      · exact (hnodup.1 (List.mem_map.2 ⟨y, hy, hyl.trans hl⟩)).elim

/-! ## §4. Laid fragments. -/

/-- A fragment whose blocks have the leaf labels from `lo` up to `hi` and lead to blocks of the
    fragment other than its entry. -/
structure Laid (lo hi : Nat) (f : Fragment) : Prop where
  /-- The entry is the first leaf. -/
  entry : f.entry = leafLabel lo
  /-- It has a block. -/
  entered : f.entry ∈ labels f.blocks
  /-- Blocks are labelled by leaves of the fragment. -/
  leaves : ∀ l ∈ labels f.blocks, ∃ n, lo ≤ n ∧ n < hi ∧ l = leafLabel n
  /-- No two blocks have the same label. -/
  nodup : (labels f.blocks).Nodup
  /-- Blocks lead to blocks. -/
  targets : ∀ l code, (l, code) ∈ f.blocks → ∀ t, Code.Targets code t →
    t ∈ labels f.blocks ∧ t ≠ f.entry
  /-- Exits are blocks. -/
  exits : ∀ x ∈ f.exits, x.label ∈ labels f.blocks
  /-- No block is two exits. -/
  exitsNodup : (f.exits.map Exit.label).Nodup

/-- The label of a block is one of the labels. -/
theorem mem_labels {l : String} {code : Code} {blocks : List Block} (h : (l, code) ∈ blocks) :
    l ∈ labels blocks := List.mem_map.2 ⟨_, h, rfl⟩

namespace Laid

variable {lo mid hi : Nat} {left right f : Fragment}

/-- A laid fragment has a leaf. -/
theorem lt (h : f.Laid lo hi) : lo < hi := by
  obtain ⟨n, h₁, h₂, -⟩ := h.leaves _ h.entered
  omega

/-- Fragments of different leaves share no label. -/
theorem disjoint (hl : left.Laid lo mid) (hr : right.Laid mid hi) {l : String}
    (h₁ : l ∈ labels left.blocks) (h₂ : l ∈ labels right.blocks) : False := by
  obtain ⟨n, _, hn, rfl⟩ := hl.leaves _ h₁
  obtain ⟨k, hk, _, heq⟩ := hr.leaves _ h₂
  rw [leafLabel_inj] at heq
  omega

/-- Nothing in the right one of two fragments is the entry of the left one. -/
theorem ne_entry (hl : left.Laid lo mid) (hr : right.Laid mid hi) {l : String}
    (h : l ∈ labels right.blocks) : l ≠ left.entry := by
  rintro rfl
  exact hl.disjoint hr hl.entered h

/-- Labels of two fragments side by side. -/
theorem leaves_append (hl : left.Laid lo mid) (hr : right.Laid mid hi) :
    ∀ l ∈ labels left.blocks ++ labels right.blocks, ∃ n, lo ≤ n ∧ n < hi ∧ l = leafLabel n := by
  have hlo := hl.lt
  have hhi := hr.lt
  intro l h
  rcases List.mem_append.1 h with h | h
  · obtain ⟨n, h₁, h₂, rfl⟩ := hl.leaves l h
    exact ⟨n, h₁, by omega, rfl⟩
  · obtain ⟨n, h₁, h₂, rfl⟩ := hr.leaves l h
    exact ⟨n, by omega, h₂, rfl⟩

/-- Two fragments with numbers of their own have no label in common. -/
theorem nodup_append (hl : left.Laid lo mid) (hr : right.Laid mid hi) :
    (labels left.blocks ++ labels right.blocks).Nodup :=
  List.nodup_append.2 ⟨hl.nodup, hr.nodup, fun a ha b hb => by
    rintro rfl; exact hl.disjoint hr ha hb⟩

/-- The block where the fragment is entered. -/
theorem entry_mem (h : f.Laid lo hi) : ∃ code, (f.entry, code) ∈ f.blocks := by
  obtain ⟨b, hb, hentry⟩ := List.mem_map.1 h.entered
  exact ⟨b.2, hentry ▸ hb⟩

/-- A fragment of one block leads nowhere. -/
theorem single_straight {l : String} {code : Code} (h : f.Laid lo hi)
    (hb : f.blocks = [(l, code)]) (t : String) : ¬ Code.Targets code t := by
  intro ht
  obtain ⟨hmem, hne⟩ := h.targets l code (by simp [hb]) t ht
  have hentry := h.entered
  simp only [hb, labels, List.map_cons, List.map_nil, List.mem_singleton] at hmem hentry
  exact hne (hmem.trans hentry.symm)

/-- The exits of a fragment of one block are that block. -/
theorem single_exit {l : String} {code : Code} (h : f.Laid lo hi) (hb : f.blocks = [(l, code)])
    {x : Exit} (hx : x ∈ f.exits) : x.label = l := by
  simpa [hb, labels] using h.exits x hx

/-- So there is at most one. -/
theorem single_exits {l : String} {code : Code} (h : f.Laid lo hi) (hb : f.blocks = [(l, code)]) :
    f.exits.length ≤ 1 := by
  have hall : ∀ s ∈ f.exits.map Exit.label, s = l := by
    intro s hs
    obtain ⟨x, hx, rfl⟩ := List.mem_map.1 hs
    exact h.single_exit hb hx
  have hn := h.exitsNodup
  rw [List.eq_replicate_of_mem hall, List.nodup_replicate] at hn
  simpa using hn

/-- A single block joined to a single exit. -/
theorem join {x : Exit} {l : String} {code : Code} (hl : left.Laid lo mid) (hr : right.Laid mid hi)
    (hx : left.exits = [x]) (hb : right.blocks = [(l, code)]) :
    Laid lo hi
      { entry := left.entry
        blocks := changeBlock x.label (continueWith x code) left.blocks
        exits := right.exits.map (fun y => { y with label := x.label }) } := by
  -- The blocks of the left part keep their labels, and the block of the right part loses its own.
  have hxmem : x ∈ left.exits := by simp [hx]
  refine ⟨hl.entry, by simpa using hl.entered, ?_, by simpa using hl.nodup, ?_, ?_, ?_⟩
  · intro l' h'
    obtain ⟨n, h₁, h₂, rfl⟩ := hl.leaves l' (by simpa using h')
    have := hr.lt
    exact ⟨n, h₁, by omega, rfl⟩
  · intro l' code' h' t ht
    simp only [labels_changeBlock]
    obtain ⟨code₀, h₀, ⟨-, rfl⟩ | ⟨rfl, rfl⟩⟩ := mem_changeBlock h'
    · exact hl.targets l' code' h₀ t ht
    · rcases targets_continueWith ht with ht | ht
      · exact hl.targets _ code₀ h₀ t ht
      · exact (hr.single_straight hb t ht).elim
  · intro y hy
    obtain ⟨z, _, rfl⟩ := List.mem_map.1 hy
    simpa using hl.exits x hxmem
  · rw [List.map_map]
    have hlen := hr.single_exits hb
    match right.exits, hlen with
    | [], _ => simp
    | [y], _ => simp

/-- Every exit jumping to what follows. -/
theorem jump (hl : left.Laid lo mid) (hr : right.Laid mid hi) :
    Laid lo hi
      { entry := left.entry
        blocks := jumpFrom right.entry left.exits left.blocks ++ right.blocks
        exits := right.exits } := by
  refine ⟨hl.entry, by simp [hl.entered], by simpa using hl.leaves_append hr,
    by simpa using hl.nodup_append hr, ?_, ?_, hr.exitsNodup⟩
  · intro l code h t ht
    simp only [labels_append, labels_jumpFrom, List.mem_append]
    rcases List.mem_append.1 h with h | h
    · obtain ⟨code₀, h₀, rfl | ⟨x, hx, rfl, rfl⟩⟩ := mem_jumpFrom hl.exitsNodup h
      · exact ⟨.inl (hl.targets l code h₀ t ht).1, (hl.targets l code h₀ t ht).2⟩
      · rcases targets_continueWith ht with ht | ht
        · exact ⟨.inl (hl.targets _ code₀ h₀ t ht).1, (hl.targets _ code₀ h₀ t ht).2⟩
        · obtain rfl : right.entry = t := by simpa [Code.targets_cons] using ht
          exact ⟨.inr hr.entered, hl.ne_entry hr hr.entered⟩
    · have hmem := (hr.targets l code h t ht).1
      exact ⟨.inr hmem, hl.ne_entry hr hmem⟩
  · intro x hx
    simpa using Or.inr (hr.exits x hx)

/-- A conjunction is laid, whether its parts are joined or the left one jumps. -/
theorem conj (hl : left.Laid lo mid) (hr : right.Laid mid hi) :
    (Fragment.conj left right).Laid lo hi := by
  unfold Fragment.conj
  split
  · next x l code hx hb => exact hl.join hr hx hb
  · exact hl.jump hr

theorem disj (outermost : Bool) (hl : left.Laid lo mid) (hr : right.Laid mid hi) :
    (Fragment.disj outermost left right).Laid lo hi := by
  -- Marking the last alternative adds no target.
  have hmark : ∀ code t,
      Code.Targets (if outermost then { op := .tryFinally } :: code else code) t →
        Code.Targets code t := by
    intro code t h
    split at h
    · simpa [Code.targets_cons] using h
    · exact h
  refine ⟨hl.entry, by simp [Fragment.disj, hl.entered],
    by simpa [Fragment.disj] using hl.leaves_append hr,
    by simpa [Fragment.disj] using hl.nodup_append hr, ?_, ?_, ?_⟩
  · intro l code h t ht
    simp only [Fragment.disj, labels_append, labels_changeBlock, List.mem_append]
    -- A block belongs to the left part or to the right one, and goes to blocks of its own part, or over
    -- to the alternative.
    rcases List.mem_append.1 h with h | h
    · have hleft : ∀ code₀, (l, code₀) ∈ left.blocks → Code.Targets code₀ t →
          (t ∈ labels left.blocks ∨ t ∈ labels right.blocks) ∧ t ≠ left.entry := fun code₀ h₀ ht₀ =>
        ⟨.inl (hl.targets l code₀ h₀ t ht₀).1, (hl.targets l code₀ h₀ t ht₀).2⟩
      obtain ⟨code₀, h₀, ⟨-, rfl⟩ | ⟨-, rfl⟩⟩ := mem_changeBlock h
      · exact hleft code h₀ ht
      · rcases Code.targets_cons.1 ht with ⟨-, rfl⟩ | ht
        · exact ⟨.inr hr.entered, hl.ne_entry hr hr.entered⟩
        · exact hleft code₀ h₀ ht
    · have hright : ∀ code₀, (l, code₀) ∈ right.blocks → Code.Targets code₀ t →
          (t ∈ labels left.blocks ∨ t ∈ labels right.blocks) ∧ t ≠ left.entry := fun code₀ h₀ ht₀ =>
        ⟨.inr (hr.targets l code₀ h₀ t ht₀).1, hl.ne_entry hr (hr.targets l code₀ h₀ t ht₀).1⟩
      obtain ⟨code₀, h₀, ⟨-, rfl⟩ | ⟨-, rfl⟩⟩ := mem_changeBlock h
      · exact hright code h₀ ht
      · exact hright code₀ h₀ (hmark code₀ t ht)
  · intro x hx
    simp only [Fragment.disj, labels_append, labels_changeBlock, List.mem_append] at hx ⊢
    exact hx.imp (hl.exits x) (hr.exits x)
  · rw [Fragment.disj, List.map_append]
    refine List.nodup_append.2 ⟨hl.exitsNodup, hr.exitsNodup, fun a ha b hb => ?_⟩
    obtain ⟨x, hx, rfl⟩ := List.mem_map.1 ha
    obtain ⟨y, hy, rfl⟩ := List.mem_map.1 hb
    intro heq
    exact hl.disjoint hr (hl.exits x hx) (heq ▸ hr.exits y hy)

end Laid

/-- A leaf whose code goes to no label. -/
theorem leaf_laid {n : Nat} {code : Code} {primitive : Bool} (hstraight : Code.Straight code) :
    (leaf (leafLabel n) code primitive).Laid n (n + 1) where
  entry := rfl
  entered := by simp [leaf, labels]
  leaves l h := ⟨n, by omega, by omega, by simpa [leaf, labels] using h⟩
  nodup := by simp [leaf, labels]
  targets l code' h t ht := by
    obtain ⟨-, rfl⟩ : l = leafLabel n ∧ code' = code := by simpa [leaf] using h
    exact (hstraight.not_targets t ht).elim
  exits x h := by
    obtain rfl : x = ⟨leafLabel n, primitive⟩ := by simpa [leaf] using h
    simp [leaf, labels]
  exitsNodup := by simp [leaf]

/-! ## §5. Linked fragments. -/

/-- A fragment whose blocks have the leaf labels from `lo` up to `hi`, follow the discipline, and
    lead to blocks of the fragment other than its entry. -/
structure Linked (admits : Signature → Bool) (lo hi : Nat) (f : Fragment) : Prop where
  /-- The entry is the first leaf. -/
  entry : f.entry = leafLabel lo
  /-- It has a block. -/
  entered : f.entry ∈ labels f.blocks
  /-- Blocks are labelled by leaves of the fragment. -/
  leaves : ∀ l ∈ labels f.blocks, ∃ n, lo ≤ n ∧ n < hi ∧ l = leafLabel n
  /-- No two blocks have the same label. -/
  nodup : (labels f.blocks).Nodup
  /-- Blocks are closed. -/
  closes : ∀ l code, (l, code) ∈ f.blocks → Phase.body.Closes admits code
  /-- Blocks lead to blocks. -/
  targets : ∀ l code, (l, code) ∈ f.blocks → ∀ t, Code.Targets code t →
    t ∈ labels f.blocks ∧ t ≠ f.entry
  /-- Exits are blocks. -/
  exits : ∀ x ∈ f.exits, x.label ∈ labels f.blocks
  /-- No block is two exits. -/
  exitsNodup : (f.exits.map Exit.label).Nodup
  /-- Code may follow behind an exit. -/
  opens : ∀ x ∈ f.exits, ∀ code, (x.label, code) ∈ f.blocks → Open admits x code

/-- What makes a laid fragment linked. -/
theorem Laid.linked {lo hi : Nat} {f : Fragment} (h : f.Laid lo hi)
    (hcloses : ∀ l code, (l, code) ∈ f.blocks → Phase.body.Closes admits code)
    (hopens : ∀ x ∈ f.exits, ∀ code, (x.label, code) ∈ f.blocks → Open admits x code) :
    f.Linked admits lo hi :=
  ⟨h.entry, h.entered, h.leaves, h.nodup, hcloses, h.targets, h.exits, h.exitsNodup, hopens⟩

namespace Linked

variable {lo mid hi : Nat} {left right f : Fragment}

/-- A linked fragment is laid. -/
theorem laid (h : f.Linked admits lo hi) : f.Laid lo hi :=
  ⟨h.entry, h.entered, h.leaves, h.nodup, h.targets, h.exits, h.exitsNodup⟩

/-- A single block joined to a single exit. -/
theorem join {x : Exit} {l : String} {code : Code} (hl : left.Linked admits lo mid)
    (hr : right.Linked admits mid hi) (hx : left.exits = [x]) (hb : right.blocks = [(l, code)]) :
    Linked admits lo hi
      { entry := left.entry
        blocks := changeBlock x.label (continueWith x code) left.blocks
        exits := right.exits.map (fun y => { y with label := x.label }) } := by
  have hcode : Phase.body.Closes admits code := hr.closes l code (by simp [hb])
  have hxmem : x ∈ left.exits := by simp [hx]
  refine (hl.laid.join hr.laid hx hb).linked ?_ ?_
  · intro l' code' h'
    obtain ⟨code₀, h₀, ⟨-, rfl⟩ | ⟨rfl, rfl⟩⟩ := mem_changeBlock h'
    · exact hl.closes l' code' h₀
    · exact (hl.opens x hxmem code₀ h₀).closes hcode
  · intro y hy code' h'
    obtain ⟨z, hz, rfl⟩ := List.mem_map.1 hy
    obtain ⟨code₀, h₀, ⟨hne', -⟩ | ⟨-, rfl⟩⟩ := mem_changeBlock h'
    · exact (hne' rfl).elim
    · have hopen := hr.opens z hz code (by rw [hr.laid.single_exit hb hz]; simp [hb])
      exact (hl.opens x hxmem code₀ h₀).trans hopen (ne_nil_of_closes hcode)

/-- Every exit jumping to what follows. -/
theorem jump (hl : left.Linked admits lo mid) (hr : right.Linked admits mid hi) :
    Linked admits lo hi
      { entry := left.entry
        blocks := jumpFrom right.entry left.exits left.blocks ++ right.blocks
        exits := right.exits } := by
  have hjump : Phase.body.Closes admits [{ op := .jump, label := right.entry }] := ⟨.closed, rfl, .inl rfl⟩
  refine (hl.laid.jump hr.laid).linked ?_ ?_
  · intro l code h
    rcases List.mem_append.1 h with h | h
    · obtain ⟨code₀, h₀, rfl | ⟨x, hx, rfl, rfl⟩⟩ := mem_jumpFrom hl.exitsNodup h
      · exact hl.closes l code h₀
      · exact (hl.opens x hx code₀ h₀).closes hjump
    · exact hr.closes l code h
  · intro x hx code h
    rcases List.mem_append.1 h with h | h
    · have hlabel : x.label ∈ labels left.blocks := by simpa using mem_labels h
      exact (hl.laid.disjoint hr.laid hlabel (hr.exits x hx)).elim
    · exact hr.opens x hx code h

/-- **First one fragment, then the other.** -/
theorem conj (hl : left.Linked admits lo mid) (hr : right.Linked admits mid hi) :
    (Fragment.conj left right).Linked admits lo hi := by
  unfold Fragment.conj
  split
  · next x l code hx hb => exact hl.join hr hx hb
  · exact hl.jump hr

/-- **One fragment, with the other as alternative.** -/
theorem disj (outermost : Bool) (hl : left.Linked admits lo mid) (hr : right.Linked admits mid hi) :
    (Fragment.disj outermost left right).Linked admits lo hi := by
  -- Neither the alternative in front of the left part nor the mark in front of the right one ends a
  -- block.
  have helse : Phase.body.next admits { op := .tryElse, label := right.entry } = some .body := rfl
  have hmark : ∀ code, Phase.body.Closes admits code →
      Phase.body.Closes admits (if outermost then { op := .tryFinally } :: code else code) := by
    intro code h
    split
    · exact closes_cons h rfl
    · exact h
  have hmarkOpen : ∀ x code, Open admits x code → code ≠ [] →
      Open admits x (if outermost then { op := .tryFinally } :: code else code) := by
    intro x code h hne
    split
    · exact h.cons hne rfl
    · exact h
  refine (hl.laid.disj outermost hr.laid).linked ?_ ?_
  · intro l code h
    rcases List.mem_append.1 h with h | h
    · obtain ⟨code₀, h₀, ⟨-, rfl⟩ | ⟨-, rfl⟩⟩ := mem_changeBlock h
      · exact hl.closes l code h₀
      · exact closes_cons (hl.closes l code₀ h₀) helse
    · obtain ⟨code₀, h₀, ⟨-, rfl⟩ | ⟨-, rfl⟩⟩ := mem_changeBlock h
      · exact hr.closes l code h₀
      · exact hmark code₀ (hr.closes l code₀ h₀)
  · intro x hx code h
    -- An exit and its block belong to the same part, since the parts have no label in common.
    have hside : (x ∈ left.exits ∧ (x.label, code) ∈ changeBlock left.entry
          (fun code => { op := .tryElse, label := right.entry } :: code) left.blocks) ∨
        (x ∈ right.exits ∧ (x.label, code) ∈ changeBlock right.entry
          (fun code => if outermost then { op := .tryFinally } :: code else code) right.blocks) := by
      rcases List.mem_append.1 hx with hx | hx <;> rcases List.mem_append.1 h with h | h
      · exact .inl ⟨hx, h⟩
      · exact (hl.laid.disjoint hr.laid (hl.exits x hx) (by simpa using mem_labels h)).elim
      · exact (hl.laid.disjoint hr.laid (by simpa using mem_labels h) (hr.exits x hx)).elim
      · exact .inr ⟨hx, h⟩
    rcases hside with ⟨hx, h⟩ | ⟨hx, h⟩
    · obtain ⟨code₀, h₀, ⟨-, rfl⟩ | ⟨-, rfl⟩⟩ := mem_changeBlock h
      · exact hl.opens x hx code h₀
      · exact (hl.opens x hx code₀ h₀).cons (ne_nil_of_closes (hl.closes _ _ h₀)) helse
    · obtain ⟨code₀, h₀, ⟨-, rfl⟩ | ⟨-, rfl⟩⟩ := mem_changeBlock h
      · exact hr.opens x hx code h₀
      · exact hmarkOpen x code₀ (hr.opens x hx code₀ h₀) (ne_nil_of_closes (hr.closes _ _ h₀))

end Linked

/-- A leaf with closed code that more may follow. -/
theorem leaf_linked {n : Nat} {code : Code} {primitive : Bool} (hcloses : Phase.body.Closes admits code)
    (hstraight : Code.Straight code) (hopen : Open admits ⟨leafLabel n, primitive⟩ code) :
    (leaf (leafLabel n) code primitive).Linked admits n (n + 1) := by
  refine (leaf_laid hstraight).linked ?_ ?_
  · intro l code' h
    obtain ⟨-, rfl⟩ : l = leafLabel n ∧ code' = code := by simpa [leaf] using h
    exact hcloses
  · intro x h code' h'
    obtain rfl : x = ⟨leafLabel n, primitive⟩ := by simpa [leaf] using h
    obtain rfl : code' = code := by simpa [leaf] using h'
    exact hopen

/-- A goal with the end of its body behind it. -/
theorem goal_linked {n : Nat} {c : Code} {primitive : Bool} (u : UnitInfo)
    (hstraight : Code.Straight c)
    (hrun : Phase.body.run admits c = some (if primitive then .body else .outcome)) :
    (leaf (leafLabel n) (c ++ [u.tail]) primitive).Linked admits n (n + 1) := by
  apply leaf_linked
  · refine ⟨.closed, ?_, .inl rfl⟩
    rw [Phase.run_append, hrun, Option.bind_some]
    cases primitive <;> cases h : u.isQuery <;>
      simp [UnitInfo.tail, h, Phase.run_cons, Phase.next, Phase.nextBody]
  · rw [Code.straight_append]
    refine ⟨hstraight, ?_⟩
    cases h : u.isQuery <;> simp [UnitInfo.tail, h]
  · refine ⟨.body, ?_, .inl rfl⟩
    rw [stripTail_tail, Phase.run_append, hrun, Option.bind_some]
    cases primitive <;> rfl

end Fragment

/-! ## §6. Bodies and clauses. -/

/-- The body calls only goals that `admits` lets through, and its terms are proper. -/
def Body.Proper (admits : Signature → Bool) : Body → Prop
  | .conj l r | .disj l r => l.Proper admits ∧ r.Proper admits
  | .cut | .fail | .succeed => True
  | .call g | .negatedCall g => Term.AllProper g.args ∧ admits g.signature = true
  | .negatedBody head body =>
    (Term.AllProper head.args ∧ admits head.signature = true ∧ head.signature ≠ querySignature) ∧
      body.Proper admits
  | .assign target value => target.Proper ∧ value.Proper
  | .evaluate value => value.Proper

/-- A sound clause with code and a head. -/
structure Clause.Compiled (admits : Signature → Bool) (c : Clause) : Prop where
  /-- It has code of its own. -/
  native : c.native = false
  /-- Its code follows the discipline. -/
  sound : c.Sound admits
  /-- It starts with a head. -/
  head : headLabel ∈ c.code.map Prod.fst

namespace Clause

/-- The descendants of a clause are its auxiliary clauses and theirs. -/
theorem descendants_mk (s : Signature) (code : List Block) (native : Bool) (aux : List Clause) :
    descendants ⟨s, code, native, aux⟩ = descendantsOf aux := by
  rw [descendants]

/-- Those of two lists are those of the first and those of the second. -/
theorem descendantsOf_append (a b : List Clause) :
    descendantsOf (a ++ b) = descendantsOf a ++ descendantsOf b := by
  induction a with
  | nil => simp [descendantsOf]
  | cons c cs ih => simp [descendantsOf, ih]

end Clause

/-- A compiled clause that is not taken for a query. -/
def Clause.Auxiliary (admits : Signature → Bool) (c : Clause) : Prop :=
  c.Compiled admits ∧ c.signature ≠ querySignature

/-- The auxiliary clauses emitted so far are compiled, and so are their own. -/
def Emitter.Healthy (admits : Signature → Bool) (e : Emitter) : Prop :=
  ∀ c ∈ Clause.descendantsOf e.auxiliaries, c.Auxiliary admits

/-- Emission that makes no leaf makes no auxiliary clause either. -/
theorem Emit.Local.healthy {α : Type} {x : Emit α} (hx : x.Local) {e : Emitter} (h : e.Healthy admits) :
    (x.eval e).2.Healthy admits := by
  rw [Emitter.Healthy, (hx e).2]
  exact h

/-- The code of a head in front of a linked body. -/
theorem Fragment.Linked.sound {f : Fragment} {hi : Nat} (hf : f.Linked admits 0 hi) {head : Code}
    (hhead : (Phase.head ["$x0"] "" 0).Closes admits head)
    (htargets : ∀ l, Code.Targets head l → l = bodyLabel)
    (s : Signature) (aux : List Clause) :
    Clause.Sound admits ⟨s, (headLabel, head) :: f.blocks, false, aux⟩ := by
  have hentry : bodyLabel ∈ f.blocks.map Prod.fst := by
    rw [← leafLabel_zero, ← hf.entry]; exact hf.entered
  have hleaf : ∀ l ∈ f.blocks.map Prod.fst, l ≠ headLabel := by
    intro l hl
    obtain ⟨n, -, -, rfl⟩ := hf.leaves l hl
    exact leafLabel_ne_head n
  -- The code of each block: of the head, then of a leaf.
  refine ⟨fun l code h => ?_, fun l code h t ht => ?_⟩
  · rcases List.mem_cons.1 h with h | h
    · obtain ⟨rfl, rfl⟩ := Prod.mk.inj h
      simpa [startPhase] using hhead
    · rw [startPhase, if_neg (hleaf l (Fragment.mem_labels h))]
      exact hf.closes l code h
  -- The targets of each block: of the head, then of a leaf.
  · rcases List.mem_cons.1 h with h | h
    · obtain ⟨rfl, rfl⟩ := Prod.mk.inj h
      obtain rfl := htargets t ht
      exact ⟨hleaf _ hentry, by simp [hentry]⟩
    · have hmem := (hf.targets l code h t ht).1
      exact ⟨hleaf t hmem, List.mem_cons_of_mem _ hmem⟩

/-- The clause of a proper head and a body that is emitted linked. -/
theorem clauseOf_compiled (name : String) {args : List Term} (hargs : Term.AllProper args)
    (body : Option (Emit Fragment)) (e : Emitter) (hleaves : e.leaves = 0) (he : e.Healthy admits)
    (hbody : ∀ b ∈ body, ∀ e : Emitter, e.Healthy admits →
      (b.eval e).1.Linked admits e.leaves (b.eval e).2.leaves ∧ (b.eval e).2.Healthy admits) :
    ((clauseOf name args body).eval e).1.Compiled admits ∧
      ∀ c ∈ ((clauseOf name args body).eval e).1.descendants, c.Auxiliary admits := by
  obtain ⟨hcloses, htargets⟩ := decodeHead_closes admits name body.isSome e hargs
  have hlocal := Emit.Local.decodeHead name args body.isSome e
  have hhealthy := (Emit.Local.decodeHead name args body.isSome).healthy he
  cases body with
  -- A fact has the block of its head only.
  | none =>
    simp only [clauseOf, eval_bind, eval_pure, eval_get] at *
    rw [Clause.descendants_mk]
    refine ⟨⟨rfl, ⟨fun l code h => ?_, fun l code h t ht => ?_⟩, by simp⟩, hhealthy⟩
    · obtain ⟨rfl, rfl⟩ := Prod.mk.inj (List.mem_singleton.1 h)
      simpa [startPhase] using hcloses
    · obtain ⟨rfl, rfl⟩ := Prod.mk.inj (List.mem_singleton.1 h)
      exact absurd (htargets t ht).1 (by simp)
  | some b =>
    obtain ⟨hlinked, haux⟩ := hbody b rfl _ hhealthy
    rw [hlocal.1, hleaves] at hlinked
    simp only [clauseOf, eval_bind, eval_pure, eval_get] at *
    rw [Clause.descendants_mk]
    exact ⟨⟨rfl, hlinked.sound hcloses (fun l hl => (htargets l hl).2) _ _, by simp⟩, haux⟩

/-- **The fragment of a proper body is linked, and its auxiliary clauses are compiled.** -/
theorem Body.fragment_linked (b : Body) (hb : b.Proper admits) : ∀ (u : UnitInfo) (outermost : Bool)
    (e : Emitter), e.Healthy admits →
      ((b.fragment u outermost).eval e).1.Linked admits e.leaves
          ((b.fragment u outermost).eval e).2.leaves ∧
        ((b.fragment u outermost).eval e).2.Healthy admits := by
  induction b with
  | conj l r ihl ihr =>
    intro u outermost e he
    obtain ⟨hl, hlh⟩ := ihl hb.1 u outermost e he
    obtain ⟨hr, hrh⟩ := ihr hb.2 u outermost _ hlh
    exact ⟨hl.conj hr, hrh⟩
  | disj l r ihl ihr =>
    intro u outermost e he
    obtain ⟨hl, hlh⟩ := ihl hb.1 u false e he
    obtain ⟨hr, hrh⟩ := ihr hb.2 u false _ hlh
    exact ⟨hl.disj outermost hr, hrh⟩
  | cut =>
    intro u outermost e he
    exact ⟨Fragment.goal_linked (c := [{ op := .cut }]) u (by simp) rfl, he⟩
  | fail =>
    intro u outermost e he
    exact ⟨Fragment.leaf_linked ⟨.failed, rfl, .inr rfl⟩ (by simp) ⟨.failed, rfl, .inr rfl⟩, he⟩
  | succeed =>
    intro u outermost e he
    exact ⟨Fragment.goal_linked (c := []) u (by simp) rfl, he⟩
  | call g =>
    intro u outermost e he
    obtain ⟨hrun, hstraight⟩ := callGoal_run admits u.isNative false { e with leaves := e.leaves + 1 }
      hb.1 hb.2
    have hlocal := Emit.Local.callGoal u.isNative g false { e with leaves := e.leaves + 1 }
    simp only [Body.fragment, eval_bind, eval_newLeaf, eval_pure, hlocal.1]
    exact ⟨Fragment.goal_linked u hstraight hrun, (Emit.Local.callGoal _ _ _).healthy he⟩
  | negatedCall g =>
    intro u outermost e he
    obtain ⟨hrun, hstraight⟩ := callGoal_run admits u.isNative true { e with leaves := e.leaves + 1 }
      hb.1 hb.2
    have hlocal := Emit.Local.callGoal u.isNative g true { e with leaves := e.leaves + 1 }
    simp only [Body.fragment, eval_bind, eval_newLeaf, eval_pure, hlocal.1]
    exact ⟨Fragment.goal_linked u hstraight hrun, (Emit.Local.callGoal _ _ _).healthy he⟩
  | negatedBody head body ih =>
    intro u outermost e he
    -- The auxiliary clause is emitted on its own and put with those before it.
    let inner : Emit Clause :=
      clauseOf head.name head.args (some (body.fragment { u with isQuery := false } true))
    let e₁ : Emitter := { e with leaves := e.leaves + 1 }
    let e₂ : Emitter := ((withAuxiliary inner).eval e₁).2
    have haux := clauseOf_compiled head.name hb.1.1
      (some (body.fragment { u with isQuery := false } true))
      { compiler := e.compiler, constants := e.constants } rfl
      (by simp [Emitter.Healthy, Clause.descendantsOf])
      (fun b' h' e' he' => by
        obtain rfl := Option.some.inj h'
        exact ih hb.2 _ _ e' he')
    have he₂ : e₂.Healthy admits := by
      intro c hc
      have hsplit : Clause.descendantsOf e₂.auxiliaries = Clause.descendantsOf e.auxiliaries ++
          Clause.descendantsOf [(inner.eval { compiler := e.compiler, constants := e.constants }).1] :=
        Clause.descendantsOf_append _ _
      rw [hsplit, List.mem_append] at hc
      rcases hc with hc | hc
      · exact he c hc
      · simp only [Clause.descendantsOf, List.append_nil, List.mem_cons] at hc
        rcases hc with rfl | hc
        · exact ⟨haux.1, hb.1.2.2⟩
        · exact haux.2 c hc
    have hleaves : e₂.leaves = e.leaves + 1 := rfl
    obtain ⟨hrun, hstraight⟩ := callGoal_run admits u.isNative true e₂ hb.1.1 hb.1.2.1
    have hlocal := Emit.Local.callGoal u.isNative head true e₂
    simp only [Body.fragment, eval_bind, eval_newLeaf, eval_pure]
    refine ⟨?_, (Emit.Local.callGoal _ _ _).healthy he₂⟩
    rw [hlocal.1, hleaves]
    exact Fragment.goal_linked u hstraight hrun
  | assign target value =>
    intro u outermost e he
    obtain ⟨hrun, hstraight⟩ := assignCode_run admits { e with leaves := e.leaves + 1 } hb.1 hb.2
    have hlocal := Emit.Local.assignCode target value { e with leaves := e.leaves + 1 }
    simp only [Body.fragment, eval_bind, eval_newLeaf, eval_pure, hlocal.1]
    exact ⟨Fragment.goal_linked u hstraight hrun, (Emit.Local.assignCode _ _).healthy he⟩
  | evaluate value =>
    intro u outermost e he
    obtain ⟨hrun, hstraight, -⟩ := evalOperand_run admits value hb { e with leaves := e.leaves + 1 }
    have hlocal := Emit.Local.evalOperand value { e with leaves := e.leaves + 1 }
    simp only [Body.fragment, eval_bind, eval_newLeaf, eval_pure, hlocal.1]
    exact ⟨Fragment.goal_linked u hstraight hrun, (Emit.Local.evalOperand _).healthy he⟩

end PrologMachine
