/-
  PrologMachine.Proofs.Code.Cells ── **ONE CELL FOR EACH VARIABLE.**

  Linking moves the code of goals between blocks, and a disjunction makes alternatives of goals that
  were emitted one after the other.  Still every instruction of a goal ends up in one block, and what
  control passes on its way through the blocks is a selection of the goals in the order of the text.
  So no variable is introduced twice, and none is introduced behind another occurrence.

    * `Code.kept`: what linking keeps of code.
    * `Leads`: what control passes on its way through the blocks of a clause.
    * `Clause.OneCell`: all occurrences of a variable on one way share the value in the frame.
    * `Compiler.one_cell`: it holds of all that the compiler accepts.
-/
import PrologMachine.Proofs.Code.Occurrences

namespace PrologMachine

open Emit

variable {x : String}

/-! ## §1. What linking keeps. -/

/-- The opcodes that linking adds to code or takes from it. -/
def Opcode.links : Opcode → Bool
  | .jump | .tryElse | .tryFinally | .maybeFail | .proceed | .end_ => true
  | _ => false

namespace Instruction

variable {i : Instruction}

/-- An instruction that introduces a variable does not link. -/
theorem Introduces.not_links (h : i.Introduces x) : i.op.links = false := by
  have hop := h.1
  cases hi : i.op <;> simp_all [Opcode.introduces, Opcode.links]

theorem Names.not_links (h : i.Names x) : i.op.links = false := by
  have hop := h.1
  cases hi : i.op <;> simp_all [Opcode.introduces, Opcode.takesName, Opcode.links]

theorem Sets.not_links (h : i.Sets x) : i.op.links = false := by
  rcases h with h | h | h
  · exact h.not_links
  · have hop := h.1
    cases hi : i.op <;> simp_all [Opcode.computes, Opcode.links]
  · rw [h.1]
    rfl

/-- What does not link is plain. -/
theorem plain_of_not_links (h : i.op.links = false) : i.Plain := by
  refine ⟨?_, ?_, ?_⟩ <;> intro hop <;> rw [hop] at h <;> cases h

end Instruction

/-- What linking keeps of code. -/
def Code.kept (code : Code) : Code := code.filter fun i => !i.op.links

namespace Code

variable {a b code : Code} {i : Instruction}

@[simp] theorem kept_nil : kept [] = [] := rfl

@[simp] theorem kept_append : kept (a ++ b) = kept a ++ kept b := List.filter_append ..

/-- Linking instructions are left out. -/
theorem kept_cons_of_links (h : i.op.links = true) : kept (i :: code) = kept code :=
  List.filter_cons_of_neg (by simp [h])

theorem kept_cons_of_not_links (h : i.op.links = false) : kept (i :: code) = i :: kept code :=
  List.filter_cons_of_pos (by simp [h])

/-- What is kept does not link. -/
theorem mem_kept : i ∈ kept code ↔ i ∈ code ∧ i.op.links = false := by simp [kept]

/-- Only the return or the end of query is taken from the end of code. -/
theorem kept_stripTail : kept (Fragment.stripTail code) = kept code := by
  unfold Fragment.stripTail
  split
  · next i hi =>
    obtain ⟨front, rfl⟩ := List.getLast?_eq_some_iff.1 hi
    split
    · next hop =>
      have hlinks : i.op.links = true := by
        rcases Bool.or_eq_true_iff.1 hop with hop | hop <;> rw [of_decide_eq_true hop] <;> rfl
      rw [List.dropLast_concat, kept_append, kept_cons_of_links hlinks, kept_nil, List.append_nil]
    · rfl
  · rfl

/-- The continuation is kept behind what was there. -/
theorem kept_continueWith (e : Exit) (next : Code) :
    kept (Fragment.continueWith e next code) = kept code ++ kept next := by
  rw [Fragment.continueWith_eq, kept_append, kept_append, kept_stripTail]
  have hguard : kept (Fragment.guard e) = [] := by
    unfold Fragment.guard
    split <;> rfl
  rw [hguard, List.append_nil]

end Code

open Code (kept)

/-- The code of all blocks. -/
def Fragment.code (blocks : List Block) : Code := blocks.flatMap Prod.snd

namespace Code

/-- First occurrences are kept. -/
theorem countP_kept (code : Code) :
    (kept code).countP (·.Introduces x) = code.countP (·.Introduces x) := by
  rw [kept, List.countP_filter]
  refine List.countP_congr fun i _ => ?_
  simpa using Instruction.Introduces.not_links

/-- Without first occurrences behind others there is at most one. -/
theorem introductions_le_one {code : Code}
    (h : code.Pairwise fun j i => j.Names x → ¬ i.Introduces x) :
    code.countP (·.Introduces x) ≤ 1 := by
  induction h with
  | nil => exact Nat.zero_le 1
  | @cons j code hj _ ih =>
    by_cases hintro : j.Introduces x
    · have hrest : code.countP (·.Introduces x) = 0 :=
        List.countP_eq_zero.2 fun i hi => by simpa using hj i hi hintro.names
      rw [List.countP_cons, hrest]
      split <;> omega
    · rwa [List.countP_cons_of_neg (by simpa using hintro)]

end Code

/-- What linking keeps of a path is what it keeps of its goals. -/
theorem kept_spell (p : List Leaf) : kept (spell p) = kept (p.flatMap Leaf.code) := by
  have hlead : ∀ y : Leaf, kept y.lead = kept y.code := by
    intro y
    rw [Leaf.lead, Code.kept_append, Code.kept_stripTail]
    cases y.primitive <;> simp [kept, Opcode.links]
  fun_induction spell p with
  | case1 => rfl
  | case2 y => simp
  | case3 y z rest ih => rw [Code.kept_append, hlead, ih, List.flatMap_cons (x := y), Code.kept_append]

namespace Fragment

variable {lo mid hi : Nat} {left right : Fragment} {label : String} {f : Code → Code} {extra : Code}
  {blocks : List Block}

/-- A label that is not there changes nothing. -/
theorem changeBlock_of_not_mem (hlabel : label ∉ labels blocks) :
    changeBlock label f blocks = blocks := by
  refine (List.map_congr_left fun b hb => if_neg ?_).trans (List.map_id _)
  rintro rfl
  exact hlabel (List.mem_map_of_mem hb)

/-- Changing a block changes the code by what is added to it. -/
theorem kept_changeBlock (hnodup : (labels blocks).Nodup) (hlabel : label ∈ labels blocks)
    (hf : ∀ code, kept (f code) = kept code ++ extra) :
    (kept (code (changeBlock label f blocks))).Perm (kept (code blocks) ++ extra) := by
  obtain ⟨⟨l, c⟩, hb, rfl⟩ := List.mem_map.1 hlabel
  obtain ⟨a, b, rfl⟩ := List.append_of_mem hb
  rw [labels_append, List.nodup_append] at hnodup
  obtain ⟨-, hb, hne⟩ := hnodup
  have ha : l ∉ labels a := fun h => hne l h l (by simp [labels]) rfl
  have hchange : changeBlock l f (a ++ (l, c) :: b) = a ++ (l, f c) :: b := by
    have hfront : changeBlock l f a = a := changeBlock_of_not_mem ha
    have hback : changeBlock l f b = b := changeBlock_of_not_mem (List.nodup_cons.1 hb).1
    unfold changeBlock at hfront hback ⊢
    rw [List.map_append, List.map_cons, hfront, hback, if_pos rfl]
  simp only [hchange, code, List.flatMap_append, List.flatMap_cons, Code.kept_append, hf,
    List.append_assoc]
  exact .append_left _ (.append_left _ List.perm_append_comm)

/-- A change that linking does not keep. -/
theorem kept_changeBlock_eq (hf : ∀ code, kept (f code) = kept code) :
    kept (code (changeBlock label f blocks)) = kept (code blocks) := by
  induction blocks with
  | nil => rfl
  | cons b bs ih =>
    have hblock : kept (if b.1 = label then (b.1, f b.2) else b).2 = kept b.2 := by
      split
      · exact hf b.2
      · rfl
    simp only [code, changeBlock, List.map_cons, List.flatMap_cons, Code.kept_append, hblock] at ih ⊢
    rw [ih]

theorem kept_jumpFrom (exits : List Exit) :
    kept (code (jumpFrom label exits blocks)) = kept (code blocks) := by
  induction exits generalizing blocks with
  | nil => rfl
  | cons y ys ih =>
    refine ih.trans (kept_changeBlock_eq fun c => ?_)
    rw [Code.kept_continueWith]
    exact List.append_nil _

/-- A conjunction keeps the code of both parts, in some order. -/
theorem kept_conj (hl : left.Laid lo mid) :
    (kept (code (conj left right).blocks)).Perm (kept (code left.blocks) ++ kept (code right.blocks)) := by
  unfold conj
  split
  · next y l c hx hb =>
    have hlabel := hl.exits y (by simp [hx])
    have hright : kept (code right.blocks) = kept c := by simp [code, hb]
    rw [hright]
    exact kept_changeBlock hl.nodup hlabel fun c₀ => Code.kept_continueWith y c
  · simp only [code, List.flatMap_append, Code.kept_append]
    exact .append_right _ (.of_eq (kept_jumpFrom _))

/-- A disjunction keeps the code of both parts. -/
theorem kept_disj (outermost : Bool) :
    kept (code (disj outermost left right).blocks) =
      kept (code left.blocks) ++ kept (code right.blocks) := by
  have hleft : kept (code (changeBlock left.entry
      (fun code => { op := .tryElse, label := right.entry } :: code) left.blocks)) =
      kept (code left.blocks) := kept_changeBlock_eq fun _ => Code.kept_cons_of_links rfl
  have hright : kept (code (changeBlock right.entry
      (fun code => if outermost then { op := .tryFinally } :: code else code) right.blocks)) =
      kept (code right.blocks) := by
    refine kept_changeBlock_eq fun _ => ?_
    cases outermost with
    | true => exact Code.kept_cons_of_links rfl
    | false => rfl
  rw [← hleft, ← hright]
  simp only [disj, code, List.flatMap_append, Code.kept_append]

end Fragment

/-- **Linking a body keeps the code of its goals.** -/
theorem Body.kept_fragment (b : Body) : ∀ (u : UnitInfo) (outermost : Bool) (e : Emitter),
    (kept (Fragment.code ((b.fragment u outermost).eval e).1.blocks)).Perm
      (kept ((b.goals u).eval e).1.text) := by
  -- A goal that stands alone is one leaf, whatever its place.
  have hgoal : ∀ {b : Body} {u : UnitInfo} {outermost : Bool} {e : Emitter},
      b.goals u = Goals.single <$> b.fragment u true → b.fragment u outermost = b.fragment u true →
      (kept (Fragment.code ((b.fragment u outermost).eval e).1.blocks)).Perm
        (kept ((b.goals u).eval e).1.text) := by
    intro b u outermost e hgoals hfragment
    rw [hgoals, hfragment, eval_map]
    simp [Goals.single, Goals.text, Goals.leaves, Fragment.code]
  induction b with
  | conj l r ihl ihr =>
    intro u outermost e
    obtain ⟨hlaid, -, he⟩ := l.spelled u outermost e
    have hparts := (ihl u outermost e).append (ihr u outermost ((l.fragment u outermost).eval e).2)
    have h := (Fragment.kept_conj hlaid).trans hparts
    simpa [Body.fragment, Body.goals, he] using h
  | disj l r ihl ihr =>
    intro u outermost e
    obtain ⟨-, -, he⟩ := l.spelled u false e
    have h := (ihl u false e).append (ihr u false ((l.fragment u false).eval e).2)
    rw [← Fragment.kept_disj outermost] at h
    simpa [Body.fragment, Body.goals, he] using h
  | _ => exact fun u outermost e => hgoal rfl rfl

/-! ## §2. Ways through the blocks. -/

/-- What control passes on its way through blocks: behind an instruction other than a jump it goes on
    with the next one, and a jump or an alternative leads to the block of its label. -/
inductive Leads (look : String → Option Code) : Code → Code → Code → Prop where
  /-- No instruction is passed. -/
  | here (code : Code) : Leads look code [] code
  /-- The next instruction. -/
  | next {i : Instruction} {code passed rest : Code} (hop : i.op ≠ .jump)
      (h : Leads look code passed rest) : Leads look (i :: code) (i :: passed) rest
  /-- The block of a label. -/
  | goto {i : Instruction} {behind code passed rest : Code} (hgoes : i.goesToLabel)
      (hblock : look i.label = some code) (h : Leads look code passed rest) :
      Leads look (i :: behind) (i :: passed) rest

/-- Code has a path. -/
theorem Reads.ne_nil {look : String → Option Code} {code : Code} {paths : List Code}
    (h : Reads look code paths) : paths ≠ [] := by
  induction h with
  | nil => exact List.cons_ne_nil _ _
  | jump _ _ _ ih => exact ih
  | tryElse _ _ _ _ ih _ => exact List.append_ne_nil_of_left_ne_nil ih _
  | tryFinally _ _ ih => exact ih
  | plain _ _ ih => simpa using ih

namespace Leads

variable {look : String → Option Code} {code passed passed' rest rest' : Code} {paths : List Code}
  {i : Instruction}

/-- One way after the other. -/
theorem trans (h : Leads look code passed rest) (h' : Leads look rest passed' rest') :
    Leads look code (passed ++ passed') rest' := by
  induction h with
  | here => exact h'
  | next hop _ ih => exact .next hop (ih h')
  | goto hgoes hblock _ ih => exact .goto hgoes hblock (ih h')

/-- One instruction further. -/
theorem snoc (h : Leads look code passed (i :: rest)) (hop : i.op ≠ .jump) :
    Leads look code (passed ++ [i]) rest := h.trans (.next hop (.here rest))

/-- **What control passes is part of a path.** -/
theorem kept_sublist (h : Leads look code passed rest) (hreads : Reads look code paths) :
    ∃ q ∈ paths, (kept passed).Sublist (kept q) := by
  induction h generalizing paths with
  | here code =>
    -- The code that is passed is part of one of the paths; linking instructions are not on it.
    obtain ⟨q, hq⟩ := List.exists_mem_of_ne_nil _ hreads.ne_nil
    exact ⟨q, hq, List.nil_sublist _⟩
  | @next i code passed rest hop _ ih =>
    cases hreads with
    | jump hop' => exact absurd hop' hop
    | tryElse hop' _ hfirst _ =>
      obtain ⟨q, hq, hsub⟩ := ih hfirst
      rw [Code.kept_cons_of_links (by rw [hop']; rfl)]
      exact ⟨q, List.mem_append_left _ hq, hsub⟩
    | tryFinally hop' hpaths =>
      obtain ⟨q, hq, hsub⟩ := ih hpaths
      rw [Code.kept_cons_of_links (by rw [hop']; rfl)]
      exact ⟨q, hq, hsub⟩
    | plain _ hpaths =>
      obtain ⟨q, hq, hsub⟩ := ih hpaths
      refine ⟨i :: q, List.mem_map_of_mem hq, ?_⟩
      cases hlinks : i.op.links with
      | true => rwa [Code.kept_cons_of_links hlinks, Code.kept_cons_of_links hlinks]
      | false =>
        rw [Code.kept_cons_of_not_links hlinks, Code.kept_cons_of_not_links hlinks]
        exact hsub.cons_cons i
  | @goto i behind code passed rest hgoes hblock _ ih =>
    have hlinks : i.op.links = true := by rcases hgoes with hop | hop <;> rw [hop] <;> rfl
    rw [Code.kept_cons_of_links hlinks]
    -- A jump goes to the one block; an alternative leads to the paths of the second part.
    cases hreads with
    | jump _ hblock' hpaths => exact ih (Option.some.inj (hblock.symm.trans hblock') ▸ hpaths)
    | tryElse _ hblock' _ hsecond =>
      obtain ⟨q, hq, hsub⟩ := ih (Option.some.inj (hblock.symm.trans hblock') ▸ hsecond)
      exact ⟨q, List.mem_append_right _ hq, hsub⟩
    | tryFinally hop => rcases hgoes with hop' | hop' <;> exact absurd (hop.symm.trans hop') nofun
    | plain hi => rcases hgoes with hop | hop
                  · exact absurd hop hi.1
                  · exact absurd hop hi.2.1

end Leads

/-! ## §3. Clauses with one cell. -/

namespace Clause

/-- Where control starts: at the head or, in a question, at the body. -/
def start? (c : Clause) : Option Code := (c.block? headLabel).or (c.block? bodyLabel)

/-- All occurrences of the variable on one way through the clause refer to the same cell. -/
structure OneCell (c : Clause) (x : String) : Prop where
  /-- There is code to start with. -/
  entered : ∃ start, c.start? = some start
  /-- At most one instruction of all blocks introduces the variable. -/
  once : (Fragment.code c.code).countP (·.Introduces x) ≤ 1
  /-- No way to that instruction passes another occurrence. -/
  first : ∀ start passed i rest, c.start? = some start → Leads c.block? start passed (i :: rest) →
    i.Introduces x → ∀ j ∈ passed, ¬ j.Names x
  /-- Once an occurrence was run the variable has a value, and it keeps that value while the clause
      runs only instructions that a way leads to from there, those of branches that it gives up
      again included. -/
  shared : ∀ start before j rest, c.start? = some start → Leads c.block? start before (j :: rest) →
    j.Names x → ∀ (w : World) (m : Machine), m.fetch = .ok j → m.current < m.frames.size →
      (m.advance w).error = none →
      ∃ t, ((m.advance w).frame m.current).get? x = some t ∧
        ∀ is m', (∀ i ∈ is, ∃ between rest', Leads c.block? rest between (i :: rest')) →
          Machine.Proceeds w m.current is (m.advance w) m' → (m'.frame m.current).get? x = some t

/-- The clause is linked from a text, its head and goals in the order of the source. -/
structure LinkedFrom (c : Clause) (text : Code) : Prop where
  /-- Control starts somewhere, and the paths from there are parts of the text. -/
  paths : ∃ start paths, c.start? = some start ∧ Reads c.block? start paths ∧
    ∀ q ∈ paths, (kept q).Sublist (kept text)
  /-- The blocks have the instructions of the text. -/
  blocks : (kept (Fragment.code c.code)).Perm (kept text)

namespace LinkedFrom

variable {c : Clause} {text start passed rest : Code} {e e' : Emitter}

/-- What control passes is part of the text. -/
theorem passed_sublist (h : c.LinkedFrom text) (hstart : c.start? = some start)
    (hleads : Leads c.block? start passed rest) : (kept passed).Sublist (kept text) := by
  obtain ⟨start', paths, hstart', hreads, hpaths⟩ := h.paths
  obtain rfl := Option.some.inj (hstart.symm.trans hstart')
  obtain ⟨q, hq, hsub⟩ := hleads.kept_sublist hreads
  exact hsub.trans (hpaths q hq)

/-- **A text in which no variable is introduced behind an occurrence gives a clause with one cell.** -/
theorem oneCell (h : c.LinkedFrom text) (hx : NamedVariable x) (htext : Tracked x e text e') :
    c.OneCell x := by
  have hfirst : (kept text).Pairwise fun j i => j.Names x → ¬ i.Introduces x :=
    htext.first.sublist List.filter_sublist
  have hpassed : ∀ {start passed rest}, c.start? = some start → Leads c.block? start passed rest →
      (kept passed).Pairwise fun j i => j.Names x → ¬ i.Introduces x :=
    fun hstart hleads => hfirst.sublist (h.passed_sublist hstart hleads)
  refine ⟨?_, ?_, ?_, ?_⟩
  · obtain ⟨start, -, hstart, -⟩ := h.paths
    exact ⟨start, hstart⟩
  · have honce : (kept (Fragment.code c.code)).countP (·.Introduces x) ≤ 1 := by
      rw [h.blocks.countP_eq]
      exact Code.introductions_le_one hfirst
    rwa [Code.countP_kept] at honce
  · intro start passed i rest hstart hleads hi j hj hnames
    have hway := hpassed hstart (hleads.snoc (Instruction.plain_of_not_links hi.not_links).1)
    rw [Code.kept_append, Code.kept_cons_of_not_links hi.not_links, List.pairwise_append] at hway
    exact hway.2.2 j (Code.mem_kept.2 ⟨hj, hnames.not_links⟩) i List.mem_cons_self hnames hi
  · intro start before j rest hstart hleads hnames w m hfetch hlt herror
    obtain ⟨t, ht⟩ := Machine.value_made hfetch hnames hx.register hlt herror
    refine ⟨t, ht, fun is m' his hrun => hrun.value_kept (fun i hi hsets => ?_) ht⟩
    obtain ⟨between, rest', hbehind⟩ := his i hi
    -- The way goes on from `j` to `i`, which would be a first occurrence.
    have hj := hleads.snoc (Instruction.plain_of_not_links hnames.not_links).1
    have hway := (hj.trans hbehind).snoc (Instruction.plain_of_not_links hsets.not_links).1
    have hmem : i ∈ kept (before ++ [j] ++ between ++ [i]) := by simp [Code.mem_kept, hsets.not_links]
    have hintro : i.Introduces x :=
      htext.sets i (Code.mem_kept.1 ((h.passed_sublist hstart hway).subset hmem)).1 hsets
    have hpairs := hpassed hstart hway
    rw [Code.kept_append, List.pairwise_append] at hpairs
    exact hpairs.2.2 j (by simp [Code.mem_kept, hnames.not_links]) i
      (by simp [Code.mem_kept, hsets.not_links]) hnames hintro

end LinkedFrom

end Clause

/-! ## §4. Compiled clauses. -/

/-- A block in front is found under its label. -/
theorem Clause.start?_head (s : Signature) (head : Code) (blocks : List Block) (native : Bool)
    (aux : List Clause) : Clause.start? ⟨s, (headLabel, head) :: blocks, native, aux⟩ = some head := by
  simp [Clause.start?, Clause.block?]

/-- The ways through goals spell parts of their text. -/
theorem kept_spell_sublist {goals : Goals} {p : List Leaf} (hp : p ∈ goals.paths) :
    (kept (spell p)).Sublist (kept goals.text) := by
  rw [kept_spell]
  exact ((Goals.sublist_of_mem_paths hp).flatMap Leaf.code).filter _

/-- A fact is linked from its head. -/
theorem fact_linkedFrom (name : String) (args : List Term) (e : Emitter) :
    ((clauseOf name args none).eval e).1.LinkedFrom ((decodeHead name args false).eval e).1 := by
  obtain ⟨lead, hlead, hcode⟩ := decodeHead_eq name args false e
  have hplain : Code.Plain ((decodeHead name args false).eval e).1 := by
    rw [hcode]
    simp [hlead, Instruction.Plain]
  refine ⟨⟨_, _, Clause.start?_head _ _ _ _ _, .of_plain hplain, fun q hq => ?_⟩, ?_⟩
  · obtain rfl := List.mem_singleton.1 hq
    exact .refl _
  · simp [clauseOf, Fragment.code]

/-- A rule or an auxiliary clause is linked from its head and its goals. -/
theorem rule_linkedFrom (name : String) (args : List Term) (b : Body) (u : UnitInfo)
    (compiler constants : Nat) :
    let e : Emitter := { compiler, constants }
    ((clauseOf name args (some (b.fragment u true))).eval e).1.LinkedFrom
      (((decodeHead name args true).eval e).1 ++
        ((decodeHead name args true >>= fun _ => b.goals u).eval e).1.text) := by
  intro e
  -- The head's code, but for its last jump, stands in front of every path.
  obtain ⟨lead, hlead, hcode⟩ := decodeHead_eq name args true e
  obtain ⟨-, code, hbody, hpaths⟩ := (b.realised u compiler constants).2 name args
  have hreads : Reads _ [{ op := .jump, label := bodyLabel }] _ := .jump rfl hbody ((hpaths _).2 rfl)
  refine ⟨⟨_, _, Clause.start?_head _ _ _ _ _, hcode ▸ hreads.append_plain hlead, fun q hq => ?_⟩, ?_⟩
  · obtain ⟨q', hq', rfl⟩ := List.mem_map.1 hq
    obtain ⟨p, hp, rfl⟩ := List.mem_map.1 hq'
    have hhead : kept ((decodeHead name args true).eval e).1 = kept lead := by
      rw [hcode, Code.kept_append, if_pos rfl]
      exact List.append_nil _
    rw [Code.kept_append, Code.kept_append, hhead]
    exact .append (.refl _) (kept_spell_sublist hp)
  -- The blocks together hold the head's instructions and those of the goals.
  · have hblocks := b.kept_fragment u true ((decodeHead name args true).eval e).2
    simpa [clauseOf, Fragment.code] using
      hblocks.append_left (kept ((decodeHead name args true).eval e).1)

/-- A question is linked from its goals. -/
theorem question_linkedFrom (b : Body) (u : UnitInfo) (compiler constants : Nat) (s : Signature)
    (aux : List Clause) :
    let e : Emitter := { compiler, constants }
    Clause.LinkedFrom ⟨s, ((b.fragment u true).eval e).1.blocks, false, aux⟩
      ((b.goals u).eval e).1.text := by
  intro e
  obtain ⟨-, code, hbody, hpaths⟩ := (b.realised u compiler constants).1 s aux
  obtain ⟨hlaid, -, -⟩ := b.spelled u true e
  have hhead : Clause.block? ⟨s, ((b.fragment u true).eval e).1.blocks, false, aux⟩ headLabel = none := by
    rw [Clause.block?, List.lookup_eq_none_iff]
    intro block hblock
    obtain ⟨n, -, -, hlabel⟩ := hlaid.leaves block.1 (Fragment.mem_labels hblock)
    simpa [hlabel] using (leafLabel_ne_head n).symm
  refine ⟨⟨code, _, ?_, (hpaths _).2 rfl, fun q hq => ?_⟩, b.kept_fragment u true e⟩
  · rw [Clause.start?, hhead, Option.none_or, hbody]
  · obtain ⟨p, hp, rfl⟩ := List.mem_map.1 hq
    exact kept_spell_sublist hp

/-- A rule has one cell for each variable. -/
theorem rule_oneCell (hx : NamedVariable x) (name : String) (args : List Term) (b : Body) (u : UnitInfo)
    (compiler constants : Nat) :
    ((clauseOf name args (some (b.fragment u true))).eval { compiler, constants }).1.OneCell x :=
  (rule_linkedFrom name args b u compiler constants).oneCell hx
    ((decodeHead_tracked hx name args true _).append (b.goals_tracked hx u _))

/-! ## §5. Auxiliary clauses. -/

/-- The auxiliary clauses emitted so far have the property, and so have their own. -/
def Emitter.Auxiliaries (P : Clause → Prop) (e : Emitter) : Prop :=
  ∀ c ∈ Clause.descendantsOf e.auxiliaries, P c

/-- An emitter that is local adds no auxiliary clause. -/
theorem Emit.Local.keepsAuxiliaries {α : Type} {emit : Emit α} {P : Clause → Prop} (h : emit.Local)
    {e : Emitter} (he : e.Auxiliaries P) : (emit.eval e).2.Auxiliaries P := by
  rw [Emitter.Auxiliaries, (h e).2]
  exact he

/-- At the start there is none. -/
theorem Emitter.auxiliaries_start {P : Clause → Prop} (compiler constants : Nat) :
    Emitter.Auxiliaries P { compiler, constants } := by
  simp [Emitter.Auxiliaries, Clause.descendantsOf]

/-- The auxiliary clauses of a head with a body. -/
theorem clauseOf_auxiliaries {P : Clause → Prop} (name : String) (args : List Term)
    (body : Option (Emit Fragment)) {e : Emitter} (he : e.Auxiliaries P)
    (hbody : ∀ emit ∈ body, ∀ e : Emitter, e.Auxiliaries P → (emit.eval e).2.Auxiliaries P) :
    ∀ d ∈ ((clauseOf name args body).eval e).1.descendants, P d := by
  have hhead := (Emit.Local.decodeHead name args body.isSome).keepsAuxiliaries he
  cases body with
  | none =>
    simp only [clauseOf, eval_bind, eval_pure, eval_get, Clause.descendants_mk]
    exact hhead
  | some emit =>
    simp only [clauseOf, eval_bind, eval_pure, eval_get, Clause.descendants_mk]
    exact hbody emit rfl _ hhead

/-- **What holds of every head with a body holds of all auxiliary clauses of a body.** -/
theorem Body.fragment_auxiliaries {P : Clause → Prop}
    (hP : ∀ (name : String) (args : List Term) (b : Body) (u : UnitInfo) (compiler constants : Nat),
      P ((clauseOf name args (some (b.fragment u true))).eval { compiler, constants }).1)
    (b : Body) : ∀ (u : UnitInfo) (outermost : Bool) (e : Emitter), e.Auxiliaries P →
      ((b.fragment u outermost).eval e).2.Auxiliaries P := by
  induction b with
  | conj l r ihl ihr => exact fun u outermost e he => ihr u outermost _ (ihl u outermost e he)
  | disj l r ihl ihr => exact fun u outermost e he => ihr u false _ (ihl u false e he)
  | cut => exact fun u outermost e he => he
  | fail => exact fun u outermost e he => he
  | succeed => exact fun u outermost e he => he
  | call g =>
    intro u outermost e he
    exact (Emit.Local.callGoal u.isNative g false).keepsAuxiliaries (e := { e with leaves := _ }) he
  | negatedCall g =>
    intro u outermost e he
    exact (Emit.Local.callGoal u.isNative g true).keepsAuxiliaries (e := { e with leaves := _ }) he
  | negatedBody head body ih =>
    intro u outermost e he
    -- The auxiliary clause and its own come behind those before it.
    let emit : Emit Clause :=
      clauseOf head.name head.args (some (body.fragment { u with isQuery := false } true))
    let inner : Emitter := { compiler := e.compiler, constants := e.constants }
    have hdescendants : ∀ c ∈ (emit.eval inner).1.descendants, P c := by
      refine clauseOf_auxiliaries head.name head.args _ (Emitter.auxiliaries_start _ _) fun b' h' => ?_
      obtain rfl := Option.some.inj h'
      exact ih _ _
    refine (Emit.Local.callGoal u.isNative head true).keepsAuxiliaries
      (e := ((withAuxiliary emit).eval { e with leaves := e.leaves + 1 }).2) fun c hc => ?_
    have hsplit : Clause.descendantsOf
        ((withAuxiliary emit).eval { e with leaves := e.leaves + 1 }).2.auxiliaries =
        Clause.descendantsOf e.auxiliaries ++ Clause.descendantsOf [(emit.eval inner).1] :=
      Clause.descendantsOf_append _ _
    rw [hsplit, List.mem_append] at hc
    rcases hc with hc | hc
    · exact he c hc
    · simp only [Clause.descendantsOf, List.append_nil, List.mem_cons] at hc
      rcases hc with rfl | hc
      · exact hP _ _ _ _ _ _
      · exact hdescendants c hc
  | assign target value =>
    intro u outermost e he
    exact (Emit.Local.assignCode target value).keepsAuxiliaries (e := { e with leaves := _ }) he
  | evaluate value =>
    intro u outermost e he
    exact (Emit.Local.evalOperand value).keepsAuxiliaries (e := { e with leaves := _ }) he

/-! ## §6. The compiler. -/

namespace Compiler

/-- The clause or question that the compiler makes of a term. -/
def Accepts (c : Compiler) (t : Term) (clause : Clause) : Prop :=
  (c.clause t).1 = .ok clause ∨ (c.query t).1 = .ok clause

variable {c : Compiler} {t : Term} {clause d : Clause}

/-- A clause that is compiled, and its auxiliary clauses. -/
theorem clause_oneCell (hx : NamedVariable x) (h : (c.clause t).1 = .ok clause) :
    clause.OneCell x ∧ ∀ d ∈ clause.descendants, d.OneCell x := by
  obtain ⟨head, rule, name, args, -, -, ⟨-, rfl⟩ | ⟨body, b, -, -, rfl⟩⟩ := clause_eq_ok h
  · exact ⟨(fact_linkedFrom name args _).oneCell hx (decodeHead_tracked hx name args false _),
      clauseOf_auxiliaries name args none (Emitter.auxiliaries_start _ _) (by simp)⟩
  · refine ⟨rule_oneCell hx name args b _ _ _,
      clauseOf_auxiliaries name args _ (Emitter.auxiliaries_start _ _) fun emit hemit => ?_⟩
    obtain rfl := Option.some.inj hemit
    exact b.fragment_auxiliaries (rule_oneCell hx) _ true

theorem query_oneCell (hx : NamedVariable x) (h : (c.query t).1 = .ok clause) :
    clause.OneCell x ∧ ∀ d ∈ clause.descendants, d.OneCell x := by
  obtain ⟨b, -, rfl⟩ := query_eq_ok h
  refine ⟨(question_linkedFrom b _ _ _ _ _).oneCell hx (b.goals_tracked hx _ _), ?_⟩
  rw [Clause.descendants_mk]
  exact b.fragment_auxiliaries (P := (·.OneCell x)) (rule_oneCell hx) _ true _
    (Emitter.auxiliaries_start _ _)

/-- **One cell for each variable.**  In every clause or question that the compiler accepts, and in the
    auxiliary clauses made up for it, at most one instruction introduces a named variable, no way from
    the head or the body of the question to it passes another occurrence, and all occurrences on one
    way share the value that a machine has in its frame. -/
theorem one_cell (hx : NamedVariable x) (h : c.Accepts t clause)
    (hd : d = clause ∨ d ∈ clause.descendants) : d.OneCell x := by
  have hall : clause.OneCell x ∧ ∀ d ∈ clause.descendants, d.OneCell x :=
    h.elim (clause_oneCell hx) (query_oneCell hx)
  rcases hd with rfl | hd
  · exact hall.1
  · exact hall.2 d hd

/-- The clause `p(X) :- (q(X) ; r(X)), s(X).` has one cell for its variable. -/
theorem one_cell_disjunction :
    let call (name : String) : Term := .app name [.var "X" 1] .none 0
    let body : Term := .app "conj" [.app "disj" [call "q", call "r"] .none 0, call "s"] .none 0
    let t : Term := .app "rule" [call "p", body] .none 0
    ∃ clause, Accepts {} t clause ∧ ∀ d ∈ clause :: clause.descendants, d.OneCell "X" := by
  intro call body t
  have hx : NamedVariable "X" := ⟨by decide, by decide, by decide⟩
  obtain ⟨clause, hclause⟩ : ∃ clause, (Compiler.clause {} t).1 = .ok clause := ⟨_, rfl⟩
  exact ⟨clause, .inl hclause, fun d hd => one_cell hx (.inl hclause) (List.mem_cons.1 hd)⟩

end Compiler

end PrologMachine
