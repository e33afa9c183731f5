/-
  PrologMachine.Proofs.Session.Isolation ── **QUESTIONS DO NOT DISTURB EACH OTHER.**

  Several questions may be asked in one session, and their searches driven by turns.  Each search
  finds what it would find if its question were the only one.

    * `Renumbering.join`: the numbers of a question asked alone and asked among others; all that was
      numbered before stays as it is.
    * `Session.Since`: what questions leave unchanged since a session `s₀`.
    * `Since.bases`: a question asked alone and the same question asked among others find the same
      clauses, up to `join`.
    * `Dialogue`: questions and slices of their searches in any order; `Dialogue.tracked` follows
      each search beside the one that is alone, and `Dialogue.isolated` says what both find.
-/
import PrologMachine.Proofs.Renumbering.Run
import PrologMachine.Proofs.Session.Slices
import PrologMachine.Proofs.Session.Upkeep

namespace PrologMachine

/-! ## §1. The numbers of two compilations. -/

/-- The number belongs to `k` numbers from `n` on. -/
def Among (n k i : Nat) : Prop := n ≤ i ∧ i < n + k

/-- The numbers behind those of `c` and `c'` are paired.  All others below `limit` stay. -/
def Renumbering.join (limit c c' : Compiler) (as : List Nat) (k : Nat) : Renumbering where
  goals g g' :=
    (g' = g ∧ ∃ n, g.name = auxiliaryName n ∧ n ≤ limit.auxiliaries ∧
      ¬ Among (c.auxiliaries + 1) as.length n ∧ ¬ Among (c'.auxiliaries + 1) as.length n) ∨
    (g, g') ∈ (auxiliaryPredicates c.auxiliaries as).zip (auxiliaryPredicates c'.auxiliaries as)
  cells n n' :=
    (n' = n ∧ n < limit.constants ∧ ¬ Among c.constants k n ∧ ¬ Among c'.constants k n) ∨
    ∃ j, j < k ∧ n = c.constants + j ∧ n' = c'.constants + j
  auxiliary h := by
    rcases h with ⟨rfl, n, hname, -⟩ | h
    · exact ⟨hname ▸ isAuxiliary_auxiliaryName n, hname ▸ isAuxiliary_auxiliaryName n⟩
    · obtain ⟨j, a, -, rfl, rfl⟩ := mem_zip_auxiliaryPredicates h
      exact ⟨isAuxiliary_auxiliaryName _, isAuxiliary_auxiliaryName _⟩
  arity h := by
    rcases h with ⟨rfl, -⟩ | h
    · rfl
    · obtain ⟨j, a, -, rfl, rfl⟩ := mem_zip_auxiliaryPredicates h
      rfl
  names_inj h h' := by
    rcases h with ⟨rfl, n, hname, -, hn, hn'⟩ | h <;>
      rcases h' with ⟨rfl, i, hiname, -, hi, hi'⟩ | h'
    · rfl
    · obtain ⟨j, a, hj, rfl, rfl⟩ := mem_zip_auxiliaryPredicates h'
      rw [hname, auxiliaryName_inj, auxiliaryName_inj]
      unfold Among at hn hn'
      omega
    · obtain ⟨j, a, hj, rfl, rfl⟩ := mem_zip_auxiliaryPredicates h
      rw [hiname, auxiliaryName_inj, auxiliaryName_inj]
      unfold Among at hi hi'
      omega
    · obtain ⟨j, a, -, rfl, rfl⟩ := mem_zip_auxiliaryPredicates h
      obtain ⟨l, b, -, rfl, rfl⟩ := mem_zip_auxiliaryPredicates h'
      rw [auxiliaryName_inj, auxiliaryName_inj]
      omega
  cells_inj h h' := by
    unfold Among at h h'
    rcases h with ⟨rfl, h⟩ | ⟨j, hj, rfl, rfl⟩ <;> rcases h' with ⟨rfl, h'⟩ | ⟨l, hl, rfl, rfl⟩ <;>
      omega

namespace Renumbering

variable {c c' : Compiler} {as : List Nat} {k : Nat} {q q' : PrologMachine.Clause}

/-- **Counterparts have the same code.** -/
theorem join_clauses (limit : Compiler) (h : Counterparts c c' as k q q') :
    (join limit c c' as k).Clause q q' ∧
      (join limit c c' as k).Kin q.descendants q'.descendants := by
  obtain ⟨hq, hkin⟩ := h.clauses (join limit c c' as k) fun _ _ hg => .inr hg
  have hle : (join limit c c' as k).reach c.constants c'.constants k ≤ join limit c c' as k :=
    ⟨fun _ _ hg => hg, fun _ _ hn => .inr hn⟩
  exact ⟨hq.mono hle, hkin.mono hle⟩

end Renumbering

variable {I I₀ I₁ : Set Issue} {limit : Compiler} {e e₀ : Issue} {as : List Nat} {k : Nat}
  {g g' : Signature} {c : PrologMachine.Clause} {s s' s₀ s₁ : Session} {w : World}

/-- A clause that keeps to numbers which neither of the issues has stays as it is. -/
theorem Clause.Filed.join (htwins : e₀.Twins e as k) (h : c.Filed I limit g)
    (he₀ : e₀ ∈ I ∨ limit ≤ e₀.before) (he : e ∈ I ∨ limit ≤ e.before)
    (hg₀ : ∀ d ∈ e₀.clause.descendants, d.signature ≠ g)
    (hg : ∀ d ∈ e.clause.descendants, d.signature ≠ g) :
    (Renumbering.join limit e₀.before e.before as k).Clause c c := by
  cases h with
  | native hnative hcode => exact ⟨rfl, by rw [hcode]; exact .nil⟩
  -- The two questions have taken their numbers before or after the clause.
  | @compiled b a hcompiled hbetween hlimit hapart =>
    have hdisjoint : ∀ e' : Issue, e' ∈ I ∨ limit ≤ e'.before →
        (∀ d ∈ e'.clause.descendants, d.signature ≠ g) → a ≤ e'.before ∨ e'.after ≤ b := by
      intro e' he' hg'
      rcases he' with he' | he'
      · rcases hapart e' he' with hle | hle | ⟨d, hd, heq⟩
        · exact .inl hle
        · exact .inr hle
        · exact (hg' d hd heq).elim
      · exact .inl (hlimit.trans he')
    have hfirst := hdisjoint e₀ he₀ hg₀
    have hsecond := hdisjoint e he hg
    rw [htwins.left] at hfirst
    rw [htwins.right] at hsecond
    -- No number of the clause is one of theirs, so that the join keeps all of them.
    refine hbetween _ (fun g' n hname hlo hhi => .inl ⟨rfl, n, hname, hhi.trans hlimit.1, ?_, ?_⟩)
      fun n hlo hhi => .inl ⟨rfl, hhi.trans_le hlimit.2, ?_, ?_⟩
    · rintro ⟨h₁, h₂⟩
      rcases hfirst with hle | hle
      · have := hle.1
        omega
      · have : e₀.before.auxiliaries + as.length ≤ b.auxiliaries := hle.1
        omega
    · rintro ⟨h₁, h₂⟩
      rcases hsecond with hle | hle
      · have := hle.1
        omega
      · have : e.before.auxiliaries + as.length ≤ b.auxiliaries := hle.1
        omega
    · rintro ⟨h₁, h₂⟩
      rcases hfirst with hle | hle
      · have := hle.2
        omega
      · have : e₀.before.constants + k ≤ b.constants := hle.2
        omega
    · rintro ⟨h₁, h₂⟩
      rcases hsecond with hle | hle
      · have := hle.2
        omega
      · have : e.before.constants + k ≤ b.constants := hle.2
        omega

/-! ## §2. What questions leave unchanged. -/

/-- The predicate was there before any number from `limit` on was used up. -/
def Signature.Before (limit : Compiler) (g : Signature) : Prop :=
  ∀ n, g.name = auxiliaryName n → n ≤ limit.auxiliaries

/-- **The session has only been asked questions since it was `s₀`.** -/
structure Session.Since (I₀ : Set Issue) (s₀ : Session) (I : Set Issue) (s : Session) : Prop where
  /-- It is in order. -/
  inOrder : s.InOrder I
  /-- It works in the same way. -/
  options : s.options = s₀.options
  /-- It has the same native predicates. -/
  natives : s.natives = s₀.natives
  /-- Numbers were used up. -/
  le : s₀.compiler ≤ s.compiler
  /-- The compiler is the same otherwise. -/
  akin : s₀.compiler.Akin s.compiler
  /-- Questions were issued. -/
  issued : ∀ e ∈ I, e ∈ I₀ ∨ s₀.compiler ≤ e.before
  /-- The builtin clauses are the same. -/
  builtin : s.base.builtin = s₀.base.builtin
  /-- So are those of the user, but for the query and new auxiliary clauses. -/
  user : ∀ g, g ≠ querySignature → g.Before s₀.compiler →
    s.base.user.clauses g = s₀.base.user.clauses g

namespace Session.Since

theorem refl (h : s₀.InOrder I₀) : Since I₀ s₀ I₀ s₀ :=
  ⟨h, rfl, rfl, le_rfl, h.akin_self, fun _ he => .inl he, rfl, fun _ _ _ => rfl⟩

/-- A search takes what it has written to the transcript. -/
theorem search {α : Type} (h : Since I₀ s₀ I s) (q : Solutions)
    (f : World → Solutions → α × Solutions) : Since I₀ s₀ I (s.search q f).2.2 :=
  { h with inOrder := h.inOrder.transcript _ }

/-- **A question is asked.** -/
theorem posed (h₀ : s₀.InOrder I₀) (h : Since I₀ s₀ I s) (he : e ∈ I ∨ s.compiler ≤ e.before)
    (hs' : s'.InOrder (I ∪ {e})) (hleaves : s.Leaves (s.base.posed e.clause) s') :
    Since I₀ s₀ (I ∪ {e}) s' := by
  have hissued : e ∈ I₀ ∨ s₀.compiler ≤ e.before := by
    rcases he with he | he
    · exact h.issued e he
    · exact .inr (h.le.trans he)
  refine ⟨hs', hleaves.options.trans h.options, hleaves.natives.trans h.natives,
    h.le.trans hleaves.le, h.akin.trans hleaves.akin, ?_, ?_, fun g hg hbefore => ?_⟩
  · rintro e' (he' | rfl)
    · exact h.issued e' he'
    · exact hissued
  · rw [hleaves.base]
    exact h.builtin
  · rw [hleaves.base]
    -- A signature of the question is installed in both knowledge bases, and any other is as before.
    by_cases hmem : ∃ d ∈ e.clause.descendants, d.signature = g
    · obtain ⟨d, hd, rfl⟩ := hmem
      rcases hissued with he₀ | he₀
      · rw [h.inOrder.clauses_posed he (.inr rfl) hd, h₀.installed e he₀ d hd]
      · obtain ⟨-, -, -, n, hname, hn, -⟩ := e.made.parts d hd
        have := hbefore n hname
        have := he₀.1
        omega
    · push Not at hmem
      exact (ClauseStore.clauses_install_of_ne hg hmem).trans (h.user g hg hbefore)

/-- A question is refused. -/
theorem kept (h : Since I₀ s₀ I s) (hs' : s'.InOrder I) (hleaves : s.Leaves s.base s') :
    Since I₀ s₀ I s' where
  inOrder := hs'
  options := hleaves.options.trans h.options
  natives := hleaves.natives.trans h.natives
  le := h.le.trans hleaves.le
  akin := h.akin.trans hleaves.akin
  issued := h.issued
  builtin := hleaves.base ▸ h.builtin
  user := hleaves.base ▸ h.user

end Session.Since

/-! ## §3. The same clauses. -/

/-- Where the user and the builtin clauses agree, calls find the same. -/
theorem KnowledgeBase.get_congr {kb kb' : KnowledgeBase}
    (huser : kb'.user.clauses g = kb.user.clauses g) (hbuiltin : kb'.builtin = kb.builtin) :
    kb'.get g = kb.get g := by rw [get_eq, get_eq, huser, hbuiltin]

/-- The clauses that are found stand in one of the stores. -/
theorem KnowledgeBase.mem_of_get {kb : KnowledgeBase} {cs : List Clause} (h : kb.get g = .ok cs)
    (hc : c ∈ cs) : c ∈ kb.user.clauses g ∨ c ∈ kb.builtin.clauses g := by
  rw [get_eq] at h
  split at h
  · obtain rfl := Except.ok.inj h
    exact .inl hc
  split at h
  · obtain rfl := Except.ok.inj h
    exact .inr hc
  · cases h

/-- The only clause of a predicate of the user is found. -/
theorem KnowledgeBase.get_single {kb : KnowledgeBase} (h : kb.user.clauses g = [c]) :
    kb.get g = .ok [c] := by simp [get_eq, h]

namespace Session.Since

open Renumbering

variable {ρ : Renumbering}

/-- A predicate that was there before, other than the auxiliary ones of the question, has the same
    clauses. -/
theorem finds_same (h₀ : s₀.InOrder I₀) (h₁ : Since I₀ s₀ I₁ s₁) (h : Since I₀ s₀ I s)
    (he₀ : e₀ ∈ I₁) (he : e ∈ I) (htwins : e₀.Twins e as k) (hquery : g ≠ querySignature)
    (hbefore : g.Before s₀.compiler) (hg₀ : ∀ d ∈ e₀.clause.descendants, d.signature ≠ g)
    (hg : ∀ d ∈ e.clause.descendants, d.signature ≠ g) :
    (join s₀.compiler e₀.before e.before as k).Finds s₁.base s.base g g := by
  have hleft := KnowledgeBase.get_congr (h₁.user g hquery hbefore) h₁.builtin
  have hright := KnowledgeBase.get_congr (h.user g hquery hbefore) h.builtin
  cases hget : s₀.base.get g with
  | error err => exact .unknown (hleft.trans hget) (hright.trans hget)
  | ok cs =>
    refine .known (hleft.trans hget) (hright.trans hget) (List.forall₂_same.2 fun c hc => ?_)
      fun _ _ _ => rfl
    have hfiled : c.Filed I₀ s₀.compiler g := by
      rcases KnowledgeBase.mem_of_get hget hc with hc | hc
      · exact h₀.user g hquery c hc
      · exact h₀.builtin g hquery c hc
    exact hfiled.join htwins (h₁.issued e₀ he₀) (h.issued e he) hg₀ hg

/-- The auxiliary predicates of the question have the same clauses up to renumbering. -/
theorem finds_auxiliary (h₁ : Since I₀ s₀ I₁ s₁) (h : Since I₀ s₀ I s) (he₀ : e₀ ∈ I₁) (he : e ∈ I)
    (htwins : e₀.Twins e as k) (hg : (g, g') ∈ (auxiliaryPredicates e₀.before.auxiliaries as).zip
      (auxiliaryPredicates e.before.auxiliaries as)) :
    (join s₀.compiler e₀.before e.before as k).Finds s₁.base s.base g g' := by
  rw [← htwins.counterparts.left, ← htwins.counterparts.right, List.zip_map, List.mem_map] at hg
  obtain ⟨⟨d₀, d⟩, hmem, hsig⟩ := hg
  obtain ⟨rfl, rfl⟩ := Prod.mk.inj hsig
  obtain ⟨hd₀, hd⟩ := List.of_mem_zip hmem
  have hclause := ((List.forall₂_iff_zip.1
    (join_clauses s₀.compiler htwins.counterparts).2).2 hmem).1
  refine .known (KnowledgeBase.get_single (h₁.inOrder.installed e₀ he₀ d₀ hd₀))
    (KnowledgeBase.get_single (h.inOrder.installed e he d hd)) (.cons hclause .nil) ?_
  intro c hc hnative
  obtain rfl := List.mem_singleton.1 hc
  rw [(e₀.sound.2 c hd₀).1.native] at hnative
  cases hnative

/-- **The question finds the same clauses alone and among others**, up to renumbering. -/
theorem bases (h₀ : s₀.InOrder I₀) (h₁ : Since I₀ s₀ I₁ s₁) (h : Since I₀ s₀ I s) (he₀ : e₀ ∈ I₁)
    (he : e ∈ I) (htwins : e₀.Twins e as k) :
    (join s₀.compiler e₀.before e.before as k).Bases s₁.base s.base := by
  have hparts : ∀ {e' : Issue} {g : Signature} {n : Nat}, g.name = auxiliaryName n →
      e'.after = e'.before.after as.length k → ¬ Among (e'.before.auxiliaries + 1) as.length n →
      ∀ d ∈ e'.clause.descendants, d.signature ≠ g := by
    intro e' g n hname hafter hn d hd heq
    obtain ⟨-, -, -, i, hi, hlo, hhi⟩ := e'.made.parts d hd
    have hin : n = i := auxiliaryName_inj.1 (hname.symm.trans (heq ▸ hi))
    rw [hafter] at hhi
    have hhi' : i ≤ e'.before.auxiliaries + as.length := hhi
    exact hn ⟨by omega, by omega⟩
  -- A goal keeps its name or is an auxiliary of one of the two questions.
  intro g g' hquery hgoal
  rcases hgoal with ⟨hplain, rfl⟩ | ⟨rfl, n, hname, hle, hn₀, hn⟩ | hzip
  · have hnone : ∀ (e' : Issue), ∀ d ∈ e'.clause.descendants, d.signature ≠ g' := by
      intro e' d hd heq
      rw [← heq, e'.made.reserved hd] at hplain
      cases hplain
    refine finds_same h₀ h₁ h he₀ he htwins hquery (fun n hname => ?_) (hnone e₀) (hnone e)
    rw [hname, isAuxiliary_auxiliaryName] at hplain
    cases hplain
  · refine finds_same h₀ h₁ h he₀ he htwins hquery (fun i hi => ?_)
      (hparts hname htwins.left hn₀) (hparts hname htwins.right hn)
    obtain rfl := auxiliaryName_inj.1 (hi.symm.trans hname)
    exact hle
  · exact finds_auxiliary h₁ h he₀ he htwins hzip

/-- What the machines of both sessions work with. -/
theorem worlds (h₁ : Since I₀ s₀ I₁ s₁) (h : Since I₀ s₀ I s) : Worlds s₁.world s.world where
  natives := h.natives.trans h₁.natives.symm
  dependsOnArguments := h₁.inOrder.dependsOnArguments
  maxSteps := by simp only [world, h.options, h₁.options]
  unknownFails := by simp only [world, h.options, h₁.options]
  complaint := rfl

end Session.Since

/-- Clauses that are filed are native or compiled. -/
theorem ClauseStore.Filed.hosts {db : ClauseStore} (h : db.Filed I limit) : db.Hosts notQuery := by
  intro g hg c hc
  cases h g hg c hc with
  | native hnative => exact .inl hnative
  | compiled hcompiled => exact .inr hcompiled

/-- **A question that has just been asked meets what its run needs.** -/
theorem Session.InOrder.hosting (h : s.InOrder I) {kb : KnowledgeBase}
    (hbase : s.base = kb.posed e.clause) :
    Renumbering.Hosting notQuery s.world e.clause := by
  have hhosts : s.base.Hosts notQuery := ⟨h.user.hosts, h.builtin.hosts⟩
  obtain ⟨⟨hsound, hnative, hhead, hstart⟩, haux⟩ := e.sound
  have hget : s.base.get querySignature = .ok [e.clause] := by
    rw [hbase]
    exact KnowledgeBase.get_single
      (ClauseStore.clauses_install_base fun d hd => (haux d hd).2)
  exact
    { base := hhosts
      grows := fun b hb => (h.dependsOnArguments b hb).grows
      setting := hhosts.setting hsound hstart hhead hnative hget
      query := by simp [notQuery] }

/-! ## §4. Two machines with one question. -/

namespace Renumbering

variable {ρ : Renumbering} {q q' : PrologMachine.Clause}

/-- No structure was made yet. -/
def noKinds : Kinds := ⟨∅, ∅⟩

/-- **New machines that are asked the same question.** -/
theorem machines_posed (h : ρ.Clause q q') :
    ρ.Machines noKinds (({} : Machine).posed q) (({} : Machine).posed q') := by
  have hheap : ρ.Heaps noKinds ({} : Machine).heap ({} : Machine).heap :=
    { vars := rfl
      var := fun _ => ⟨rfl, rfl, .none⟩
      structs := rfl
      struct := fun _ => ⟨.nil, rfl⟩
      data := fun _ h => h.elim
      goal := fun _ h => h.elim
      exist := fun _ h => (h.elim id id).elim
      constants := rfl
      numbered := rfl }
  have hframes : ∀ f, ρ.Frames noKinds ((({} : Machine).posed q).frame f)
      ((({} : Machine).posed q').frame f) := by
    intro f
    rw [Machine.frame_posed, Machine.frame_posed]
    exact .empty _ _
  exact ⟨hheap, rfl, .some h, rfl, rfl, rfl, rfl, rfl, rfl, rfl, rfl, rfl, hframes, rfl, rfl, rfl,
    rfl, rfl, rfl, rfl⟩

/-- Searches that begin together. -/
theorem searches_posed (h : ρ.Clause q q') {admits : Signature → Bool}
    (hq : Hosting admits w q) : ρ.Searches admits w q { machine := ({} : Machine).posed q }
      { machine := ({} : Machine).posed q' } :=
  ⟨⟨noKinds, machines_posed h⟩,
    .inl (Machine.posed_orderly hq.setting (Heap.good_empty 0 0)), rfl, rfl, rfl, nofun⟩

open Solutions

variable {admits : Signature → Bool} {w' : World} {p p' p₁ : Solutions} {x : Slice} {t : Snapshot}

/-- **What a slice gives of one search, it gives of the other.** -/
theorem Searches.gives (h : ρ.Searches admits w q p p') (hw : Worlds w w')
    (hb : ρ.Bases w.base w'.base) (hq : Hosting admits w q) :
    (∀ {p₁'}, Gives w' x p' t p₁' → ∃ p₁, Gives w x p t p₁ ∧ ρ.Searches admits w q p₁ p₁') ∧
      ∀ {p₁}, Gives w x p t p₁ → ∃ p₁', Gives w' x p' t p₁' := by
  have hrun := fun n => h.run hw hb hq x.canceled n
  unfold Gives
  split
  · refine ⟨fun ⟨n, hn, hs⟩ => ?_, fun ⟨n, hn, hs⟩ => ?_⟩
    · obtain ⟨hsame, hafter⟩ := hrun n
      rw [hn] at hsame hafter
      exact ⟨(p.run w x.canceled n).2, ⟨n, Prod.ext hsame.symm rfl, hs⟩, hafter⟩
    · obtain ⟨hsame, -⟩ := hrun n
      rw [hn] at hsame
      exact ⟨(p'.run w' x.canceled n).2, n, Prod.ext hsame rfl, hs⟩
  · obtain ⟨hsame, hafter⟩ := hrun x.budget
    refine ⟨fun hn => ?_, fun hn => ?_⟩
    · rw [hn] at hsame hafter
      exact ⟨(p.run w x.canceled x.budget).2, Prod.ext hsame.symm rfl, hafter⟩
    · rw [hn] at hsame
      exact ⟨(p'.run w' x.canceled x.budget).2, Prod.ext hsame rfl⟩

end Renumbering

/-! ## §5. Dialogues. -/

open Solutions

/-- A question of a dialogue: its text, the slices in which its search was driven, what they
    reported, and the search, or why there is none. -/
structure Inquiry where
  /-- The text. -/
  source : String
  /-- The slices. -/
  slices : List Slice := []
  /-- What they reported. -/
  snapshots : List Snapshot := []
  /-- The search. -/
  search : Except Error Solutions

/-- The answers that were found. -/
def Inquiry.answers (i : Inquiry) : List Solution := (tally 0 i.snapshots).map Prod.fst

/-- **Questions asked of a session**, and slices of their searches, in any order. -/
inductive Dialogue (s₀ : Session) : Session → List Inquiry → Prop where
  /-- Nothing was asked. -/
  | opened : Dialogue s₀ s₀ []
  /-- A question is asked. -/
  | asked {s : Session} {is : List Inquiry} (h : Dialogue s₀ s is) (source : String)
    (hsource : Session.OrdinaryQuestion source) :
    Dialogue s₀ (s.query source).2 (is ++ [{ source, search := (s.query source).1 }])
  /-- A search is driven by one slice. -/
  | driven {s : Session} {is : List Inquiry} (h : Dialogue s₀ s is) {n : Nat} {i : Inquiry}
    (hi : is[n]? = some i) {q q' : Solutions} (hq : i.search = .ok q) {x : Slice} {t : Snapshot}
    (hx : Gives s.world x q t q') :
    Dialogue s₀ (s.search q fun _ _ => (t, q')).2.2 (is.set n { i with
      slices := i.slices ++ [x], snapshots := i.snapshots ++ [t]
      search := .ok (s.search q fun _ _ => (t, q')).2.1 })

/-- **The search finds what it would find alone**: if the question of `i` is the only one that the
    session `s₀` is asked, it is refused in the same way, or the same slices report the same and
    will report the same.  So the answers are the first answers of the search that is alone, and
    when it has ended, they are all answers and the error is that of the search that is alone. -/
inductive Inquiry.Alone (s₀ : Session) (w : World) (i : Inquiry) : Prop where
  /-- The question is refused. -/
  | refused {e : Error} (hsearch : i.search = .error e) (halone : (s₀.query i.source).1 = .error e)
  /-- The question has a search. -/
  | searched {s₁ : Session} {q q₀ q₁ : Solutions} (hsearch : i.search = .ok q)
    (halone : s₀.query i.source = (.ok q₀, s₁))
    (hdrives : Drives s₁.world q₀ i.slices i.snapshots q₁)
    (hnext : ∀ x t, (∃ q', Gives w x q t q') ↔ ∃ q', Gives s₁.world x q₁ t q')
    (hanswers : ∃ patience,
      (q₀.upTo s₁.world false patience i.answers.length).1 = i.answers)
    (hover : ∀ t ∈ i.snapshots, t.status = .exhausted → ∃ patience n q',
      q₀.upTo s₁.world false patience n = (i.answers, t.error, q') ∧ q'.done = true)

/-- A search of a dialogue and the one that is alone. -/
inductive Inquiry.Tracked (I₀ : Set Issue) (s₀ : Session) (I : Set Issue) (i : Inquiry) : Prop where
  /-- The question is refused. -/
  | refused {err : Error} (hsearch : i.search = .error err)
    (halone : (s₀.query i.source).1 = .error err)
  /-- The question was issued, and its search has come equally far. -/
  | searched {e₀ e : Issue} {s₁ : Session} {I₁ : Set Issue} {q q₁ : Solutions} {as : List Nat}
    {k : Nat} (hsearch : i.search = .ok q)
    (halone : s₀.query i.source = (.ok { machine := ({} : Machine).posed e₀.clause }, s₁))
    (hsince : Session.Since I₀ s₀ I₁ s₁) (hbase : s₁.base = s₀.base.posed e₀.clause)
    (he₀ : e₀ ∈ I₁) (he : e ∈ I) (htwins : e₀.Twins e as k)
    (hdrives : Drives s₁.world { machine := ({} : Machine).posed e₀.clause } i.slices
      i.snapshots q₁)
    (hsearches : (Renumbering.join s₀.compiler e₀.before e.before as k).Searches notQuery s₁.world
      e₀.clause q₁ q)

namespace Inquiry.Tracked

variable {i : Inquiry} {I' : Set Issue} {source : String}

theorem mono (hI : I ⊆ I') (h : i.Tracked I₀ s₀ I) : i.Tracked I₀ s₀ I' := by
  cases h with
  | refused hsearch halone => exact .refused hsearch halone
  | searched hsearch halone hsince hbase he₀ he htwins hdrives hsearches =>
    exact .searched hsearch halone hsince hbase he₀ (hI he) htwins hdrives hsearches

/-- **A question is asked**, and beside it alone. -/
theorem ask (h₀ : s₀.InOrder I₀) (h : Session.Since I₀ s₀ I s)
    (hsource : Session.OrdinaryQuestion source) : ∃ I', I ⊆ I' ∧
      Session.Since I₀ s₀ I' (s.query source).2 ∧
      ({ source, search := (s.query source).1 } : Inquiry).Tracked I₀ s₀ I' := by
  have halone := h₀.query hsource
  have hasked := h.inOrder.query hsource
  generalize hr₀ : s₀.query source = r₀ at halone
  generalize s.query source = r at hasked ⊢
  -- The question is read and compiled alone just as in the session.
  cases hasked with
  | @asked e hread hfrom he s' hs' hleaves =>
    refine ⟨I ∪ {e}, Set.subset_union_left, h.posed h₀ he hs' hleaves, ?_⟩
    have hakin : e.before.Akin s₀.compiler := hfrom.trans h.akin.symm
    cases halone with
    | @asked e₀ hread₀ hfrom₀ he₀ s₁ hs₁ hleaves₁ =>
      have hterm : e.term = e₀.term := Except.ok.inj (hread.symm.trans hread₀)
      obtain ⟨as, k, htwins⟩ := Issue.exists_twins (hfrom₀.trans hakin.symm) hterm
      have hclause := (Renumbering.join_clauses s₀.compiler htwins.counterparts).1
      exact .searched rfl hr₀ ((Session.Since.refl h₀).posed h₀ he₀ hs₁ hleaves₁) hleaves₁.base
        (.inr rfl) (.inr rfl) htwins (.nil _)
        (Renumbering.searches_posed hclause (hs₁.hosting hleaves₁.base))
    | unread hread₀ => rw [hread] at hread₀; cases hread₀
    | @refused t err hread₀ hquery =>
      obtain rfl : e.term = t := Except.ok.inj (hread.symm.trans hread₀)
      have hsame := Compiler.query_error_of_akin hakin.symm e.proper e.ordinary hquery
      rw [e.fst_query] at hsame
      cases hsame
  | unread hread hs' hleaves =>
    refine ⟨I, subset_rfl, h.kept hs' hleaves, ?_⟩
    cases halone with
    | asked hread₀ => rw [hread] at hread₀; cases hread₀
    | unread hread₀ =>
      obtain rfl := Except.error.inj (hread.symm.trans hread₀)
      exact .refused rfl (congrArg Prod.fst hr₀)
    | refused hread₀ => rw [hread] at hread₀; cases hread₀
  | @refused t err hread hquery s' hs' hleaves =>
    refine ⟨I, subset_rfl, h.kept hs' hleaves, ?_⟩
    have hproper := readClause_proper hread
    have hordinary := hsource t hread
    cases halone with
    | @asked e₀ hread₀ hfrom₀ =>
      obtain rfl : e₀.term = t := Except.ok.inj (hread₀.symm.trans hread)
      have hsame := Compiler.query_error_of_akin (h.akin.symm.trans hfrom₀.symm) e₀.proper
        e₀.ordinary hquery
      rw [e₀.fst_query] at hsame
      cases hsame
    | unread hread₀ => rw [hread] at hread₀; cases hread₀
    | @refused t₀ err₀ hread₀ hquery₀ =>
      obtain rfl : t = t₀ := Except.ok.inj (hread.symm.trans hread₀)
      have hsame := Compiler.query_error_of_akin h.akin.symm hproper hordinary hquery
      obtain rfl := Except.error.inj (hquery₀.symm.trans hsame)
      exact .refused rfl (congrArg Prod.fst hr₀)

/-- **The search is driven by one slice**, and beside it the one that is alone. -/
theorem drive (h₀ : s₀.InOrder I₀) (h : Session.Since I₀ s₀ I s) (hi : i.Tracked I₀ s₀ I)
    {q q' : Solutions} (hq : i.search = .ok q) {x : Slice} {t : Snapshot}
    (hx : Gives s.world x q t q') :
    ({ i with
      slices := i.slices ++ [x], snapshots := i.snapshots ++ [t]
      search := .ok (s.search q fun _ _ => (t, q')).2.1 } : Inquiry).Tracked I₀ s₀ I := by
  cases hi with
  | refused hsearch => rw [hq] at hsearch; cases hsearch
  | searched hsearch halone hsince hbase he₀ he htwins hdrives hsearches =>
    obtain rfl := Except.ok.inj (hq.symm.trans hsearch)
    obtain ⟨q₁, hgives, hafter⟩ := (hsearches.gives (hsince.worlds h)
      (hsince.bases h₀ h he₀ he htwins) (hsince.inOrder.hosting hbase)).1 hx
    exact .searched rfl halone hsince hbase he₀ he htwins (hdrives.append (.cons hgives (.nil _)))
      hafter.drain

/-- **What is tracked is found alone.** -/
theorem alone (h₀ : s₀.InOrder I₀) (h : Session.Since I₀ s₀ I s) (hi : i.Tracked I₀ s₀ I) :
    i.Alone s₀ s.world := by
  cases hi with
  | refused hsearch halone => exact .refused hsearch halone
  | @searched e₀ e s₁ I₁ q q₁ as k hsearch halone hsince hbase he₀ he htwins hdrives hsearches =>
    have hcoherent : Coherent { machine := ({} : Machine).posed e₀.clause } :=
      ⟨rfl, fun _ herror => by cases herror⟩
    have hgives := fun x t => hsearches.gives (x := x) (t := t) (hsince.worlds h)
      (hsince.bases h₀ h he₀ he htwins) (hsince.inOrder.hosting hbase)
    refine .searched hsearch halone hdrives (fun x t => ⟨?_, ?_⟩) ?_ fun t ht hstatus => ?_
    · rintro ⟨q', hq'⟩
      obtain ⟨q₁', hq₁', -⟩ := (hgives x t).1 hq'
      exact ⟨q₁', hq₁'⟩
    · rintro ⟨q₁', hq₁'⟩
      exact (hgives x t).2 hq₁'
    · obtain ⟨q₂, hfinds⟩ := hdrives.finds hcoherent (Behind.refl s₁.world _)
      exact (exists_finds_iff_upTo hcoherent i.answers).1 ⟨_, q₂, rfl, hfinds⟩
    · obtain ⟨before, after, hss⟩ := List.append_of_mem ht
      have hexhausts := (hdrives.exhausts hcoherent (Behind.refl s₁.world _) hss hstatus).1
      exact (exists_exhausts_iff_upTo hcoherent rfl i.answers t.error).1 ⟨_, rfl, hexhausts⟩

end Inquiry.Tracked

/-- **A dialogue keeps track of all its searches.** -/
theorem Dialogue.tracked (h₀ : s₀.InOrder I₀) {is : List Inquiry} (h : Dialogue s₀ s is) :
    ∃ I, Session.Since I₀ s₀ I s ∧ ∀ i ∈ is, i.Tracked I₀ s₀ I := by
  induction h with
  | opened => exact ⟨I₀, .refl h₀, by simp⟩
  | asked _ source hsource ih =>
    obtain ⟨I, hsince, his⟩ := ih
    obtain ⟨I', hI, hsince', hi⟩ := Inquiry.Tracked.ask h₀ hsince hsource
    refine ⟨I', hsince', fun j hj => ?_⟩
    rcases List.mem_append.1 hj with hj | hj
    · exact (his j hj).mono hI
    · obtain rfl := List.mem_singleton.1 hj
      exact hi
  | driven _ hi hq hx ih =>
    obtain ⟨I, hsince, his⟩ := ih
    refine ⟨I, hsince.search _ _, fun j hj => ?_⟩
    rcases List.mem_or_eq_of_mem_set hj with hj | rfl
    · exact his j hj
    · exact (his _ (List.mem_of_getElem? hi)).drive h₀ hsince hq hx

/-- **QUESTIONS ARE ISOLATED.**  In every session that programs and questions can bring about, and
    for every dialogue in it, each search finds what it would find if its question were the only one
    that is asked; no text names a reserved predicate, the native predicates depend on their
    arguments only, and no other session fills the cache. -/
theorem Dialogue.isolated {options : SessionOptions} (hoptions : options.Ordinary)
    (h₀ : Session.Reachable options s₀) {is : List Inquiry} (h : Dialogue s₀ s is) :
    ∀ i ∈ is, i.Alone s₀ s.world := by
  obtain ⟨I₀, hI₀⟩ := h₀.exists_inOrder hoptions
  obtain ⟨I, hsince, his⟩ := h.tracked hI₀
  exact fun i hi => (his i hi).alone hI₀ hsince

/-! ## §6. Two negations by turns. -/

/-- The auxiliary clause number `n`, with one instruction as its body. -/
def denied (n : Nat) (body : Opcode) : Clause :=
  ⟨⟨auxiliaryName n, 0⟩,
    [(headLabel, [{ op := .getStruct, functor := auxiliaryName n, register := "$x0" },
      { op := .jump, label := bodyLabel }]), (bodyLabel, [{ op := body }])], false, []⟩

/-- The question whether it fails. -/
def denial (n : Nat) (body : Opcode) : Clause :=
  ⟨querySignature, [(bodyLabel, [{ op := .allocate },
    { op := .putStruct, functor := auxiliaryName n, register := "$x0" }, { op := .setup },
    { op := .call }, { op := .maybeRetryN }, { op := .deallocate }, { op := .end_ }])], false,
    [denied n body]⟩

/-- A session that was opened, with its builtin clauses and its transcript. -/
def opened (builtin : ClauseStore) (t : Transcript) : Session :=
  { options := { patience := 100 }, natives := Registry.core, base := { builtin }
    compiler := { natives := Registry.core.signatures }, cache := none, transcript := t }

/-- A session without libraries starts. -/
theorem exists_opened : ∃ b t, Session.start { patience := 100 } = (none, opened b t) := by
  let kb := (({} : KnowledgeBase).installNatives Registry.core).1
  have hkb : ({ builtin := kb.builtin } : KnowledgeBase) = kb := by
    rw [← show kb.user = {} from KnowledgeBase.installNatives_user _ _]
  obtain ⟨t, ht⟩ := Session.exists_foldl_logDebug
    (({} : KnowledgeBase).installNatives Registry.core).2 (opened kb.builtin {})
  refine ⟨kb.builtin, t, Prod.ext rfl (Eq.trans ?_ ht)⟩
  unfold opened
  rw [hkb]
  rfl

/-- The term of the question whether a control atom fails. -/
def denying (atom : String) : Term := .app "not" [.const (.atom atom) 2] .none 0

section

variable {atom source : String}
  (hread : readClause {} (Session.questionText source) 0 = .ok (denying atom))

include hread

/-- A question that denies an unreserved atom is ordinary. -/
theorem ordinaryQuestion_denial (hatom : ¬ Reserved ⟨atom, 0⟩) :
    Session.OrdinaryQuestion source := by
  intro t ht g hg
  obtain rfl := Except.ok.inj (hread.symm.trans ht)
  obtain rfl := List.mem_singleton.1 hg
  exact hatom

/-- Such a question gets one auxiliary, numbered next. -/
theorem query_denial (n : Nat) (body : Opcode) (hcache : s.cache = none)
    (hdebug : s.options.debug = false) (hquery : s.compiler.query (denying atom) =
      (.ok (denial n body), { s.compiler with auxiliaries := n })) :
    s.query source = (.ok { machine := ({} : Machine).posed (denial n body) },
      { s with
        base := s.base.posed (denial n body)
        compiler := { s.compiler with auxiliaries := n } }) := by
  have hset : ∀ kb : KnowledgeBase,
      kb.setQuery (some (denial n body)) = (none, kb.posed (denial n body)) := by
    intro kb
    have haccepted : ClauseStore.Storable (denial n body).descendants := by
      simp [ClauseStore.Storable, denial, denied, Clause.descendants_mk, Clause.descendantsOf,
        auxiliaryName_ne_empty]
    simp only [KnowledgeBase.setQuery]
    rw [if_neg (by simp [denial, Clause.isQuery, Clause.block?, bodyLabel, headLabel,
      querySignature]), ClauseStore.replaceAll_accepted haccepted]
    rfl
  simp only [Session.query, Session.compiledQuestion, hcache, Session.compileQuestion_ok hread,
    Session.compileWith_ok (·.query _) hquery, Session.solutions, Machine.ask, hset, hdebug]
  rfl

end

/-- The first search has come to a pause when the second question is asked; that one fails, and then
    the first one finds its answer. -/
theorem isolated_denials : ∃ (s₀ s : Session) (is : List Inquiry),
    Session.Reachable { patience := 100 } s₀ ∧ Dialogue s₀ s is ∧
    is.map Inquiry.snapshots = [[⟨.paused, 1, none, none⟩, ⟨.answer, 9, some ⟨[]⟩, none⟩],
      [⟨.exhausted, 10, none, none⟩]] ∧
    ∀ i ∈ is, i.Alone s₀ s.world := by
  obtain ⟨b, t, hopened⟩ := exists_opened
  have hread₁ : readClause {} (Session.questionText "\\+fail") 0 = .ok (denying "fail") := by
    with_unfolding_all rfl
  have hread₂ : readClause {} (Session.questionText "\\+true") 0 = .ok (denying "true") := by
    with_unfolding_all rfl
  have hordinary₁ := ordinaryQuestion_denial hread₁ (by
    simp [Reserved, querySignature, queryFunctor, isAuxiliary, auxiliaryLead])
  have hordinary₂ := ordinaryQuestion_denial hread₂ (by
    simp [Reserved, querySignature, queryFunctor, isAuxiliary, auxiliaryLead])
  let q₁ : Solutions := { machine := ({} : Machine).posed (denial 1 .fail) }
  let q₂ : Solutions := { machine := ({} : Machine).posed (denial 2 .proceed) }
  -- The first question is asked and left after one step.
  let s₁ : Session := { opened b t with
    base := (opened b t).base.posed (denial 1 .fail)
    compiler := { (opened b t).compiler with auxiliaries := 1 } }
  -- The second one is asked and runs to its end.
  let q₁' := (q₁.run s₁.world false 1).2
  let s₂ : Session := { s₁ with
    base := s₁.base.posed (denial 2 .proceed)
    compiler := { s₁.compiler with auxiliaries := 2 } }
  have h₁ : (q₁.run s₁.world false 1).1 = ⟨.paused, 1, none, none⟩ := by cbv
  have h₂ : (q₂.run s₂.world false 10).1 = ⟨.exhausted, 10, none, none⟩ := by cbv
  have h₃ : (q₁'.drain.2.run s₂.world false 10).1 = ⟨.answer, 9, some ⟨[]⟩, none⟩ := by cbv
  have hgives : ∀ {w : World} {n : Nat} {q : Solutions} {t : Snapshot}, n ≠ 0 →
      (q.run w false n).1 = t → Gives w ⟨false, n⟩ q t (q.run w false n).2 :=
    fun hn ht => (if_neg hn).mpr (Prod.ext ht rfl)
  -- What was computed makes up one dialogue.
  have d₀ : Dialogue (opened b t) (opened b t) [] := .opened
  have d₁ := d₀.asked _ hordinary₁
  rw [query_denial hread₁ 1 .fail rfl rfl (by cbv)] at d₁
  have d₂ := d₁.driven (n := 0) rfl rfl (hgives (by decide) h₁)
  have d₃ := d₂.asked _ hordinary₂
  rw [query_denial hread₂ 2 .proceed rfl rfl (by cbv)] at d₃
  have d₄ := d₃.driven (n := 1) rfl rfl (hgives (by decide) h₂)
  have d₅ := d₄.driven (n := 0) rfl rfl (hgives (by decide) h₃)
  exact ⟨_, _, _, .start hopened, d₅, rfl,
    d₅.isolated ⟨by simp, by simp, by simp⟩ (.start hopened)⟩

end PrologMachine
