/-
  PrologMachine.Proofs.Heap.Binds ── **WHAT UNIFICATION LEAVES BEHIND.**

  Whatever comes out of a unification, the heap afterwards is the heap before with some unbound
  variables bound, and these are the variables that it reports.  So a caller that records the
  report can take every binding back.

    * `Heap.Fills h h' vs`: from `h` to `h'` exactly the variables `vs` are bound.
    * `Heap.Binds`: nothing else happens.  `Heap.Gains`: new cells are made beside.
    * `Unifier.unify_grows`, `Heap.unify_binds`: unification binds what it reports.
-/
import PrologMachine.Heap.Unify
import PrologMachine.Proofs.Heap.Change

namespace PrologMachine

namespace Heap

variable {h h' h'' : Heap} {vs ws : List VarId} {v : VarId} {t : Value}

/-! ## §1. Heaps that differ by bindings. -/

/-- The variables `vs`, unbound in the first heap, are bound in the second, and no others. -/
structure Fills (h h' : Heap) (vs : List VarId) : Prop where
  /-- Each variable is bound once. -/
  nodup : vs.Nodup
  /-- They were unbound. -/
  before : ∀ v ∈ vs, h.binding? v = none
  /-- They are bound. -/
  after : ∀ v ∈ vs, (h'.binding? v).isSome
  /-- All others are as they were. -/
  others : ∀ v, v ∉ vs → h'.binding? v = h.binding? v

/-- The second heap is the first with the variables `vs` bound. -/
structure Binds (h h' : Heap) (vs : List VarId) : Prop extends Fills h h' vs where
  /-- There are the same variable cells. -/
  size : h'.vars.size = h.vars.size
  /-- Structures do not change. -/
  structs : h'.structs = h.structs

/-- The second heap is the first with new cells, and with the variables `vs`, old or new ones, bound. -/
structure Gains (h h' : Heap) (vs : List VarId) : Prop extends Fills h h' vs where
  /-- Variables stay. -/
  vars : h.vars.size ≤ h'.vars.size
  /-- Structures stay. -/
  structs : h.structs.size ≤ h'.structs.size
  /-- They consist of what they consisted of. -/
  cells : ∀ s < h.structs.size, h'.structCell s = h.structCell s

namespace Fills

/-- The bindings stay as they are. -/
theorem of_same (hsame : ∀ v, h'.binding? v = h.binding? v) : h.Fills h' [] where
  nodup := List.nodup_nil
  before := by simp
  after := by simp
  others v _ := hsame v

/-- Newer bindings come first. -/
protected theorem trans (hvs : h.Fills h' vs) (hws : h'.Fills h'' ws) :
    h.Fills h'' (ws ++ vs) := by
  have hdisj : ∀ v ∈ ws, v ∉ vs := by
    intro v hw hv
    have hsome := hvs.after v hv
    rw [hws.before v hw] at hsome
    simp at hsome
  refine ⟨?_, ?_, ?_, ?_⟩
  · exact List.nodup_append.2 ⟨hws.nodup, hvs.nodup, fun a ha b hb => by
      rintro rfl; exact hdisj a ha hb⟩
  · intro v hv
    rcases List.mem_append.1 hv with hw | hv
    · rw [← hvs.others v (hdisj v hw)]; exact hws.before v hw
    · exact hvs.before v hv
  · intro v hv
    by_cases hw : v ∈ ws
    · exact hws.after v hw
    · rw [hws.others v hw]
      exact hvs.after v ((List.mem_append.1 hv).resolve_left hw)
  · intro v hv
    rw [List.mem_append, not_or] at hv
    rw [hws.others v hv.1, hvs.others v hv.2]

/-- Bound variables keep their values. -/
theorem keeps (hf : h.Fills h' vs) (hv : h.binding? v = some t) : h'.binding? v = some t := by
  rw [hf.others v, hv]
  intro hm
  rw [hf.before v hm] at hv
  simp at hv

end Fills

namespace Binds

protected theorem refl (h : Heap) : h.Binds h [] := ⟨.of_same fun _ => rfl, rfl, rfl⟩

/-- Newer bindings come first. -/
protected theorem trans (hvs : h.Binds h' vs) (hws : h'.Binds h'' ws) : h.Binds h'' (ws ++ vs) :=
  ⟨hvs.toFills.trans hws.toFills, hws.size.trans hvs.size, hws.structs.trans hvs.structs⟩

/-- The values that exist do not change. -/
theorem holds_iff (hb : h.Binds h' vs) : h'.Holds t ↔ h.Holds t := by
  cases t <;> simp [Holds, hb.size, hb.structs]

/-- Bindings change no structure. -/
theorem structCell (hb : h.Binds h' vs) (s : StructId) : h'.structCell s = h.structCell s := by
  simp [Heap.structCell, hb.structs]

/-- Binding one unbound variable. -/
theorem set (hv : h.binding? v = none) (hlt : v < h.vars.size) (t : Value) :
    h.Binds (h.set v t) [v] where
  size := by simp
  structs := rfl
  nodup := List.nodup_singleton v
  before u hu := by obtain rfl := List.mem_singleton.1 hu; exact hv
  after u hu := by
    obtain rfl := List.mem_singleton.1 hu
    rw [binding?_set hlt]; simp
  others u hu := by
    rw [binding?_set hlt, if_neg]
    simpa using hu

/-- Binding alone makes no cells. -/
theorem gains (hb : h.Binds h' vs) : h.Gains h' vs :=
  ⟨hb.toFills, hb.size.ge, hb.structs ▸ le_rfl, fun s _ => hb.structCell s⟩

end Binds

namespace Gains

protected theorem refl (h : Heap) : h.Gains h [] := (Binds.refl h).gains

protected theorem trans (hvs : h.Gains h' vs) (hws : h'.Gains h'' ws) : h.Gains h'' (ws ++ vs) where
  toFills := hvs.toFills.trans hws.toFills
  vars := hvs.vars.trans hws.vars
  structs := hvs.structs.trans hws.structs
  cells s hs := (hws.cells s (hs.trans_le hvs.structs)).trans (hvs.cells s hs)

/-- Values keep existing. -/
theorem holds (hg : h.Gains h' vs) (ht : h.Holds t) : h'.Holds t := ht.mono hg.vars hg.structs

theorem newConst (h : Heap) (value : Atomic) : h.Gains (h.newConst value).2 [] :=
  ⟨.of_same fun _ => rfl, le_rfl, le_rfl, fun _ _ => rfl⟩

theorem newVar (h : Heap) (name : String) (id : Int) : h.Gains (h.newVar name id).2 [] :=
  ⟨.of_same fun _ => binding?_newVar, by simp, by simp, fun _ _ => rfl⟩

theorem newStruct (h : Heap) (name : String) (args : List Value) :
    h.Gains (h.newStruct name args .none).2 [] :=
  ⟨.of_same fun _ => rfl, by simp, by simp, fun s hs => by
    rw [structCell_newStruct, if_neg (Nat.ne_of_lt hs)]⟩

end Gains

end Heap

/-! ## §2. Unification. -/

namespace Unifier

variable {u u' u'' : Unifier}

/-- From one state of a unification to a later one, the heap gains the bindings that are newly
    reported and stays in good shape. -/
structure Grows (u u' : Unifier) : Prop where
  /-- The heap is in good shape. -/
  good : u'.heap.Good
  /-- What is newly reported is what is newly bound. -/
  binds : ∃ vs, u'.bound = vs ++ u.bound ∧ u.heap.Binds u'.heap vs

protected theorem Grows.refl (hg : u.heap.Good) : u.Grows u := ⟨hg, [], rfl, .refl _⟩

protected theorem Grows.trans (h₁ : u.Grows u') (h₂ : u'.Grows u'') : u.Grows u'' := by
  obtain ⟨vs, hvs, hb⟩ := h₁.binds
  obtain ⟨ws, hws, hb'⟩ := h₂.binds
  exact ⟨h₂.good, ws ++ vs, by rw [hws, hvs, List.append_assoc], hb.trans hb'⟩

/-- What was in the heap is in it. -/
theorem Grows.holds {t : Value} (h : u.Grows u') (ht : u.heap.Holds t) : u'.heap.Holds t := by
  obtain ⟨_, _, hb⟩ := h.binds
  exact hb.holds_iff.2 ht

/-- What comes behind the first value of a list still exists. -/
theorem Grows.holds_rest {a : Value} {as : List Value} (h : u.Grows u')
    (has : ∀ t ∈ a :: as, u.heap.Holds t) : ∀ t ∈ as, u'.heap.Holds t :=
  fun t ht => h.holds (has t (List.mem_cons_of_mem a ht))

/-- Binding a variable at the end of its chain to another value at the end of its chain. -/
theorem bind_grows {v : VarId} {t : Value} (hg : u.heap.Good) (hv : u.heap.Holds (.var v))
    (ht : u.heap.Holds t) (hfree : u.heap.binding? v = none) (hne : t ≠ .var v)
    (hend : u.heap.deref t = t) : u.Grows (u.bind v t).2 := by
  have hb : u.heap.isBound v = false := by simp [Heap.isBound, hfree]
  simp only [bind, hb, Bool.false_eq_true, if_false]
  exact ⟨hg.set hfree hv ht hne hend, [v], rfl, .set hfree hv t⟩

/-- What holds of `f` on single values holds of `f` on lists of them. -/
theorem pairwise_grows {f : Value → Value → Unifier → Bool × Unifier}
    (hf : ∀ a b (u : Unifier), u.heap.Good → u.heap.Holds a → u.heap.Holds b → u.Grows (f a b u).2) :
    ∀ (as bs : List Value) (u : Unifier), u.heap.Good → (∀ t ∈ as, u.heap.Holds t) →
      (∀ t ∈ bs, u.heap.Holds t) → u.Grows (pairwise f as bs u).2 := by
  intro as
  induction as with
  | nil => intro bs u hg _ _; simpa [pairwise] using Grows.refl hg
  | cons a as ih =>
    intro bs u hg has hbs
    cases bs with
    | nil => simpa [pairwise] using Grows.refl hg
    | cons b bs =>
      have hstep := hf a b u hg (has a (by simp)) (hbs b (by simp))
      simp only [pairwise]
      rcases hfab : f a b u with ⟨_ | _, u'⟩ <;> rw [hfab] at hstep
      · exact hstep
      · exact hstep.trans (ih bs u' hstep.good (hstep.holds_rest has) (hstep.holds_rest hbs))

/-- **Unification binds exactly the variables it reports, whatever its outcome.** -/
theorem unify_grows (n : Nat) : ∀ (depth : Nat) (a b : Value) (u : Unifier), u.heap.Good →
    u.heap.Holds a → u.heap.Holds b → u.Grows (unify n depth a b u).2 := by
  induction n with
  | zero => intro depth a b u hg _ _; exact Grows.refl hg
  | succ n ih =>
    intro depth a b u hg ha hb
    have ha' := hg.holds_deref ha
    have hb' := hg.holds_deref hb
    have haa := hg.deref_deref a
    have hbb := hg.deref_deref b
    rw [unify]
    by_cases hsame : a.same b = true
    · simpa only [hsame, if_true] using Grows.refl hg
    simp only [hsame, Bool.false_eq_true, if_false]
    generalize hda : u.heap.deref a = a' at ha' haa ⊢
    generalize hdb : u.heap.deref b = b' at hb' hbb ⊢
    by_cases hends : a'.same b' = true
    · simpa only [hends, if_true] using Grows.refl hg
    simp only [hends, Bool.false_eq_true, if_false]
    -- By what the two values end in: a variable is bound, structures are taken apart, constants are
    -- compared.
    cases a' with
    | var v =>
      refine bind_grows hg ha' hb' (hg.binding?_of_deref hda) ?_ hbb
      rintro rfl
      simp [Value.same] at hends
    | struct x =>
      cases b' with
      | var v => exact bind_grows hg hb' ha' (hg.binding?_of_deref hdb) (by simp) haa
      | struct y =>
        simp only
        split
        · exact Grows.refl hg
        split
        · exact Grows.refl hg
        · next seen _ =>
          have hlist := pairwise_grows (f := unify n (depth + 1))
            (fun a b u hg ha hb => ih (depth + 1) a b u hg ha hb)
            (u.heap.structCell x).args (u.heap.structCell y).args { u with seen } hg
            (hg.args x) (hg.args y)
          exact ⟨hlist.good, hlist.binds⟩
      | const c => exact Grows.refl hg
      | absent => exact Grows.refl hg
    | const c =>
      cases b' with
      | var v => exact bind_grows hg hb' ha' (hg.binding?_of_deref hdb) (by simp) haa
      | struct y => exact Grows.refl hg
      | const d => exact Grows.refl hg
      | absent => exact Grows.refl hg
    | absent => exact absurd ha' (by simp)

end Unifier

namespace Heap

variable {h : Heap} {a b : Value}

theorem good_unify (hg : h.Good) (ha : h.Holds a) (hb : h.Holds b) : (h.unify a b).2.heap.Good :=
  (Unifier.unify_grows h.walkBound 0 a b ⟨h, [], []⟩ hg ha hb).good

/-- Unifying two values of a heap binds exactly the variables it reports. -/
theorem unify_binds (hg : h.Good) (ha : h.Holds a) (hb : h.Holds b) :
    h.Binds (h.unify a b).2.heap (h.unify a b).2.bound := by
  obtain ⟨vs, hvs, hbinds⟩ := (Unifier.unify_grows h.walkBound 0 a b ⟨h, [], []⟩ hg ha hb).binds
  have hvs' : (h.unify a b).2.bound = vs := by simpa [unify] using hvs
  rw [hvs']
  exact hbinds

/-- Unifying with a constant what is no unbound variable binds nothing. -/
theorem unify_const_heap {c : Constant} (hne : ∀ v, h.deref a ≠ .var v) :
    (h.unify a (.const c)).2.heap = h := by
  have hbound : h.walkBound = cycleDepth + h.structs.size * h.structs.size + 1 + 1 := rfl
  rw [unify, hbound, Unifier.unify]
  split
  · rfl
  simp only [deref_const]
  split
  · rfl
  cases hd : h.deref a with
  | var v => exact absurd hd (hne v)
  | struct x => rfl
  | const d => rfl
  | absent => rfl

/-- Unifying with a constant what is an unbound variable binds the variable. -/
theorem unify_const_free {c : Constant} {v : VarId} (hd : h.deref a = .var v)
    (hfree : h.binding? v = none) :
    h.unify a (.const c) = (true, ⟨h.set v (.const c), [v], []⟩) := by
  have hbound : h.walkBound = cycleDepth + h.structs.size * h.structs.size + 1 + 1 := rfl
  have hsame : a.same (.const c) = false := by
    cases a with
    | const d => cases hd
    | _ => rfl
  have hends : (Value.var v).same (.const c) = false := rfl
  simp [unify, hbound, Unifier.unify, hsame, hd, hends, Unifier.bind, isBound, hfree]

end Heap

end PrologMachine
