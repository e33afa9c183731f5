/-
  PrologMachine.Proofs.Resolution.Heads ── **MATCHING A GOAL WITH A HEAD.**

  A clause is entered for a goal of the resolvent.  Its head code either runs through, and the heap stands
  for one more pair, that of the goal and the head of the new copy; or it finds a mismatch, and no trees
  solve the pairs with that one.

    * `Machine.Resolves`: the two outcomes.
    * `Machine.EntersHead.resolves`: there are no others.
-/
import PrologMachine.Proofs.Resolution.Store

namespace PrologMachine

namespace Machine

open Resolvent

variable {w : World} {cl : Clause} {f : FrameId} {n k : Nat} {m : Machine} {s : StructId}
  {K : Set Constant} {eqs : List (Part × Part)} {env : Copies} {P : Value → Prop} {g : Part}
  {name : String} {args : List Term} {hasBody : Bool} {e : Emitter}

/-- What comes of the first `n` instructions of the head of `cl`, which is the pattern `p`, in copy `k`, for
    the goal `g`. -/
inductive Resolves (w : World) (K : Set Constant) (cl : Clause) (f : FrameId) (n : Nat)
    (eqs : List (Part × Part)) (env : Copies) (g : Part) (k : Nat) (p : Pattern) (m : Machine) : Prop where
  /-- They run through; the names in the head have values now. -/
  | matched {P : Value → Prop} (hruns : TreadsHead w cl f 0 n m)
    (hgrows : m.scope.Grows ((advance w)^[n] m).scope)
    (hstore : Store K ((g, (k, p)) :: eqs)
      (Function.update env k (p.named ((advance w)^[n] m).value?)) P ((advance w)^[n] m).heap)
    (hnames : ∀ x ∈ p.names, (((advance w)^[n] m).value? x).isSome)
  /-- One of them finds a mismatch. -/
  | missed (hmisses : MissesHead w cl f 0 n m) (hnone : ¬ ∃ Θ, Unifies K Θ ((g, (k, p)) :: eqs))

/-- The head of a clause with arguments. -/
theorem EntersHead.resolves_args (h : EntersHead cl f (.struct s) m) (hK : Heap.EqualOn K)
    (hp : Poses K eqs env P m.heap g s) (hfresh : ∀ x, env k x = none) (hargs : Term.AllNamed args)
    (hne : args ≠ []) (hseen : e.seen = []) (hcell : (m.heap.structCell s).args ≠ [])
    (hconstants : ∀ c ∈ (headPattern name args e).constants, c ∈ K)
    (hblock : cl.block? headLabel = some ((decodeHead name args hasBody).eval e).1) (hw : w.maxSteps ≤ 0) :
    Resolves w K cl f (((decodeHead name args hasBody).eval e).1.length - 1) eqs env g k
      (headPattern name args e) m := by
  obtain ⟨out, qs, keys', hcode, hdeep⟩ := decodeHead_equations (e := e) K name hasBody hargs hne hseen
  have hnames := headPattern_names (e := e) name hargs
  have hfull := headPattern_full (e := e) name hargs hne hconstants
  have hlength : ((decodeHead name args hasBody).eval e).1.length - 1 = out.1.length := by
    rw [hcode, List.length_append, List.length_singleton, Nat.add_sub_cancel]
  rw [hcode] at hblock
  rw [hlength]
  -- The register of the goal is the only name that the head starts with.
  have hsound : m.scope.Sound K P :=
    { plain := hp.plain
      env := fun x u hx => by
        obtain ⟨-, rfl⟩ := h.env_some hx
        exact ⟨hp.lt, hp.inside hcell⟩
      vars := hp.vars
      structs := hp.structs
      constants := hp.constants }
  -- The equations hold exactly where the pattern describes the goal.
  have hmatching : Matching K (fun θ => ∀ q ∈ qs, q.Holds K θ) m.scope (headPattern name args e) s :=
    { solves := fun ρ θ hρ hdescribes => h.solves hdeep hnames ⟨hρ, nofun⟩ hdescribes
      describes := fun ρ θ hm hqs => by
        have hroot : m.heap.tree K ρ (.struct s) = θ (structRegister 0) :=
          hm.names _ (.struct s) (by rw [h.env, if_pos rfl])
        rw [show m.scope.heap = m.heap from rfl, hroot]
        exact hdeep.describes θ hqs _ (List.mem_singleton_self _) }
  -- They are decided one after another.
  have hdecides := equations_decide (w := w) hK hblock hdeep.code h.head hsound h.known
    (fun q _ heq => by
      rw [h.register] at heq
      exact absurd (congrArg String.toList heq) (by simp [structRegister]))
    hdeep.nodup (hdeep.full fun q hq => by obtain rfl := List.mem_singleton.1 hq; exact hfull)
    ⟨[headEnd hasBody], rfl⟩ (room_of_unlimited hw)
  cases hdecides with
  | fails hfails hrefutes => exact .missed hfails (hp.refuted hmatching hrefutes)
  | runs hruns hanswers _ _ hknown =>
    have hall : ∀ x ∈ (headPattern name args e).names,
        (((advance w)^[out.1.length] m).value? x).isSome := fun x hx =>
      (hknown x).2 (hdeep.names _ (List.mem_singleton_self _) x hx)
    exact .matched hruns hanswers.grows (hp.resolved hmatching hsound hanswers hfresh hall) hall

/-- The head of a clause without arguments. -/
theorem EntersHead.resolves_nil (h : EntersHead cl f (.struct s) m)
    (hp : Poses K eqs env P m.heap g s) (hfresh : ∀ x, env k x = none)
    (hname : (m.heap.structCell s).name = name) (hcell : (m.heap.structCell s).args = [])
    (hblock : cl.block? headLabel = some ((decodeHead name [] hasBody).eval e).1) (hw : w.maxSteps ≤ 0) :
    Resolves w K cl f (((decodeHead name [] hasBody).eval e).1.length - 1) eqs env g k
      (headPattern name [] e) m := by
  have hpattern : headPattern name [] e = .struct name [] := by rw [headPattern, Term.patterns]
  rw [decodeHead_nil] at hblock ⊢
  rw [hpattern]
  obtain ⟨hruns, hscope, -⟩ :=
    h.treads_nil (w := w) Heap.deref_struct hname hcell hblock (room_of_unlimited hw)
  have hheap : ((advance w)^[1] m).heap = m.heap := congrArg Scope.heap hscope
  have hsound : (unnamed m.heap).Sound K P := ⟨hp.plain, by rintro _ _ ⟨⟩, hp.vars, hp.structs, hp.constants⟩
  -- Any goal of that name and without arguments matches.
  have hmatching : Matching K (fun _ => True) (unnamed m.heap) (.struct name []) s :=
    { solves := fun ρ θ hρ _ => ⟨θ, fun _ _ => rfl, ⟨hρ, by rintro _ _ ⟨⟩⟩, trivial⟩
      describes := fun ρ θ _ _ => by
        show Pattern.Describes K θ (.struct name []) (m.heap.tree K ρ (.struct s))
        rw [Heap.tree_struct, hname, hcell]
        exact ⟨[], rfl, rfl⟩ }
  have hnone : (Pattern.struct name []).named ((advance w)^[1] m).value? =
      (Pattern.struct name []).named (unnamed m.heap).env := funext fun x => rfl
  have hstore := hp.resolved (c := unnamed m.heap) hmatching hsound
    (.refl hsound fun _ _ _ => trivial) hfresh fun x hx => absurd hx List.not_mem_nil
  refine .matched (P := P) hruns ?_ ?_ fun x hx => absurd hx List.not_mem_nil
  · show m.scope.Grows ((advance w)^[1] m).scope
    rw [hscope]
    exact .refl _
  · show Store K _ _ P ((advance w)^[1] m).heap
    rw [hheap]
    exact hnone ▸ hstore

/-- **Head code resolves the goal**: it runs through, or the goal and the head have no common tree. -/
theorem EntersHead.resolves (h : EntersHead cl f (.struct s) m) (hK : Heap.EqualOn K)
    (hp : Poses K eqs env P m.heap g s) (hfresh : ∀ x, env k x = none) (hargs : Term.AllNamed args)
    (hseen : e.seen = []) (hsignature : g.2.signature = ⟨name, args.length⟩)
    (hconstants : ∀ c ∈ (headPattern name args e).constants, c ∈ K)
    (hblock : cl.block? headLabel = some ((decodeHead name args hasBody).eval e).1) (hw : w.maxSteps ≤ 0) :
    Resolves w K cl f (((decodeHead name args hasBody).eval e).1.length - 1) eqs env g k
      (headPattern name args e) m := by
  have hcell := hp.signature.symm.trans hsignature
  obtain ⟨hname, hlength⟩ : (m.heap.structCell s).name = name ∧
      (m.heap.structCell s).args.length = args.length := by
    simpa using hcell
  cases args with
  | nil => exact h.resolves_nil hp hfresh hname (List.length_eq_zero_iff.1 hlength) hblock hw
  | cons a as =>
    refine h.resolves_args hK hp hfresh hargs (List.cons_ne_nil a as) hseen (fun hnil => ?_) hconstants
      hblock hw
    rw [hnil] at hlength
    exact Nat.zero_ne_add_one _ hlength

end Machine

end PrologMachine
