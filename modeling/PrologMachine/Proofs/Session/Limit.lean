/-
  PrologMachine.Proofs.Session.Limit ── **A STEP LIMIT ONLY TRUNCATES.**

  With a step limit a search finds the first answers that it finds without one.  Every search for
  an answer stays within the limit; one that would go beyond it ends with an error that says so, and
  any other ends as it would have.

    * `Solutions.Fresh`: a search that is at its beginning or at an answer.
    * `Solutions.executed`: how many instructions the search for the next answer executes.
    * `Fresh.run_within`, `Fresh.run_beyond`, `Fresh.limit_iff`: one search for an answer.
    * `Finds.unlimited`, `Fresh.upTo`: several of them.
    * `Session.Ignores`, `Session.Truncates`: what is done in a session does not depend on the
      limit, or is cut short by it and by nothing else; asking and consulting are so.
    * `Session.limit_truncates`: programs and questions.
-/
import PrologMachine.Proofs.Machine.Limit
import PrologMachine.Proofs.Session.Slices
import PrologMachine.Proofs.Session.Upkeep

namespace PrologMachine

/-! ## §1. Runs of machines. -/

namespace Machine

variable {w : World} {m m' : Machine} {n t : Nat} {o : Outcome}

/-- A run whose budget is used up has executed as many instructions. -/
theorem executed_of_suspended (h : (m.runFrom w n t).1.Suspended) : m.executed w n = n := by
  induction n generalizing t m with
  | zero => rfl
  | succ n ih =>
    unfold runFrom at h
    rcases hs : m.step w with ⟨⟨_ | _, _ | e⟩, m'⟩ <;> rw [hs] at h
    · rw [executed, executes_of_step hs, hs, ih h]
      exact Nat.add_comm 1 n
    · cases h.2
    · exact absurd h.1 (status_ne_paused (ended_of_step hs))
    · cases h.2

/-- A run that reports no error leaves none. -/
theorem sound_runFrom (hm : m.error = none) (h : (m.runFrom w n t).1.error = none) :
    (m.runFrom w n t).2.error = none := by
  induction n generalizing t m with
  | zero => exact hm
  | succ n ih =>
    have hsound := sound_of_step (w := w) hm
    unfold runFrom at h ⊢
    rcases hs : m.step w with ⟨⟨_ | _, _ | e⟩, m'⟩ <;> rw [hs] at h hsound
    · exact ih (hsound rfl) h
    · cases h
    · exact hsound rfl
    · cases h

/-- Asking for the next answer starts to count anew, and reports no step limit. -/
theorem redo_spec (hm : m.error = none) :
    (m.redo.1 = true → m.redo.2.steps = 0) ∧
      ∀ k, m.redo.2.error ≠ some (.running (.stepLimit k)) := by
  unfold redo
  split
  · exact ⟨nofun, fun k => by rw [hm]; nofun⟩
  · have h := undisturbed (m := { m with ended := false, success := false, steps := 0 })
      Exec.keeps_failure
    exact ⟨fun _ => h.steps, h.error hm⟩

end Machine

/-! ## §2. One search for an answer. -/

namespace Solutions

variable {w : World} {q q' q₁ : Solutions} {s : Snapshot} {n N : Nat}

/-- The search is at its beginning or at an answer: it is not over, nothing has failed, and no step
    of the search for the next answer has been taken. -/
structure Fresh (q : Solutions) : Prop extends Coherent q where
  /-- It is not over. -/
  open_ : q.done = false
  /-- Nothing has failed. -/
  sound : q.machine.error = none
  /-- No step has been taken. -/
  reset : q.answered = false → q.machine.steps = 0

/-- How many instructions the search for the next answer executes when it may take `n` steps.  One
    that is over, or finds no alternative left when it is asked again, executes none. -/
def executed (w : World) (n : Nat) (q : Solutions) : Nat :=
  match q.prepared with
  | .inl q' => q'.machine.executed w n
  | .inr _ => 0

/-- A search that needs no preparation executes what its machine does. -/
theorem executed_inl (h : q.prepared = .inl q') :
    q.executed w n = q'.machine.executed w n := by rw [executed, h]

/-- A search that needs no run executes nothing. -/
theorem executed_inr {r : Snapshot × Solutions} (h : q.prepared = .inr r) :
    q.executed w n = 0 := by rw [executed, h]

namespace Fresh

/-- The machine of a search that goes on has counted no step. -/
theorem prepared (hq : q.Fresh) (h : q.prepared = .inl q') :
    q'.Poised ∧ q'.machine.error = none ∧ q'.machine.steps = 0 := by
  have hpoised := hq.poised h
  unfold Solutions.prepared at h
  rw [if_neg (by simp [hq.open_])] at h
  split at h
  · split at h
    · next hmore =>
      cases h
      exact ⟨hpoised, error_of_redo hmore, (Machine.redo_spec hq.sound).1 hmore⟩
    · cases h
  · next hanswered =>
    cases h
    exact ⟨hpoised, hq.sound, hq.reset (by simpa using hanswered)⟩

/-- **A search within the limit is the search without it.** -/
theorem run_within (hN : w.maxSteps = N) (hpos : 0 < N) (hq : q.Fresh)
    (h : q.executed w.unlimited n ≤ N) : q.run w false n = q.run w.unlimited false n := by
  rw [run_eq, run_eq]
  cases hprepared : q.prepared with
  | inr r => rfl
  | inl q' =>
    obtain ⟨-, -, hsteps⟩ := hq.prepared hprepared
    rw [executed_inl hprepared] at h
    have hrun : q'.machine.runFrom w n 0 = q'.machine.runFrom w.unlimited n 0 :=
      Machine.runFrom_within hN hpos n 0 _ (by simpa [hsteps] using h)
    simp only [Machine.run, hrun]

/-- **A search beyond the limit ends with its error**, after as many steps as it allows. -/
theorem run_beyond (hN : w.maxSteps = N) (hpos : 0 < N) (hq : q.Fresh)
    (h : N < q.executed w.unlimited n) :
    (q.run w false n).1 = ⟨.exhausted, N, none, some (.running (.stepLimit N))⟩ := by
  cases hprepared : q.prepared with
  | inr r =>
    rw [executed_inr hprepared] at h
    exact absurd h (Nat.not_lt_zero N)
  | inl q' =>
    obtain ⟨-, -, hsteps⟩ := hq.prepared hprepared
    rw [executed_inl hprepared] at h
    have hlive : q'.machine.Live := by
      by_contra hstopped
      rw [Machine.executed_of_not_live hstopped] at h
      exact absurd h (Nat.not_lt_zero N)
    have hrun := Machine.runFrom_beyond hN hpos n 0 q'.machine (by omega) (by omega)
    rw [run_eq, hprepared]
    simp only [Machine.run, hlive.asked, hlive.running, Bool.not_true, Bool.false_eq_true, if_false]
    rcases hr : q'.machine.runFrom w n 0 with ⟨o, m⟩
    rw [hr] at hrun
    obtain rfl := hrun
    simp [concluded, hsteps]

/-- With a limit a search executes no more instructions than it allows. -/
theorem executed_le (hN : w.maxSteps = N) (hpos : 0 < N) (hq : q.Fresh) (n : Nat) :
    q.executed w n ≤ N := by
  cases hprepared : q.prepared with
  | inr r =>
    rw [executed_inr hprepared]
    exact Nat.zero_le N
  | inl q' =>
    obtain ⟨-, -, hsteps⟩ := hq.prepared hprepared
    have hle := Machine.executed_le hN hpos n q'.machine (by omega)
    rw [executed_inl hprepared]
    omega

/-- With a limit every search comes to an end. -/
theorem ends (hN : w.maxSteps = N) (hpos : 0 < N) (hq : q.Fresh) :
    ¬ (q.run w false (N + 1)).1.Suspended := by
  intro hs
  cases hprepared : q.prepared with
  | inr r =>
    obtain ⟨s, q'⟩ := r
    rw [run_eq, hprepared, (over_of_prepared hprepared).1] at hs
    cases hs.1
  | inl q' =>
    rw [run_of_prepared hq.toCoherent hprepared] at hs
    obtain ⟨-, -, -, hrun⟩ := (hq.prepared hprepared).1.running_of_suspended rfl hs
    have hle := hq.executed_le hN hpos (N + 1)
    rw [executed_inl hprepared, Machine.executed_of_suspended hrun] at hle
    omega

end Fresh

/-- The snapshot has the steps and the error that the machine reports. -/
theorem reported_concluded (c : Bool) (q : Solutions) (r : Machine.Outcome × Machine) :
    (q.concluded c r).1.steps = r.1.steps ∧ (q.concluded c r).1.error = r.1.error := by
  rcases r with ⟨⟨status, steps, error⟩, m⟩
  cases error with
  | some e =>
    simp only [concluded]
    split <;> exact ⟨rfl, rfl⟩
  | none => cases status <;> exact ⟨rfl, rfl⟩

/-- At an answer the machine has reported no error. -/
theorem concluded_answer {c : Bool} {r : Machine.Outcome × Machine} {k : Nat} {a : Solution}
    (h : q.concluded c r = (⟨.answer, k, some a, none⟩, q₁)) :
    r.1.error = none ∧ q₁ = { q with machine := r.2, answered := true } := by
  have herror := (reported_concluded c q r).2
  rw [h] at herror
  obtain ⟨⟨status, steps, error⟩, m⟩ := r
  obtain rfl : error = none := herror.symm
  cases status with
  | answer => cases h; exact ⟨rfl, rfl⟩
  | paused => cases h
  | exhausted => cases h

namespace Fresh

/-- Without a limit no search reports one. -/
theorem error_ne (hq : q.Fresh) (n : Nat) (k : Int) :
    (q.run w.unlimited false n).1.error ≠ some (.running (.stepLimit k)) := by
  cases hprepared : q.prepared with
  | inr r =>
    rw [run_eq, hprepared]
    unfold Solutions.prepared at hprepared
    rw [if_neg (by simp [hq.open_])] at hprepared
    split at hprepared
    · split at hprepared
      · cases hprepared
      · cases hprepared
        exact (Machine.redo_spec hq.sound).2 k
    · cases hprepared
  | inl q' =>
    obtain ⟨hpoised, hsound, -⟩ := hq.prepared hprepared
    rw [run_of_prepared hq.toCoherent hprepared, hpoised.run_eq,
      (reported_concluded _ _ _).2]
    split
    · rw [hsound]
      nofun
    · rw [if_neg (by simp)]
      exact Machine.runFrom_error_ne n 0 _ hsound k

/-- **The steps of a snapshot are the instructions executed**, up to the one that fails. -/
theorem steps_spec (hq : q.Fresh) (n : Nat) :
    (q.run w false n).1.steps ≤ q.executed w n ∧
      ((q.run w false n).1.error = none → (q.run w false n).1.steps = q.executed w n) := by
  cases hprepared : q.prepared with
  | inr r =>
    obtain ⟨s, q'⟩ := r
    rw [executed_inr hprepared, run_eq, hprepared, (over_of_prepared hprepared).1]
    exact ⟨Nat.le_refl 0, fun _ => rfl⟩
  | inl q' =>
    obtain ⟨hpoised, hsound, -⟩ := hq.prepared hprepared
    rw [executed_inl hprepared, run_of_prepared hq.toCoherent hprepared, hpoised.run_eq,
      (reported_concluded _ _ _).1, (reported_concluded _ _ _).2]
    cases hended : q'.machine.ended with
    | true =>
      have hstopped : ¬ q'.machine.Live := fun hlive => by simp [hlive.running] at hended
      rw [Machine.executed_of_not_live hstopped]
      exact ⟨Nat.le_refl 0, fun _ => rfl⟩
    | false =>
      have hlive : q'.machine.Live := ⟨hsound, hpoised.asked, hended⟩
      have hsteps := Machine.steps_runFrom (w := w) n 0 q'.machine hlive
      rw [Nat.zero_add] at hsteps
      simpa only [Bool.false_eq_true, if_false] using hsteps

/-- Behind an answer a search is fresh again. -/
theorem next (hq : q.Fresh) {k : Nat} {a : Solution}
    (h : q.run w false n = (⟨.answer, k, some a, none⟩, q₁)) : q₁.Fresh := by
  cases hprepared : q.prepared with
  | inr r =>
    obtain ⟨s, q'⟩ := r
    rw [run_eq, hprepared] at h
    cases h
    cases (over_of_prepared hprepared).1
  | inl q' =>
    obtain ⟨hpoised, hsound, -⟩ := hq.prepared hprepared
    obtain ⟨-, hcoherent⟩ := hq.closed h (by simp [Snapshot.Suspended])
    rw [run_of_prepared hq.toCoherent hprepared, hpoised.run_eq] at h
    obtain ⟨herror, rfl⟩ := concluded_answer h
    refine ⟨hcoherent, hpoised.open_, ?_, Bool.noConfusion⟩
    simp only [Bool.false_eq_true, if_false] at herror ⊢
    split
    · exact hsound
    · next hended =>
      rw [if_neg hended] at herror
      exact Machine.sound_runFrom hsound herror

end Fresh

/-! ## §3. All searches for an answer. -/

/-- A search stays fresh as answers are found. -/
theorem Finds.fresh {as : List (Solution × Nat)} (h : Finds w q as q') (hq : q.Fresh) :
    q'.Fresh := by
  induction h with
  | nil => exact hq
  | cons hgives _ ih =>
    obtain ⟨n, hrun⟩ := hgives.exists_run
    exact ih (hq.next hrun)

/-- The search for the next answer goes beyond `N` instructions. -/
def Beyond (w : World) (N : Nat) (q : Solutions) : Prop := ∃ n, N < q.executed w n

namespace Fresh

/-- A search that does not go beyond the limit ends as it does without one. -/
theorem gives_iff (hN : w.maxSteps = N) (hpos : 0 < N) (hq : q.Fresh)
    (h : ¬ Beyond w.unlimited N q) :
    Gives w .whole q s q' ↔ Gives w.unlimited .whole q s q' := by
  have hrun (n : Nat) : q.run w false n = q.run w.unlimited false n :=
    hq.run_within hN hpos (Nat.le_of_not_lt fun hn => h ⟨n, hn⟩)
  simp only [Gives, Slice.whole, if_true, hrun]

/-- With a limit a search gives one snapshot. -/
theorem exists_gives (hN : w.maxSteps = N) (hpos : 0 < N) (hq : q.Fresh) :
    ∃ s q', Gives w .whole q s q' :=
  ⟨_, _, (if_pos rfl).mpr ⟨N + 1, rfl, hq.ends hN hpos⟩⟩

/-- **A search ends with the error of the limit exactly when it would go beyond it.** -/
theorem limit_iff (hN : w.maxSteps = N) (hpos : 0 < N) (hq : q.Fresh) (h : Gives w .whole q s q') :
    s.error = some (.running (.stepLimit N)) ↔ Beyond w.unlimited N q := by
  obtain ⟨n, hrun, hs⟩ := (if_pos rfl).mp h
  have hrun : q.run w false n = (s, q') := hrun
  constructor
  · intro herror
    by_contra hwithin
    have hsame := hq.run_within hN hpos (n := n) (Nat.le_of_not_lt fun hn => hwithin ⟨n, hn⟩)
    have hne := hq.error_ne (w := w) n N
    rw [← hsame, hrun] at hne
    exact hne herror
  · rintro ⟨b, hb⟩
    have hbeyond := hq.run_beyond hN hpos hb
    rcases hlimit : q.run w false b with ⟨s', q₁⟩
    rw [hlimit] at hbeyond
    obtain rfl := hbeyond
    rw [(hq.run_unique hlimit (by simp [Snapshot.Suspended]) hrun hs).1]

end Fresh

/-- **The answers found with a limit are the first answers found without one.** -/
theorem Finds.unlimited (hN : w.maxSteps = N) (hpos : 0 < N) {as : List (Solution × Nat)}
    (h : Finds w q as q') (hq : q.Fresh) : Finds w.unlimited q as q' := by
  induction h with
  | nil => exact .nil _
  | cons hgives _ ih =>
    obtain ⟨n, hrun⟩ := hgives.exists_run
    have hwithin : ¬ Beyond w.unlimited N _ := fun hbeyond =>
      nomatch (hq.limit_iff hN hpos hgives).2 hbeyond
    exact .cons ((hq.gives_iff hN hpos hwithin).1 hgives) (ih (hq.next hrun))

/-- A run without an error shows a solution only at an answer, and the search is fresh again. -/
theorem Fresh.found (hq : q.Fresh) {k : Nat} {a : Solution} {status : Status}
    (h : q.run w false n = (⟨status, k, some a, none⟩, q₁)) : q₁.Fresh := by
  cases status with
  | answer => exact hq.next h
  | paused =>
    obtain ⟨hs, -⟩ := hq.behind_of_suspended h ⟨rfl, rfl⟩
    cases hs
  | exhausted =>
    obtain ⟨hclosed, -⟩ := hq.closed h (by simp [Snapshot.Suspended])
    cases hclosed

/-- **Looking for several solutions**: those that are found with the limit are the first ones found
    without it, and unless all is the same the search ends with the error of the limit. -/
theorem Fresh.upTo (hN : w.maxSteps = N) (hpos : 0 < N) (patience k : Nat) (hq : q.Fresh) :
    (q.upTo w false patience k).1 <+: (q.upTo w.unlimited false patience k).1 ∧
      (q.upTo w false patience k = q.upTo w.unlimited false patience k ∨
        (q.upTo w false patience k).2.1 = some (.running (.stepLimit N))) := by
  induction k generalizing q with
  | zero => exact ⟨List.prefix_rfl, .inl rfl⟩
  | succ k ih =>
    -- The first search that goes beyond the limit is the last one.
    by_cases hwithin : q.executed w.unlimited patience ≤ N
    · have hrun := hq.run_within hN hpos hwithin
      rcases hlimit : q.run w false patience with ⟨⟨status, steps, _ | a, _ | e⟩, q₁⟩ <;>
        simp only [Solutions.upTo, Solutions.next, ← hrun, hlimit]
      · exact ⟨List.prefix_rfl, .inl trivial⟩
      · exact ⟨List.prefix_rfl, .inl trivial⟩
      · obtain ⟨hfirst, hsame⟩ := ih (hq.found hlimit)
        exact ⟨List.cons_prefix_cons.2 ⟨rfl, hfirst⟩, hsame.imp_left fun h => by rw [h]⟩
      · exact ⟨List.prefix_rfl, .inl trivial⟩
    · have hrun := hq.run_beyond hN hpos (Nat.lt_of_not_le hwithin)
      rcases hlimit : q.run w false patience with ⟨snapshot, q₁⟩
      rw [hlimit] at hrun
      obtain rfl := hrun
      simp only [Solutions.upTo, Solutions.next, hlimit]
      exact .intro List.nil_prefix (.inr trivial)

end Solutions

/-! ## §4. Sessions that differ in their limit. -/

/-- The error is that of the step limit `N`, whatever context it was put into. -/
def Error.Limits (N : Nat) : Error → Prop
  | .running (.stepLimit k) => k = N
  | .within _ e => e.Limits N
  | _ => False

/-- The options with a step limit, or without one for zero. -/
def SessionOptions.limited (N : Nat) (options : SessionOptions) : SessionOptions :=
  { options with maxSteps := N }

@[simp] theorem SessionOptions.limited_maxSteps (N : Nat) (options : SessionOptions) :
    (options.limited N).maxSteps = N := rfl

@[simp] theorem SessionOptions.limited_patience (N : Nat) (options : SessionOptions) :
    (options.limited N).patience = options.patience := rfl

namespace Session

variable {s s' : Session} {N : Nat}

/-- The same session without a step limit. -/
def unlimited (s : Session) : Session := { s with options := s.options.limited 0 }

@[simp] theorem world_unlimited (s : Session) : s.unlimited.world = s.world.unlimited := rfl

/-- What is done in a session does not depend on the limit, and does not change the options. -/
structure Ignores {α : Type} (f : Session → α × Session) (s : Session) : Prop where
  /-- Without a limit it is the same. -/
  unlimited : f s.unlimited = ((f s).1, (f s).2.unlimited)
  /-- The options stay. -/
  options : (f s).2.options = s.options

/-- The transcript does not look at the limit. -/
theorem foldl_logDebug_ignores (log : List LogEntry) (s : Session) :
    log.foldl logDebug s.unlimited = (log.foldl logDebug s).unlimited ∧
      (log.foldl logDebug s).options = s.options := by
  induction log generalizing s with
  | nil => exact ⟨rfl, rfl⟩
  | cons e log ih => exact ⟨(ih (s.logDebug e)).1, (ih (s.logDebug e)).2⟩

/-- Compiling does not look at the limit. -/
theorem compileWith_ignores (f : Compiler → Except CompileError Clause × Compiler) (s : Session) :
    Ignores (·.compileWith f) s := by
  have hcompiler : s.unlimited.compiler = s.compiler := rfl
  rcases h : f s.compiler with ⟨_ | _, c⟩ <;>
    constructor <;> simp only [compileWith, hcompiler, h] <;> rfl

theorem solutions_ignores (q : Clause) (s : Session) : Ignores (·.solutions q) s := by
  have hbase : s.unlimited.base = s.base := rfl
  rcases h : ({} : Machine).ask s.base (some q) with ⟨_ | _, base, m⟩ <;>
    constructor <;> simp only [solutions, hbase, h] <;> rfl

theorem insert_ignores (d : Destination) (c : Clause) (s : Session) :
    Ignores (·.insert d c) s := by
  cases d with
  | user =>
    obtain ⟨hlog, hoptions⟩ := foldl_logDebug_ignores (s.base.insertUser c.signature (some c)).log
      { s with base := (s.base.insertUser c.signature (some c)).base }
    exact ⟨Prod.ext rfl hlog, hoptions⟩
  | builtin =>
    obtain ⟨hlog, hoptions⟩ := foldl_logDebug_ignores
      (s.base.insertBuiltin c.signature (some c)).log
      { s with base := (s.base.insertBuiltin c.signature (some c)).base }
    exact ⟨Prod.ext rfl hlog, hoptions⟩

theorem compileQuestion_ignores (question : String) (s : Session) :
    Ignores (compileQuestion question) s := by
  cases h : readClause {} question 0 with
  | error e => constructor <;> simp only [compileQuestion_error h]
  | ok t =>
    have := compileWith_ignores (·.query t) s
    constructor <;> simp only [compileQuestion_ok h]
    · exact this.unlimited
    · exact this.options

theorem compiledQuestion_ignores (question : String) (s : Session) :
    Ignores (·.compiledQuestion question) s := by
  have hcompile := compileQuestion_ignores question s
  have hcached : s.unlimited.cache = s.cache := rfl
  cases hcache : s.cache with
  | none =>
    constructor <;> simp only [compiledQuestion, hcached, hcache]
    · exact hcompile.unlimited
    · exact hcompile.options
  | some cache =>
    constructor <;> simp only [compiledQuestion, hcached, hcache, RecencyCache.getOrMake]
    · rcases cache.get question with ⟨_ | v, c⟩
      · simp only [hcompile.unlimited]
        rcases compileQuestion question s with ⟨_ | _, s'⟩ <;> rfl
      · rfl
    · rcases cache.get question with ⟨_ | v, c⟩
      · have hoptions := hcompile.options
        simp only
        rcases h : compileQuestion question s with ⟨_ | _, s'⟩ <;> rw [h] at hoptions <;>
          exact hoptions
      · rfl

/-- **Asking a question does not depend on the limit.** -/
theorem query_ignores (source : String) (s : Session) : Ignores (·.query source) s := by
  obtain ⟨hsame, hoptions⟩ := compiledQuestion_ignores (questionText source) s
  rcases h : s.compiledQuestion (questionText source) with ⟨e | q, s'⟩ <;>
    simp only [h] at hsame hoptions
  · constructor <;> simp only [query, h, hsame]
    exact hoptions
  · have hq := solutions_ignores q s'
    constructor <;> simp only [query, h, hsame]
    · exact hq.unlimited
    · exact hq.options.trans hoptions

/-- The search for the answers of a question is fresh. -/
theorem fresh_of_solutions {q : Clause} {sols : Solutions} (h : s.solutions q = (.ok sols, s')) :
    sols.Fresh := by
  unfold solutions at h
  split at h
  · cases h
  · next hask =>
    cases h
    have hcoherent := Solutions.coherent_of_ask hask
    unfold Machine.ask at hask
    simp only at hask
    split at hask
    · cases hask
    · cases hask
      exact ⟨hcoherent, rfl, rfl, fun _ => rfl⟩

/-! ## §5. Programs. -/

/-- **What is done in a session with a step limit is what is done without one, or ends with the
    error of the limit.** -/
structure Truncates (N : Nat) (f : Session → Option Error × Session) (s : Session) : Prop where
  /-- It is the same, or there is the error. -/
  outcome : f s.unlimited = ((f s).1, (f s).2.unlimited) ∨ ∃ e, (f s).1 = some e ∧ e.Limits N
  /-- The options stay. -/
  options : (f s).2.options = s.options

/-- One after the other, up to the first error, which may be put into a context. -/
theorem Truncates.andThen {f g : Session → Option Error × Session} (hf : Truncates N f s)
    (context : Error → Error) (hcontext : ∀ e, e.Limits N → (context e).Limits N)
    (hg : ∀ s' : Session, s'.options = s.options → Truncates N g s') :
    Truncates N (fun s => match f s with | (some e, s) => (some (context e), s) | (none, s) => g s)
      s := by
  obtain ⟨houtcome, hoptions⟩ := hf
  rcases h : f s with ⟨_ | e, s'⟩ <;> rw [h] at houtcome hoptions
  · obtain hsame | ⟨e, he, -⟩ := houtcome
    · obtain ⟨houtcome', hoptions'⟩ := hg s' hoptions
      constructor
      · simpa only [h, hsame] using houtcome'
      · simpa only [h] using hoptions'.trans hoptions
    · cases he
  · constructor
    · obtain hsame | ⟨e', he, hlimit⟩ := houtcome
      · exact .inl (by simp only [h, hsame])
      · cases he
        exact .inr ⟨context e, by simp only [h], hcontext e hlimit⟩
    · simpa only [h] using hoptions

/-- **Looking for the next solution**: with the limit it is found as without, or the search ends
    with the error of the limit. -/
theorem next_truncates (hpos : 0 < N) (hN : s.options.maxSteps = N) {q : Solutions} (hq : q.Fresh) :
    (s.unlimited.next q = ((s.next q).1, (s.next q).2.1, (s.next q).2.2.unlimited) ∨
      (s.next q).1 = (none, some (.running (.stepLimit N)))) ∧
    (s.next q).2.2.options = s.options := by
  have hworld : s.world.maxSteps = N := hN
  refine ⟨?_, rfl⟩
  by_cases hwithin : q.executed s.world.unlimited s.options.patience ≤ N
  · refine .inl ?_
    have hrun := hq.run_within hworld hpos hwithin
    have hpatience : s.unlimited.options.patience = s.options.patience := rfl
    simp only [next, search, Solutions.next, world_unlimited, hpatience, hrun]
    rfl
  · refine .inr ?_
    have hrun := hq.run_beyond hworld hpos (Nat.lt_of_not_le hwithin)
    simp only [next, search, Solutions.next]
    rcases h : q.run s.world false s.options.patience with ⟨snapshot, q'⟩
    rw [h] at hrun
    obtain rfl := hrun
    rfl

theorem runDirective_truncates (hpos : 0 < N) (hN : s.options.maxSteps = N) (goal : Term) :
    Truncates N (·.runDirective goal) s := by
  obtain ⟨hcompile, hoptions⟩ := compileWith_ignores (·.query goal) s
  -- Compiling and asking do not look at the limit, so only the search of the directive may differ.
  rcases h : s.compileWith (·.query goal) with ⟨e | c, s₁⟩ <;> simp only [h] at hcompile hoptions
  · constructor <;> simp only [runDirective, h, hcompile]
    · exact .inl trivial
    · exact hoptions
  obtain ⟨hsolutions, hoptions₁⟩ := solutions_ignores c s₁
  rcases h₁ : s₁.solutions c with ⟨e | q, s₂⟩ <;> simp only [h₁] at hsolutions hoptions₁
  · constructor <;> simp only [runDirective, h, hcompile, h₁, hsolutions]
    · exact .inl trivial
    · exact hoptions₁.trans hoptions
  have hN₂ : s₂.options.maxSteps = N := by rw [hoptions₁, hoptions, hN]
  obtain ⟨hnext, hoptions₂⟩ := next_truncates hpos hN₂ (fresh_of_solutions h₁)
  constructor <;> simp only [runDirective, h, hcompile, h₁, hsolutions]
  · rcases hnext with hsame | hlimit
    · rw [hsame]
      rcases s₂.next q with ⟨⟨found, _ | e⟩, q', s₃⟩
      · cases found <;> exact .inl rfl
      · exact .inl rfl
    · rcases hnext : s₂.next q with ⟨⟨found, e⟩, q', s₃⟩
      rw [hnext] at hlimit
      cases hlimit
      exact .inr ⟨_, rfl, rfl⟩
  · rw [← hoptions, ← hoptions₁, ← hoptions₂]
    rcases s₂.next q with ⟨⟨found, _ | e⟩, q', s₃⟩
    · cases found <;> rfl
    · rfl

/-- A clause of a program, or a directive, is loaded alike up to the limit. -/
theorem loadTerm_truncates (hpos : 0 < N) (hN : s.options.maxSteps = N) (d : Destination)
    (t : Term) : Truncates N (·.loadTerm d t) s := by
  unfold loadTerm
  split
  · exact runDirective_truncates hpos hN _
  · obtain ⟨hcompile, hoptions⟩ := compileWith_ignores (·.clause t) s
    rcases h : s.compileWith (·.clause t) with ⟨e | c, s₁⟩ <;> simp only [h] at hcompile hoptions
    · constructor <;> simp only [h, hcompile]
      · exact .inl trivial
      · exact hoptions
    · have hinsert := insert_ignores d c s₁
      constructor <;> simp only [h, hcompile]
      · exact .inl hinsert.unlimited
      · exact hinsert.options.trans hoptions

theorem loadTerms_truncates (hpos : 0 < N) (d : Destination) (ts : List Term) :
    ∀ {s : Session}, s.options.maxSteps = N → Truncates N (loadTerms d ts) s := by
  induction ts with
  | nil => exact fun _ => ⟨.inl rfl, rfl⟩
  | cons t ts ih =>
    exact fun hN => (loadTerm_truncates hpos hN d t).andThen id (fun _ h => h)
      fun s' hs' => ih (hs' ▸ hN)

/-- **Loading a program.** -/
theorem load_truncates (hpos : 0 < N) (hN : s.options.maxSteps = N) (d : Destination)
    (source : String) : Truncates N (·.load d source) s := by
  cases hread : readProgram {} source 0 with
  | error e => constructor <;> simp only [load_error hread]; exact .inl trivial
  | ok ts =>
    constructor <;> simp only [load_ok hread]
    · exact (loadTerms_truncates hpos d ts hN).outcome
    · exact (loadTerms_truncates hpos d ts hN).options

-- The steps of loading are compared as they stand, without the text that is read.
attribute [local irreducible] Session.load in
/-- **Loading libraries.** -/
theorem loadLibraries_truncates (hpos : 0 < N) (ls : List Library) :
    ∀ {s : Session}, s.options.maxSteps = N → Truncates N (loadLibraries ls) s := by
  induction ls with
  | nil => exact fun _ => ⟨.inl rfl, rfl⟩
  | cons l ls ih =>
    exact fun hN => (load_truncates hpos hN .builtin l.source).andThen _ (fun _ h => h)
      fun s' hs' => ih (hs' ▸ hN)

/-- **Opening a session.** -/
theorem start_truncates (hpos : 0 < N) (options : SessionOptions) :
    (start (options.limited 0) =
        ((start (options.limited N)).1, (start (options.limited N)).2.unlimited) ∨
      ∃ e, (start (options.limited N)).1 = some e ∧ e.Limits N) ∧
    (start (options.limited N)).2.options = options.limited N := by
  have hnatives (k : Nat) : (options.limited k).natives = options.natives := rfl
  have hlibraries (k : Nat) : (options.limited k).libraries = options.libraries := rfl
  cases hregister : Registry.core.registerAll options.natives with
  | error e =>
    simp only [start, hnatives, hregister]
    exact ⟨.inl rfl, trivial⟩
  | ok natives =>
    let blank : Session :=
      { options := options.limited N, natives
        base := (({} : KnowledgeBase).installNatives natives).1, transcript := {}
        cache := startCache options.caching
        compiler := { id := options.id, natives := natives.signatures } }
    obtain ⟨hlog, hoptions⟩ :=
      foldl_logDebug_ignores (({} : KnowledgeBase).installNatives natives).2 blank
    have hload := loadLibraries_truncates (N := N) hpos options.libraries (by rw [hoptions]; rfl)
    -- With both limits the session starts with the same natives and loads the same libraries.
    have hstart : start (options.limited N) = loadLibraries options.libraries
        ((({} : KnowledgeBase).installNatives natives).2.foldl logDebug blank) := by
      simp only [start, hnatives, hregister, hlibraries]
      rfl
    have hstart₀ : start (options.limited 0) = loadLibraries options.libraries
        ((({} : KnowledgeBase).installNatives natives).2.foldl logDebug blank).unlimited := by
      rw [← hlog]
      simp only [start, hnatives, hregister, hlibraries]
      rfl
    rw [hstart, hstart₀]
    exact ⟨hload.outcome, hload.options.trans hoptions⟩

/-! ## §6. Programs and questions. -/

/-- The search for the answers of a question starts in the world of the session. -/
theorem fresh_of_query {source : String} {q : Solutions} (h : s.query source = (.ok q, s')) :
    q.Fresh := by
  unfold query at h
  split at h
  · cases h
  · exact fresh_of_solutions h

/-- A session that is opened, consults a program and is asked a question with a limit does the same
    without one. -/
theorem query_unlimited {options : SessionOptions} {program question : String} {q : Solutions}
    {s₁ s₂ : Session} (hpos : 0 < N) (hstart : start (options.limited N) = (none, s))
    (hconsult : s.consult program = (none, s₁)) (hquery : s₁.query question = (.ok q, s₂)) :
    (start (options.limited 0) = (none, s.unlimited) ∧
      s.unlimited.consult program = (none, s₁.unlimited) ∧
      s₁.unlimited.query question = (.ok q, s₂.unlimited)) ∧
    s₂.options = options.limited N := by
  obtain ⟨hstart₀, hoptions⟩ := start_truncates hpos options (N := N)
  rw [hstart] at hstart₀ hoptions
  obtain ⟨hconsult₀, hoptions₁⟩ :=
    load_truncates hpos (s := s) (by rw [hoptions]; rfl) .user program
  rw [consult] at hconsult
  simp only [hconsult] at hconsult₀ hoptions₁
  obtain ⟨hquery₀, hoptions₂⟩ := query_ignores question s₁
  simp only [hquery] at hquery₀ hoptions₂
  refine ⟨⟨?_, ?_, hquery₀⟩, by rw [hoptions₂, hoptions₁, hoptions]⟩
  · obtain hsame | ⟨e, he, -⟩ := hstart₀
    · exact hsame
    · cases he
  · obtain hsame | ⟨e, he, -⟩ := hconsult₀
    · exact hsame
    · cases he

/-- **What is found with the limit `N` is the beginning of what is found without one**, and unless
    all is the same the search ended with the error of the limit. -/
structure Begins (N : Nat) (limited whole : Solved) : Prop where
  /-- The first solutions are the same. -/
  solutions : limited.solutions <+: whole.solutions
  /-- All is the same, or there is the error. -/
  outcome : limited = whole ∨ ∃ e, limited.error = some e ∧ e.Limits N

/-- Two that are the same begin alike. -/
theorem Begins.of_eq {limited whole : Solved} (h : limited = whole) : Begins N limited whole :=
  ⟨h ▸ List.prefix_rfl, .inl h⟩

/-- One that hits its limit at once begins alike. -/
theorem Begins.of_limit {e : Error} (h : e.Limits N) (t : Transcript) (whole : Solved) :
    Begins N ⟨[], some e, t⟩ whole where
  solutions := List.nil_prefix
  outcome := .inr ⟨e, rfl, h⟩

/-- Solving one question. -/
theorem solve_begins {options : SessionOptions} (hpos : 0 < N) (k : Nat)
    (program question : String) :
    Begins N (solve (options.limited N) k program question)
      (solve (options.limited 0) k program question) := by
  -- Each stage is the same without a limit, or ends all of it with the error of the limit.
  obtain ⟨hstart₀, hoptions⟩ := start_truncates hpos options (N := N)
  rcases hstart : start (options.limited N) with ⟨_ | e, s⟩ <;> rw [hstart] at hstart₀ hoptions
  case some =>
    obtain hsame | ⟨e', he, hlimit⟩ := hstart₀
    · exact .of_eq (by simp only [solve, hstart, hsame]; rfl)
    · cases he
      simpa only [solve, hstart] using .of_limit hlimit s.transcript _
  obtain ⟨hconsult₀, hoptions₁⟩ :=
    load_truncates hpos (s := s) (by rw [hoptions]; rfl) .user program
  obtain hsame | ⟨e, he, -⟩ := hstart₀
  case inr => cases he
  rcases hconsult : s.load .user program with ⟨_ | e, s₁⟩ <;>
    simp only [hconsult] at hconsult₀ hoptions₁
  case some =>
    obtain hsame₁ | ⟨e', he, hlimit⟩ := hconsult₀
    · exact .of_eq (by simp only [solve, hstart, hsame, consult, hconsult, hsame₁]; rfl)
    · cases he
      simpa only [solve, hstart, consult, hconsult] using .of_limit hlimit s₁.transcript _
  obtain hsame₁ | ⟨e, he, -⟩ := hconsult₀
  case inr => cases he
  obtain ⟨hquery₀, hoptions₂⟩ := query_ignores question s₁
  rcases hquery : s₁.query question with ⟨e | q, s₂⟩ <;> simp only [hquery] at hquery₀ hoptions₂
  · refine .of_eq ?_
    simp only [solve, hstart, hsame, consult, hconsult, hsame₁, hquery, hquery₀]
    rfl
  have hN : s₂.world.maxSteps = N := by rw [world, hoptions₂, hoptions₁, hoptions]; rfl
  obtain ⟨hfirst, hlimit⟩ := (fresh_of_query hquery).upTo hN hpos options.patience k
  constructor <;>
    simp only [solve, hstart, hsame, consult, hconsult, hsame₁, hquery, hquery₀, search,
      world_unlimited, SessionOptions.limited_patience]
  · exact hfirst
  · obtain hequal | hlimit := hlimit
    · rw [hequal]
      exact .inl rfl
    · exact .inr ⟨_, hlimit, rfl⟩

/-- **A STEP LIMIT ONLY TRUNCATES.**  Solving with a limit finds the beginning of what is found
    without one.  A session opened with a limit consults and asks as one without; behind any answers
    found with the limit, which are found without it too, the search for the next one executes no
    more instructions than the limit allows and comes to an end.  That is the error of the limit,
    and the end of all answers, exactly when the search would execute more without a limit;
    otherwise it ends as it does without one, in an answer, exhausted or with an error. -/
theorem limit_truncates (options : SessionOptions) (hpos : 0 < N) (program question : String) :
    (∀ k, Begins N (solve (options.limited N) k program question)
      (solve (options.limited 0) k program question)) ∧
    ∀ s s₁ s₂ q, start (options.limited N) = (none, s) → s.consult program = (none, s₁) →
      s₁.query question = (.ok q, s₂) →
      (start (options.limited 0) = (none, s.unlimited) ∧
        s.unlimited.consult program = (none, s₁.unlimited) ∧
        s₁.unlimited.query question = (.ok q, s₂.unlimited)) ∧
      ∀ as q₁, Solutions.Finds s₂.world q as q₁ →
        Solutions.Finds s₂.unlimited.world q as q₁ ∧
        (∀ n, q₁.executed s₂.world n ≤ N) ∧
        (∃ r q₂, Solutions.Gives s₂.world .whole q₁ r q₂) ∧
        ∀ r q₂, Solutions.Gives s₂.world .whole q₁ r q₂ →
          r.steps ≤ N ∧
          (r.error = some (.running (.stepLimit N)) ↔
            ∃ n, N < q₁.executed s₂.unlimited.world n) ∧
          (r.error = some (.running (.stepLimit N)) → q₂.done = true ∧ q₂.error = r.error) ∧
          ((∀ n, q₁.executed s₂.unlimited.world n ≤ N) →
            Solutions.Gives s₂.unlimited.world .whole q₁ r q₂) := by
  refine ⟨fun k => solve_begins hpos k program question, ?_⟩
  intro s s₁ s₂ q hstart hconsult hquery
  obtain ⟨hsame, hoptions⟩ := query_unlimited hpos hstart hconsult hquery
  have hN : s₂.world.maxSteps = N := by rw [world, hoptions]; rfl
  have hq : q.Fresh := fresh_of_query hquery
  refine ⟨hsame, fun as q₁ hfinds => ?_⟩
  have hq₁ : q₁.Fresh := hfinds.fresh hq
  refine ⟨hfinds.unlimited hN hpos hq, hq₁.executed_le hN hpos, hq₁.exists_gives hN hpos,
    fun r q₂ hgives => ⟨?_, hq₁.limit_iff hN hpos hgives, fun hlimit => ?_, fun hwithin => ?_⟩⟩
  -- No run executes more than the limit allows, so neither does this one.
  · obtain ⟨n, hrun⟩ := hgives.exists_run
    have hsteps := (hq₁.steps_spec (w := s₂.world) n).1
    rw [show q₁.run s₂.world false n = (r, q₂) from hrun] at hsteps
    exact hsteps.trans (hq₁.executed_le hN hpos n)
  · obtain ⟨n, hrun, hs⟩ := (if_pos rfl).mp hgives
    obtain ⟨hclosed, -⟩ := hq₁.closed hrun hs
    cases hclosed with
    | answer => cases hlimit
    | finished hdone => exact ⟨hdone, rfl⟩
  · exact (hq₁.gives_iff hN hpos fun ⟨n, hn⟩ => Nat.not_lt_of_le (hwithin n) hn).1 hgives

/-- The code of `true ; (true ; true)`. -/
def threeWays : Clause :=
  ⟨querySignature, [("g0", [{ op := .tryElse, label := "g1" }, { op := .end_ }]),
    ("g1", [{ op := .tryFinally }, { op := .tryElse, label := "g2" }, { op := .end_ }]),
    ("g2", [{ op := .end_ }])], false, []⟩

/-- The question of the example is answered three times. -/
theorem query_threeWays (hcache : s.cache = none) (hdebug : s.options.debug = false)
    (hcompiler : s.compiler = { natives := Registry.core.signatures }) :
    s.query "true ; (true ; true)" = s.solutions threeWays := by
  obtain ⟨⟨debug, maxSteps, unknownFails, libraries, added, caching, id, patience⟩, natives, base,
    compiler, cache, transcript⟩ := s
  obtain rfl : debug = false := hdebug
  obtain rfl : cache = none := hcache
  obtain rfl : compiler = _ := hcompiler
  with_unfolding_all rfl

/-- The search for the first answer takes two steps, that for the second takes three. -/
theorem run_threeWays {w : World} (hw : w.maxSteps = 2) :
    let r := Solutions.run w false 2 { machine := ({} : Machine).posed threeWays }
    r.1 = ⟨.answer, 2, some ⟨[]⟩, none⟩ ∧ r.2.executed w.unlimited 3 = 3 := by
  obtain ⟨base, natives, maxSteps, unknownFails, debug, complaint⟩ := w
  obtain rfl : maxSteps = 2 := hw
  constructor <;> cbv

/-- Two steps are enough for the first of three answers, and not for the second. -/
theorem limit_truncates_threeWays : ∃ s s₁ s₂ q q₁ r q₂,
    start (SessionOptions.limited 2 { patience := 100 }) = (none, s) ∧
    s.consult "" = (none, s₁) ∧ s₁.query "true ; (true ; true)" = (.ok q, s₂) ∧
    Solutions.Finds s₂.unlimited.world q [(⟨[]⟩, 2)] q₁ ∧
    2 < q₁.executed s₂.unlimited.world 3 ∧ Solutions.Gives s₂.world .whole q₁ r q₂ ∧
    r.steps ≤ 2 ∧ r.error = some (.running (.stepLimit 2)) ∧ q₂.done = true := by
  let blank : Session :=
    { options := SessionOptions.limited 2 { patience := 100 }, natives := Registry.core
      base := (({} : KnowledgeBase).installNatives Registry.core).1, transcript := {}, cache := none
      compiler := { natives := Registry.core.signatures } }
  obtain ⟨t, ht⟩ :=
    exists_foldl_logDebug (({} : KnowledgeBase).installNatives Registry.core).2 blank
  let s : Session := { blank with transcript := t }
  have hstart : start (SessionOptions.limited 2 { patience := 100 }) = (none, s) :=
    Prod.ext rfl ht
  have hconsult : s.consult "" = (none, s) := by with_unfolding_all rfl
  have hquery := query_threeWays (s := s) rfl rfl rfl
  let q : Solutions := { machine := ({} : Machine).posed threeWays }
  let s₂ : Session := { s with base := s.base.posed threeWays }
  have hset : s.solutions threeWays = (.ok q, s₂) := rfl
  rw [hset] at hquery
  let q₁ := (q.run s₂.world false 2).2
  obtain ⟨hrun, hbeyond⟩ := run_threeWays (w := s₂.world) rfl
  have hfinds : Solutions.Finds s₂.world q [(⟨[]⟩, 2)] q₁ :=
    .cons ((if_pos rfl).mpr ⟨2, Prod.ext hrun rfl, by simp [Snapshot.Suspended]⟩) (.nil q₁)
  obtain ⟨-, hsearch⟩ :=
    limit_truncates { patience := 100 } (N := 2) (by decide) "" "true ; (true ; true)"
  obtain ⟨hwhole, -, ⟨r, q₂, hgives⟩, hends⟩ :=
    (hsearch s s s₂ q hstart hconsult hquery).2 _ q₁ hfinds
  obtain ⟨hsteps, hlimit, hover, -⟩ := hends r q₂ hgives
  have hlong : 2 < q₁.executed s₂.unlimited.world 3 :=
    (Nat.lt_succ_self 2).trans_eq hbeyond.symm
  have herror := hlimit.2 ⟨3, hlong⟩
  exact ⟨s, s, s₂, q, q₁, r, q₂, hstart, hconsult, hquery, hwhole, hlong, hgives, hsteps, herror,
    (hover herror).1⟩

end Session

end PrologMachine
