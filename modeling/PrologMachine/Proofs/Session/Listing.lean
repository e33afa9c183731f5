/-
  PrologMachine.Proofs.Session.Listing ── **PREDICATES ARE KEPT APART.**

  Clauses are stored and listed by the written form of their predicate.  A listing splits that text
  at its last slash and reads the digits behind it, and so finds the predicate it was written from,
  whatever slashes and digits the name has.

    * `Number.readWhole_wholeText`: decimal texts are read back.
    * `Session.readSignature_text`: so are written forms.
    * `Session.predicates_apart`: a store is a map from predicates to clauses, and a listing shows
      the clauses of one predicate.
-/
import PrologMachine.Proofs.KnowledgeBase
import PrologMachine.Session.Basic

namespace PrologMachine

/-! ## §1. Decimal texts are read back. -/

namespace Number

open PrologMachine.Text (isAsciiDigit)

theorem isAsciiDigit_of_isDigit {c : Char} (hc : c.isDigit = true) : isAsciiDigit c = true := by
  simpa [isAsciiDigit, Char.isDigit, Char.le_def] using hc

/-- Digits are read to the number that they write, as long as it fits. -/
theorem readNatural_eq (ds : List Char) (hds : ∀ c ∈ ds, c.isDigit = true) : ∀ n : Nat,
    Nat.ofDigitChars 10 ds n < 2 ^ 64 → readNatural n ds = .ok (Nat.ofDigitChars 10 ds n) := by
  induction ds with
  | nil => intro n _; rfl
  | cons c ds ih =>
    intro n hn
    have hdigit := isAsciiDigit_of_isDigit (hds c List.mem_cons_self)
    have hvalue : n * 10 + digitValue c = 10 * n + (c.toNat - '0'.toNat) := by
      rw [digitValue, if_pos hdigit, Nat.mul_comm]
    rw [Nat.ofDigitChars_cons] at hn ⊢
    -- The number never gets smaller again.
    have hle : 10 * n + (c.toNat - '0'.toNat) ≤
        Nat.ofDigitChars 10 ds (10 * n + (c.toNat - '0'.toNat)) := by
      rw [Nat.ofDigitChars_eq_ofDigitChars_zero]
      exact (Nat.le_mul_of_pos_left _ (Nat.pow_pos (by decide))).trans (Nat.le_add_right _ _)
    have hfits : ¬ Nat.pow 2 64 ≤ 10 * n + (c.toNat - '0'.toNat) :=
      Nat.not_le.2 (hle.trans_lt hn)
    simp only [readNatural, hdigit, Bool.not_true, Bool.false_eq_true, if_false, hvalue, hfits]
    exact ih (fun d hd => hds d (List.mem_cons_of_mem c hd)) _ hn

theorem readNatural_toDigits {n : Nat} (hn : n < 2 ^ 64) :
    readNatural 0 (Nat.toDigits 10 n) = .ok n := by
  have hread := readNatural_eq (Nat.toDigits 10 n)
    (fun c hc => Nat.isDigit_of_mem_toDigits (by decide) (by decide) hc) 0
  rw [Nat.ofDigitChars_ten_toDigits] at hread
  exact hread hn

theorem splitSign_toDigits (n : Nat) :
    splitSign (Nat.toDigits 10 n) = (false, Nat.toDigits 10 n) := by
  have hminus := notMem_toDigits (c := '-') (by decide) n
  have hplus := notMem_toDigits (c := '+') (by decide) n
  unfold splitSign
  split
  · next heq => exact absurd (heq ▸ List.mem_cons_self) hminus
  · next heq => exact absurd (heq ▸ List.mem_cons_self) hplus
  · rfl

/-- **A whole number of sixty-four bits is read back from its text.** -/
theorem readWhole_wholeText {n : Int} (hlow : -2 ^ 63 ≤ n) (hhigh : n < 2 ^ 63) :
    readWhole (wholeText n).toList = .ok n := by
  have hsize : n.natAbs < 2 ^ 64 := by omega
  have hnonempty : (Nat.toDigits 10 n.natAbs).isEmpty = false := by
    simp [Nat.toDigits_ne_nil]
  rw [toList_wholeText]
  split
  · next hneg =>
    have hfits : ¬ Nat.pow 2 63 < n.natAbs := by
      show ¬ 2 ^ 63 < n.natAbs
      omega
    have hvalue : |n| = -n := abs_of_neg hneg
    simp [readWhole, splitSign, hnonempty, readNatural_toDigits hsize, hfits, hvalue]
  · next hpos =>
    have hfits : ¬ Nat.pow 2 63 ≤ n.natAbs := by
      show ¬ 2 ^ 63 ≤ n.natAbs
      omega
    have hvalue : |n| = n := abs_of_nonneg (by omega)
    simp [readWhole, splitSign_toDigits, hnonempty, readNatural_toDigits hsize, hfits, hvalue]

end Number

/-! ## §2. Written forms are read back. -/

namespace Session

open Text (Glyph glyphs faces)

variable {sig : Signature}

theorem map_face_map_whole (cs : List Char) : (cs.map Glyph.whole).map Glyph.face = cs := by
  simp [Function.comp_def, Glyph.face]

/-- A text is split at its last slash. -/
theorem splitIndicator_append {gs ds : List Glyph} (hds : .whole '/' ∉ ds) :
    splitIndicator (gs ++ .whole '/' :: ds) = some (gs, ds) := by
  have hspan : (gs ++ .whole '/' :: ds).reverse.span (· ≠ .whole '/') =
      (ds.reverse, .whole '/' :: gs.reverse) := by
    have hall : ∀ g ∈ ds.reverse, decide (g ≠ .whole '/') = true := by
      intro g hg
      have hne : g ≠ .whole '/' := by
        rintro rfl
        exact hds (List.mem_reverse.1 hg)
      simpa using hne
    rw [List.span_eq_takeWhile_dropWhile, List.reverse_append, List.reverse_cons,
      List.append_assoc, List.singleton_append, List.takeWhile_append_of_pos hall,
      List.dropWhile_append_of_pos hall]
    simp
  unfold splitIndicator
  rw [hspan]
  simp

/-- **A written form denotes the predicate it was written from.** -/
theorem readSignature_text (hname : sig.name ≠ "") (hlow : -2 ^ 63 ≤ sig.arity)
    (hhigh : sig.arity < 2 ^ 63) : readSignature (glyphs sig.text) = .ok sig := by
  have hsplit : splitIndicator (glyphs sig.text) =
      some (glyphs sig.name, (wholeText sig.arity).toList.map .whole) := by
    rw [glyphs, sig.toList_text, List.map_append, List.map_cons]
    exact splitIndicator_append (by simp [slash_notMem_wholeText])
  have hne : glyphs sig.name ≠ [] := by simpa [glyphs] using hname
  unfold readSignature
  rw [hsplit]
  cases hglyphs : glyphs sig.name with
  | nil => exact absurd hglyphs hne
  | cons g gs =>
    have hfaces : faces (g :: gs) = sig.name := by
      rw [← hglyphs, faces, glyphs, map_face_map_whole, String.ofList_toList]
    simp only [map_face_map_whole, Number.readWhole_wholeText hlow hhigh, hfaces]

/-- **PREDICATES ARE KEPT APART.**  Whatever operations are performed on an empty store:

    * a predicate has the clauses given to it since it was last replaced or removed, in order, and
      without any it is unknown;
    * an operation on another predicate does not change what it has, and a refused operation
      changes nothing; a clause with a name and code is not refused.

    A session lists a predicate that has a name under its written form. -/
theorem predicates_apart :
    (∀ (ops : List StoreOp) (s : Signature),
      let since := StoreOp.sinceReset s (({} : ClauseStore).accepted ops)
      (({} : ClauseStore).performAll ops).get s =
        if since.filterMap (StoreOp.clauseFor? s) = [] then .error (.unknownPredicate s)
        else .ok (since.filterMap (StoreOp.clauseFor? s))) ∧
    (∀ (db : ClauseStore) (op : StoreOp) (s : Signature), op.signature ≠ s →
      (db.perform op).2.get s = db.get s) ∧
    (∀ (db : ClauseStore) (op : StoreOp), (db.perform op).1.isSome = true →
      (db.perform op).2 = db) ∧
    (∀ (db : ClauseStore) (s : Signature) (c : Clause), s.name ≠ "" → 0 ≤ s.arity →
      (c.native = true ∨ c.code ≠ []) → (db.perform (.insert s (some c))).1 = none ∧
        (db.perform (.replace s (some c))).1 = none) ∧
    ∀ (session : Session) (s : Signature) (cs : List Clause), s.name ≠ "" → -2 ^ 63 ≤ s.arity →
      s.arity < 2 ^ 63 → session.base.get s = .ok cs →
        session.listing (glyphs s.text) = .ok (Clause.texts cs) := by
  refine ⟨fun ops s => ?_, fun db op s hs => ?_, fun db op h => ClauseStore.perform_refused h,
    fun db s c hname harity hcode => ClauseStore.perform_accepted hname harity hcode,
    fun session s cs hname hlow hhigh hget => ?_⟩
  -- An operation that is refused changes nothing, and the others add up.
  · have hclauses := ClauseStore.clauses_performAll (s := s) ops {}
    have hempty : ({} : ClauseStore).clauses s = [] := rfl
    rw [hempty, ite_self, List.nil_append] at hclauses
    simp only [ClauseStore.get, hclauses]
    cases (StoreOp.sinceReset s (({} : ClauseStore).accepted ops)).filterMap
      (StoreOp.clauseFor? s) <;> rfl
  · simp only [ClauseStore.get, ClauseStore.clauses_perform_of_ne hs]
  · simp only [Session.listing, readSignature_text hname hlow hhigh, hget]

/-- A predicate whose name looks like a written form. -/
def slashed : Signature := ⟨"a/1", 2⟩

/-- A clause for it. -/
def slashedClause (native : Bool) : Clause :=
  ⟨slashed, [(headLabel, [{ op := .proceed }])], native, []⟩

/-- Operations on it, on the predicate that its name would denote, and on one without a name. -/
def slashedOps : List StoreOp :=
  [.insert slashed (some (slashedClause false)), .insert ⟨"a", 1⟩ (some (slashedClause false)),
    .replace slashed (some (slashedClause true)), .insert ⟨"", 2⟩ (some (slashedClause false)),
    .replace slashed none, .insert slashed (some (slashedClause false)), .remove ⟨"a", 1⟩]

/-- A session with what they leave. -/
def slashedSession : Session :=
  { options := { patience := 0 }, natives := {}, compiler := {}, cache := none, transcript := {}
    base := { user := ({} : ClauseStore).performAll slashedOps } }

/-- The predicate keeps its clauses while the other one is removed, and is listed. -/
theorem predicates_apart_slashed :
    slashedSession.base.user.get ⟨"a", 1⟩ = .error (.unknownPredicate ⟨"a", 1⟩) ∧
    slashedSession.listing (glyphs slashed.text) =
      .ok (Clause.texts [slashedClause true, slashedClause false]) := by
  obtain ⟨hget, -, -, -, hlisting⟩ := predicates_apart
  have hgone : slashedSession.base.user.get ⟨"a", 1⟩ = .error (.unknownPredicate ⟨"a", 1⟩) :=
    hget slashedOps ⟨"a", 1⟩
  have hkept : slashedSession.base.user.get slashed =
      .ok [slashedClause true, slashedClause false] := hget slashedOps slashed
  refine ⟨hgone, hlisting slashedSession slashed _ (by decide) (by decide) (by decide) ?_⟩
  rw [KnowledgeBase.get, hkept]

end Session

end PrologMachine
