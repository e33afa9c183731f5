/-
  PrologMachine.Proofs.Heap.Writing ── **THE WRITER COMES TO AN END.**

  The writer goes down into a value and remembers the structures that it is inside.  Described
  without a bound on its depth, it keeps one set of open structures: a compound is opened in front
  of its arguments and closed behind them, the cells of a list are opened one by one and closed
  together.  Where chains of variables end, it comes to an end on every value, cyclic ones included.

    * `Heap.Ends`: where a chain of bound variables ends.
    * `Heap.Writes`: a run of the writer.
    * `Heap.Writes.closes`: a run closes what it opened; `Heap.Writes.unique`: there is only one.
    * `Heap.writes_iff`: the run on a value gives its text.
-/
import PrologMachine.Heap.Writer
import PrologMachine.Proofs.Heap.Shape

namespace PrologMachine

namespace Heap

variable {h : Heap} {s : StructId} {t u u' : Value}

/-! ## §1. The ends of chains. -/

/-- Following bound variables from a value ends at another, which is no bound variable. -/
inductive Ends (h : Heap) : Value → Value → Prop where
  /-- An unbound variable. -/
  | free {v : VarId} (hv : h.binding? v = none) : Ends h (.var v) (.var v)
  /-- A bound variable. -/
  | bound {v : VarId} {t u : Value} (hv : h.binding? v = some t) (ht : Ends h t u) :
      Ends h (.var v) u
  /-- A constant. -/
  | const {c : Constant} : Ends h (.const c) (.const c)
  /-- A structure. -/
  | struct {s : StructId} : Ends h (.struct s) (.struct s)
  /-- A missing term. -/
  | absent : Ends h .absent .absent

namespace Ends

theorem unique (ht : h.Ends t u) (ht' : h.Ends t u') : u' = u := by
  induction ht with
  | free hv =>
    cases ht' with
    | free => rfl
    | bound hv' => rw [hv] at hv'; cases hv'
  | bound hv _ ih =>
    cases ht' with
    | free hv' => rw [hv] at hv'; cases hv'
    | bound hv' ht' =>
      rw [hv] at hv'
      cases hv'
      exact ih ht'
  | const => cases ht'; rfl
  | struct => cases ht'; rfl
  | absent => cases ht'; rfl

/-- The end of a chain is the end of its own chain. -/
theorem root (ht : h.Ends t u) : h.Ends u u := by
  induction ht with
  | free hv => exact .free hv
  | bound _ _ ih => exact ih
  | const => exact .const
  | struct => exact .struct
  | absent => exact .absent

/-- The end of a chain is part of its start. -/
theorem part (ht : h.Ends t u) : h.Part t u := by
  induction ht with
  | bound hv _ ih => exact (Part.bound .whole hv).trans ih
  | _ => exact .whole

end Ends

/-- **A chain ends at what its value stands for.** -/
theorem ends_deref {rank : VarId → Nat} (hr : h.Descends rank) (t : Value) :
    h.Ends t (h.deref t) := by
  induction t using hr.chain_induction with
  | free v hv => rw [deref_free hv]; exact .free hv
  | bound v t hv ih => rw [hr.deref_bound hv]; exact .bound hv ih
  | const c => exact .const
  | struct s => exact .struct
  | absent => exact .absent

/-! ## §2. Runs of the writer. -/

/-- The first element and the tail of a list cell. -/
def cell? (h : Heap) (s : StructId) : Option (Value × Value) :=
  match (h.structCell s).name, (h.structCell s).args with
  | "cons", [x, xs] => some (x, xs)
  | _, _ => none

/-- A list cell is a structure with that name and two arguments. -/
theorem cell?_eq_some {x xs : Value} : h.cell? s = some (x, xs) ↔
    (h.structCell s).name = "cons" ∧ (h.structCell s).args = [x, xs] := by
  unfold cell?
  split <;> simp_all

/-- What the writer is about to do. -/
inductive Task where
  /-- Write a value. -/
  | value (t : Value)
  /-- Write the end of a chain. -/
  | root (u : Value)
  /-- Write arguments, each behind its comma. -/
  | rest (ts : List Value)
  /-- Write what follows the elements of a list whose cells `cells` are open. -/
  | tail (cells : Finset StructId) (u : Value)

/-- A run of the writer: with these structures open, a task, the text that is written, and the
    structures that are open afterwards.  A structure that is open is written as `mark`, if there is
    one; otherwise there is no run that meets it again. -/
inductive Writes (h : Heap) (mark : Option (List Char)) :
    Finset StructId → Task → List Char → Finset StructId → Prop where
  /-- A value is written as the end of its chain. -/
  | value {O O' : Finset StructId} {t u : Value} {cs : List Char} (ht : h.Ends t u)
      (hu : Writes h mark O (.root u) cs O') : Writes h mark O (.value t) cs O'
  /-- A missing term. -/
  | absent {O : Finset StructId} : Writes h mark O (.root .absent) absentChars O
  /-- A variable. -/
  | var {O : Finset StructId} {v : VarId} :
      Writes h mark O (.root (.var v)) (varChars (h.varCell v).name (h.varCell v).id) O
  /-- A constant. -/
  | const {O : Finset StructId} {c : Constant} : Writes h mark O (.root (.const c)) c.value.chars O
  /-- A structure inside itself. -/
  | again {O : Finset StructId} {s : StructId} {cs : List Char} (hs : s ∈ O)
      (hmark : mark = some cs) : Writes h mark O (.root (.struct s)) cs O
  /-- A list. -/
  | list {O O₁ O₂ : Finset StructId} {s : StructId} {x xs u : Value} {cs ds : List Char}
      (hs : s ∉ O) (hcell : h.cell? s = some (x, xs))
      (hx : Writes h mark (insert s O) (.value x) cs O₁) (hend : h.Ends xs u)
      (hxs : Writes h mark O₁ (.tail {s} u) ds O₂) :
      Writes h mark O (.root (.struct s)) ('[' :: cs ++ ds ++ [']']) O₂
  /-- A structure without arguments. -/
  | atom {O : Finset StructId} {s : StructId} (hs : s ∉ O) (hargs : (h.structCell s).args = []) :
      Writes h mark O (.root (.struct s)) (atomChars (h.structCell s).name.toList)
        ((insert s O).erase s)
  /-- A structure with arguments. -/
  | compound {O O₁ O₂ : Finset StructId} {s : StructId} {x : Value} {xs : List Value}
      {cs ds : List Char} (hs : s ∉ O) (hcell : h.cell? s = none)
      (hargs : (h.structCell s).args = x :: xs)
      (hx : Writes h mark (insert s O) (.value x) cs O₁) (hxs : Writes h mark O₁ (.rest xs) ds O₂) :
      Writes h mark O (.root (.struct s))
        (atomChars (h.structCell s).name.toList ++ '(' :: cs ++ ds ++ [')']) (O₂.erase s)
  /-- No more arguments. -/
  | restNil {O : Finset StructId} : Writes h mark O (.rest []) [] O
  /-- An argument. -/
  | restCons {O O₁ O₂ : Finset StructId} {x : Value} {xs : List Value} {cs ds : List Char}
      (hx : Writes h mark O (.value x) cs O₁) (hxs : Writes h mark O₁ (.rest xs) ds O₂) :
      Writes h mark O (.rest (x :: xs)) (',' :: cs ++ ds) O₂
  /-- A list inside itself. -/
  | tailAgain {O cells : Finset StructId} {s : StructId} {x xs : Value} {cs : List Char}
      (hs : s ∈ O) (hcell : h.cell? s = some (x, xs)) (hmark : mark = some cs) :
      Writes h mark O (.tail cells (.struct s)) ('|' :: cs) (O \ cells)
  /-- An element. -/
  | tailCell {O O₁ O₂ cells : Finset StructId} {s : StructId} {x xs u : Value} {cs ds : List Char}
      (hs : s ∉ O) (hcell : h.cell? s = some (x, xs))
      (hx : Writes h mark (insert s O) (.value x) cs O₁) (hend : h.Ends xs u)
      (hxs : Writes h mark O₁ (.tail (insert s cells) u) ds O₂) :
      Writes h mark O (.tail cells (.struct s)) (',' :: cs ++ ds) O₂
  /-- The end of a list. -/
  | tailNil {O cells : Finset StructId} {c : Constant} (hc : c.value = .nil) :
      Writes h mark O (.tail cells (.const c)) [] (O \ cells)
  /-- A tail that is no list. -/
  | tailEnd {O O₁ cells : Finset StructId} {u : Value} {cs : List Char}
      (hnil : ∀ c, u = .const c → c.value ≠ .nil) (hcell : ∀ s, u = .struct s → h.cell? s = none)
      (hu : Writes h mark O (.value u) cs O₁) :
      Writes h mark O (.tail cells u) ('|' :: cs) (O₁ \ cells)

/-- The structures that are open behind a task. -/
def Task.leaves (O : Finset StructId) : Task → Finset StructId
  | .tail cells _ => O \ cells
  | _ => O

namespace Writes

variable {mark : Option (List Char)} {O O' O'' : Finset StructId} {k : Task} {cs ds : List Char}

/-- **A run closes what it opened.**  What it leaves open was open before. -/
theorem closes (hw : h.Writes mark O k cs O') : O' = k.leaves O := by
  -- Whatever is opened is closed again where the text of the structure ends; the cells of a list end
  -- together.
  induction hw with
  | value _ _ ih => exact ih
  | absent => rfl
  | var => rfl
  | const => rfl
  | again => rfl
  | list hs _ _ _ _ ihx ihxs =>
    subst ihx
    rw [ihxs]
    ext s'
    simp [Task.leaves]
    grind
  | atom hs _ => exact Finset.erase_insert hs
  | compound hs _ _ _ _ ihx ihxs =>
    subst ihx
    rw [ihxs]
    exact Finset.erase_insert hs
  | restNil => rfl
  | restCons _ _ ihx ihxs => exact ihxs.trans ihx
  | tailAgain => rfl
  | tailCell hs _ _ _ _ ihx ihxs =>
    subst ihx
    rw [ihxs]
    ext s'
    simp [Task.leaves]
    grind
  | tailNil => rfl
  | tailEnd _ _ _ ih =>
    rw [ih]
    rfl

/-- The writer leaves open what its task leaves. -/
theorem closed (hw : h.Writes mark O k cs O') : h.Writes mark O k cs (k.leaves O) :=
  hw.closes ▸ hw

/-- **There is only one run.** -/
theorem unique (hw : h.Writes mark O k cs O') (hw' : h.Writes mark O k ds O'') : ds = cs := by
  -- What is open, and the shape of the structure, leave one rule for each task.  The runs on the
  -- parts start with the same structures open, since those before them close what they opened.
  induction hw generalizing ds O'' with
  | value ht _ ih =>
    cases hw' with
    | value ht' hu' =>
      obtain rfl := ht.unique ht'
      exact ih hu'
  | absent => cases hw'; rfl
  | var => cases hw'; rfl
  | const => cases hw'; rfl
  | again hs hmark =>
    cases hw' with
    | again _ hmark' => exact Option.some.inj (hmark'.symm.trans hmark)
    | list hs' => exact absurd hs hs'
    | atom hs' => exact absurd hs hs'
    | compound hs' => exact absurd hs hs'
  | list hs hcell hx hend _ ihx ihxs =>
    cases hw' with
    | again hs' => exact absurd hs' hs
    | list _ hcell' hx' hend' hxs' =>
      rw [hcell] at hcell'
      cases hcell'
      obtain rfl := hend.unique hend'
      rw [hx'.closes, ← hx.closes] at hxs'
      rw [ihx hx', ihxs hxs']
    | atom _ hargs => simp [cell?_eq_some.1 hcell] at hargs
    | compound _ hcell' => rw [hcell] at hcell'; cases hcell'
  | atom hs hargs =>
    cases hw' with
    | again hs' => exact absurd hs' hs
    | list _ hcell => simp [cell?_eq_some.1 hcell] at hargs
    | atom => rfl
    | compound _ _ hargs' => rw [hargs] at hargs'; cases hargs'
  | compound hs hcell hargs hx _ ihx ihxs =>
    cases hw' with
    | again hs' => exact absurd hs' hs
    | list _ hcell' => rw [hcell] at hcell'; cases hcell'
    | atom _ hargs' => rw [hargs] at hargs'; cases hargs'
    | compound _ _ hargs' hx' hxs' =>
      rw [hargs] at hargs'
      cases hargs'
      rw [hx'.closes, ← hx.closes] at hxs'
      rw [ihx hx', ihxs hxs']
  | restNil => cases hw'; rfl
  | restCons hx _ ihx ihxs =>
    cases hw' with
    | restCons hx' hxs' =>
      rw [hx'.closes, ← hx.closes] at hxs'
      rw [ihx hx', ihxs hxs']
  | tailAgain hs hcell hmark =>
    cases hw' with
    | tailAgain _ _ hmark' => rw [Option.some.inj (hmark'.symm.trans hmark)]
    | tailCell hs' => exact absurd hs hs'
    | tailEnd _ hnone => rw [hnone _ rfl] at hcell; cases hcell
  | tailCell hs hcell hx hend _ ihx ihxs =>
    cases hw' with
    | tailAgain hs' => exact absurd hs' hs
    | tailCell _ hcell' hx' hend' hxs' =>
      rw [hcell] at hcell'
      cases hcell'
      obtain rfl := hend.unique hend'
      rw [hx'.closes, ← hx.closes] at hxs'
      rw [ihx hx', ihxs hxs']
    | tailEnd _ hnone => rw [hnone _ rfl] at hcell; cases hcell
  | tailNil hc =>
    cases hw' with
    | tailNil => rfl
    | tailEnd hnil => exact absurd hc (hnil _ rfl)
  | tailEnd hnil hnone _ ih =>
    cases hw' with
    | tailAgain _ hcell => rw [hnone _ rfl] at hcell; cases hcell
    | tailCell _ hcell => rw [hnone _ rfl] at hcell; cases hcell
    | tailNil hc => exact absurd hc (hnil _ rfl)
    | tailEnd _ _ hu' => rw [ih hu']

end Writes

/-! ## §3. What the writer does in one step. -/

section Steps

variable {n : Nat} {opened : List StructId} {x xs : Value} {ys : List Value}

attribute [local simp] chars tailChars

/-- A structure that is open is marked. -/
theorem chars_again (hroot : h.deref t = .struct s) (hs : s ∈ opened) :
    h.chars (n + 1) opened t = cycleChars := by
  simp [chars, hroot, hs]

/-- A list is written with brackets. -/
theorem chars_list (hroot : h.deref t = .struct s) (hs : s ∉ opened)
    (hcell : h.cell? s = some (x, xs)) : h.chars (n + 1) opened t =
      '[' :: h.chars n (s :: opened) x ++ h.tailChars n (s :: opened) xs ++ [']'] := by
  obtain ⟨hname, hargs⟩ := cell?_eq_some.1 hcell
  simp [chars, hroot, hs, hname, hargs]

/-- A structure without arguments is written as an atom. -/
theorem chars_atom (hroot : h.deref t = .struct s) (hs : s ∉ opened)
    (hargs : (h.structCell s).args = []) :
    h.chars (n + 1) opened t = atomChars (h.structCell s).name.toList := by
  simp [chars, hroot, hs, hargs]

theorem chars_compound (hroot : h.deref t = .struct s) (hs : s ∉ opened)
    (hcell : h.cell? s = none) (hargs : (h.structCell s).args = x :: ys) :
    h.chars (n + 1) opened t =
      atomChars (h.structCell s).name.toList ++ '(' :: h.chars n (s :: opened) x ++
        ys.flatMap (fun y => ',' :: h.chars n (s :: opened) y) ++ [')'] := by
  -- It would be a list cell.
  have hcons (xs : Value) (hname : (h.structCell s).name = "cons") : ys ≠ [xs] := by
    rintro rfl
    rw [cell?_eq_some.2 ⟨hname, hargs⟩] at hcell
    cases hcell
  simp only [chars, hroot, List.contains_eq_mem, hs, decide_false, Bool.false_eq_true, if_false]
  split
  · next hname hargs' =>
    rw [hargs] at hargs'
    exact absurd (List.cons.inj hargs').2 (hcons _ hname)
  · next hargs' =>
    rw [hargs] at hargs'
    cases hargs'
  · next hargs' _ =>
    rw [hargs] at hargs'
    cases hargs'
    rfl

/-- A tail that is open is marked behind a bar. -/
theorem tailChars_again (hroot : h.deref t = .struct s) (hs : s ∈ opened)
    (hcell : h.cell? s = some (x, xs)) : h.tailChars (n + 1) opened t = '|' :: cycleChars := by
  obtain ⟨hname, hargs⟩ := cell?_eq_some.1 hcell
  simp [tailChars, hroot, hs, hname, hargs]

/-- A list cell in a tail goes on behind a comma. -/
theorem tailChars_cell (hroot : h.deref t = .struct s) (hs : s ∉ opened)
    (hcell : h.cell? s = some (x, xs)) : h.tailChars (n + 1) opened t =
      ',' :: h.chars n (s :: opened) x ++ h.tailChars n (s :: opened) xs := by
  obtain ⟨hname, hargs⟩ := cell?_eq_some.1 hcell
  simp [tailChars, hroot, hs, hname, hargs]

theorem tailChars_end (hnil : ∀ c, h.deref t = .const c → c.value ≠ .nil)
    (hcell : ∀ s, h.deref t = .struct s → h.cell? s = none) :
    h.tailChars (n + 1) opened t = '|' :: h.chars n opened (h.deref t) := by
  simp only [tailChars]
  split
  · next s hroot =>
    split
    · next hname hargs =>
      have hnone := hcell s hroot
      rw [cell?_eq_some.2 ⟨hname, hargs⟩] at hnone
      cases hnone
    · rw [hroot]
  · next hroot => exact absurd rfl (hnil _ hroot)
  · rfl

end Steps

/-! ## §4. The bound on the depth. -/

/-- The structures that are open are different ones of the heap; another one leaves room. -/
theorem length_opened_lt {opened : List StructId} (hnodup : opened.Nodup)
    (hlt : ∀ s ∈ opened, s < h.structs.size) (hs : s < h.structs.size) (hnew : s ∉ opened) :
    opened.length < h.structs.size := by
  have hsub : (s :: opened).Subperm (List.range h.structs.size) :=
    (List.nodup_cons.2 ⟨hnew, hnodup⟩).subperm fun s' hs' => by
      rcases List.mem_cons.1 hs' with rfl | hs'
      · exact List.mem_range.2 hs
      · exact List.mem_range.2 (hlt s' hs')
  simpa using hsub.length_le

/-- A structure with arguments exists. -/
theorem lt_size_of_args (hargs : (h.structCell s).args ≠ []) : s < h.structs.size := by
  by_contra hs
  simp [structCell, Array.getElem?_eq_none (Nat.le_of_not_lt hs)] at hargs

/-- Further arguments are written one after the other. -/
theorem Writes.rest_flatMap {mark : Option (List Char)} {O : Finset StructId} {xs : List Value}
    {f : Value → List Char} (hall : ∀ y ∈ xs, h.Writes mark O (.value y) (f y) O) :
    h.Writes mark O (.rest xs) (xs.flatMap fun y => ',' :: f y) O := by
  induction xs with
  | nil => exact .restNil
  | cons x xs ih =>
    exact .restCons (hall x List.mem_cons_self) (ih fun y hy => hall y (List.mem_cons_of_mem x hy))

/-- With `n` as its bound and `opened` open, the writer writes what runs write, if there is room for
    all structures that are not open.  Every nested call opens a structure, except for the one that
    writes the last tail of a list. -/
private structure Enough (h : Heap) (n : Nat) (opened : List StructId) : Prop where
  /-- A value. -/
  value : ∀ t, 2 * (h.structs.size - opened.length) < n →
    h.Writes (some cycleChars) opened.toFinset (.value t) (h.chars n opened t) opened.toFinset
  /-- The rest of a list. -/
  tail : ∀ t cells, 2 * (h.structs.size - opened.length) + 1 < n →
    h.Writes (some cycleChars) opened.toFinset (.tail cells (h.deref t)) (h.tailChars n opened t)
      (opened.toFinset \ cells)

namespace Enough

variable {rank : VarId → Nat} {n : Nat} {opened : List StructId}

/-- The last tail of a list is written as a value. -/
private theorem tail_end (ha : h.Enough n opened)
    (hnil : ∀ c, h.deref t = .const c → c.value ≠ .nil)
    (hcell : ∀ s, h.deref t = .struct s → h.cell? s = none) (cells : Finset StructId)
    (hn : 2 * (h.structs.size - opened.length) + 1 < n + 1) :
    h.Writes (some cycleChars) opened.toFinset (.tail cells (h.deref t))
      (h.tailChars (n + 1) opened t) (opened.toFinset \ cells) := by
  rw [tailChars_end hnil hcell]
  exact .tailEnd hnil hcell (ha.value _ (by omega))

/-- A structure that is not open is opened. -/
private theorem struct (hr : h.Descends rank) (ha : h.Enough n opened)
    (hroot : h.deref t = .struct s) (hopen : s ∉ opened) (hin : (h.structCell s).args ≠ [] →
      opened.length < h.structs.size ∧ h.Enough n (s :: opened)) :
    (2 * (h.structs.size - opened.length) < n + 1 →
      h.Writes (some cycleChars) opened.toFinset (.root (.struct s)) (h.chars (n + 1) opened t)
        opened.toFinset) ∧
    ∀ cells, 2 * (h.structs.size - opened.length) + 1 < n + 1 →
      h.Writes (some cycleChars) opened.toFinset (.tail cells (.struct s))
        (h.tailChars (n + 1) opened t) (opened.toFinset \ cells) := by
  have hnew : s ∉ opened.toFinset := mt List.mem_toFinset.1 hopen
  -- Inside the structure there is one more open structure, which leaves two levels less to go.
  have hvalue (hargs : (h.structCell s).args ≠ []) (x : Value)
      (hn : 2 * (h.structs.size - opened.length) < n + 2) :
      h.Writes (some cycleChars) (insert s opened.toFinset) (.value x) (h.chars n (s :: opened) x)
        (insert s opened.toFinset) := by
    obtain ⟨hroom, hin⟩ := hin hargs
    rw [← List.toFinset_cons]
    exact hin.value x (by rw [List.length_cons]; omega)
  cases hcell : h.cell? s with
  | some c =>
    obtain ⟨x, xs⟩ := c
    have hargs : (h.structCell s).args ≠ [] := by simp [(cell?_eq_some.1 hcell).2]
    have htail (cells : Finset StructId) (hn : 2 * (h.structs.size - opened.length) < n + 1) :
        h.Writes (some cycleChars) (insert s opened.toFinset) (.tail cells (h.deref xs))
          (h.tailChars n (s :: opened) xs) (insert s opened.toFinset \ cells) := by
      obtain ⟨hroom, hin⟩ := hin hargs
      rw [← List.toFinset_cons]
      exact hin.tail xs cells (by rw [List.length_cons]; omega)
    have hend := ends_deref hr xs
    refine ⟨fun hn => ?_, fun cells hn => ?_⟩
    · rw [chars_list hroot hopen hcell]
      exact (Writes.list hnew hcell (hvalue hargs x (by omega)) hend (htail {s} hn)).closed
    · rw [tailChars_cell hroot hopen hcell]
      exact (Writes.tailCell hnew hcell (hvalue hargs x (by omega)) hend
        (htail (insert s cells) (by omega))).closed
  | none =>
    refine ⟨fun hn => ?_, fun cells hn => ?_⟩
    · cases hargs : (h.structCell s).args with
      | nil =>
        rw [chars_atom hroot hopen hargs]
        exact (Writes.atom hnew hargs).closed
      | cons x xs =>
        have hall (y : Value) := hvalue (by simp [hargs]) y (by omega)
        rw [chars_compound hroot hopen hcell hargs]
        exact (Writes.compound hnew hcell hargs (hall x)
          (.rest_flatMap fun y _ => hall y)).closed
    · rw [← hroot]
      exact ha.tail_end (by simp [hroot]) (by simpa [hroot] using hcell) cells hn

end Enough

/-- There is enough depth for every structure that is not open yet. -/
private theorem enough {rank : VarId → Nat} (hr : h.Descends rank) (n : Nat) :
    ∀ opened : List StructId, opened.Nodup → (∀ s ∈ opened, s < h.structs.size) →
      h.Enough n opened := by
  induction n with
  | zero => exact fun opened _ _ => ⟨fun t hn => by omega, fun t cells hn => by omega⟩
  | succ n ih =>
    intro opened hnodup hlt
    have ha := ih opened hnodup hlt
    -- Another open structure takes room away, and two steps from what is needed inside it.
    have hin {s : StructId} (hopen : s ∉ opened) (hargs : (h.structCell s).args ≠ []) :
        opened.length < h.structs.size ∧ h.Enough n (s :: opened) := by
      have hs := lt_size_of_args hargs
      refine ⟨length_opened_lt hnodup hlt hs hopen,
        ih (s :: opened) (List.nodup_cons.2 ⟨hopen, hnodup⟩) fun s' hs' => ?_⟩
      rcases List.mem_cons.1 hs' with rfl | hs'
      · exact hs
      · exact hlt s' hs'
    constructor
    · intro t hn
      refine .value (ends_deref hr t) ?_
      cases hroot : h.deref t with
      | absent => simp only [chars, hroot]; exact .absent
      | var v => simp only [chars, hroot]; exact .var
      | const c => simp only [chars, hroot]; exact .const
      | struct s =>
        by_cases hopen : s ∈ opened
        · rw [chars_again hroot hopen]
          exact .again (List.mem_toFinset.2 hopen) rfl
        · exact (ha.struct hr hroot hopen (hin hopen)).1 hn
    · intro t cells hn
      cases hroot : h.deref t with
      | absent => exact hroot ▸ ha.tail_end (by simp [hroot]) (by simp [hroot]) cells hn
      | var v => exact hroot ▸ ha.tail_end (by simp [hroot]) (by simp [hroot]) cells hn
      | const c =>
        by_cases hc : c.value = .nil
        · obtain ⟨value, cell⟩ := c
          obtain rfl : value = .nil := hc
          simp only [tailChars, hroot]
          exact .tailNil rfl
        · exact hroot ▸ ha.tail_end (by simpa [hroot] using hc) (by simp [hroot]) cells hn
      | struct s =>
        by_cases hopen : s ∈ opened
        · cases hcell : h.cell? s with
          | none =>
            exact hroot ▸ ha.tail_end (by simp [hroot]) (by simpa [hroot] using hcell) cells hn
          | some c =>
            rw [tailChars_again hroot hopen hcell]
            exact .tailAgain (List.mem_toFinset.2 hopen) hcell rfl
        · exact (ha.struct hr hroot hopen (hin hopen)).2 cells hn

/-- **The writer comes to an end on every value** of a heap where chains of variables end, and what
    it writes is the text of the value. -/
theorem writes_iff {rank : VarId → Nat} (hr : h.Descends rank) (t : Value) {cs : List Char}
    {O : Finset StructId} :
    h.Writes (some cycleChars) ∅ (.value t) cs O ↔ cs = (h.text t).toList ∧ O = ∅ := by
  have hbound : 2 * (h.structs.size - ([] : List StructId).length) < h.writeBound := by
    rw [List.length_nil, writeBound]
    omega
  have hrun := (enough hr h.writeBound [] List.nodup_nil (by simp)).value t hbound
  rw [List.toFinset_nil] at hrun
  rw [text, String.toList_ofList]
  constructor
  · exact fun hw => ⟨hrun.unique hw, hw.closes⟩
  · rintro ⟨rfl, rfl⟩
    exact hrun

end Heap

end PrologMachine
