/-
  PrologMachine.Proofs.Heap.Finite ── **FINITE TERMS ON A HEAP.**

  A value none of whose structures contains itself is a finite term, however often its structures
  are shared.  The writer never meets an open structure in it: its text is the text of the term,
  with lists in brackets, and no cycle is marked.

    * `Heap.Acyclic`: no structure contains itself; `Heap.Acyclic.induction` goes from arguments to
      structures.
    * `Heap.Stands`: the term that a value stands for.
    * `Heap.text_eq`: the text of a value.
-/
import PrologMachine.Proofs.Heap.Writing
import PrologMachine.Proofs.Reading.RoundTrip

namespace PrologMachine

namespace Heap

variable {h : Heap} {s : StructId} {t u : Value} {rank : VarId → Nat}

/-! ## §1. Acyclic values. -/

/-- No structure of the value contains itself. -/
def Acyclic (h : Heap) (t : Value) : Prop :=
  ∀ s, h.Part t (.struct s) → ∀ a ∈ (h.structCell s).args, ¬ h.Part a (.struct s)

theorem Acyclic.part (ht : h.Acyclic t) (hu : h.Part t u) : h.Acyclic u :=
  fun s hs => ht s (hu.trans hs)

/-- A value is acyclic where bindings do not go up and arguments go down. -/
theorem acyclic_of_height (height : Value → Nat)
    (hbound : ∀ v u, h.binding? v = some u → height u ≤ height (.var v))
    (hargs : ∀ s, ∀ a ∈ (h.structCell s).args, height a < height (.struct s)) (t : Value) :
    h.Acyclic t := by
  have hpart {t u : Value} (hu : h.Part t u) : height u ≤ height t := by
    induction hu with
    | whole => exact Nat.le_refl _
    | bound _ hv ih => exact (hbound _ _ hv).trans ih
    | arg _ ha ih => exact (hargs _ _ ha).le.trans ih
  intro s _ a ha hs
  exact absurd (hpart hs) (Nat.not_le_of_lt (hargs s a ha))

open scoped Classical in
/-- The structures of a value that exist. -/
private noncomputable def structsOf (h : Heap) (t : Value) : Finset StructId :=
  (Finset.range h.structs.size).filter fun s => h.Part t (.struct s)

private theorem mem_structsOf : s ∈ h.structsOf t ↔ s < h.structs.size ∧ h.Part t (.struct s) := by
  simp [structsOf]

/-- The structures of an argument are those of the structure but for itself. -/
private theorem card_structsOf_lt (ht : h.Acyclic t) (hs : h.Part t (.struct s)) {a : Value}
    (ha : a ∈ (h.structCell s).args) : (h.structsOf a).card < (h.structsOf t).card := by
  have hsize : s < h.structs.size := lt_size_of_args (List.ne_nil_of_mem ha)
  refine Finset.card_lt_card ⟨fun s' hs' => ?_, fun hsub => ?_⟩
  · rw [mem_structsOf] at hs' ⊢
    exact ⟨hs'.1, (hs.arg ha).trans hs'.2⟩
  · exact ht s hs a ha (mem_structsOf.1 (hsub (mem_structsOf.2 ⟨hsize, hs⟩))).2

/-- **Induction over acyclic values**: what passes from the arguments of a structure to the values
    that stand for it holds of all acyclic values. -/
theorem Acyclic.induction {P : Value → Prop}
    (step : ∀ t, h.Acyclic t → (∀ s, h.Ends t (.struct s) → ∀ a ∈ (h.structCell s).args, P a) → P t)
    {t : Value} (ht : h.Acyclic t) : P t := by
  induction hn : (h.structsOf t).card using Nat.strong_induction_on generalizing t with
  | _ n ih =>
    refine step t ht fun s hs a ha => ?_
    have hlt := card_structsOf_lt ht hs.part ha
    exact ih _ (hn ▸ hlt) (ht.part (hs.part.arg ha)) rfl

/-! ## §2. The term of a value. -/

/-- **The term that a value stands for**: what bound variables stand for is in their places. -/
inductive Stands (h : Heap) : Value → Term → Prop where
  /-- An unbound variable. -/
  | var {t : Value} {v : VarId} (ht : h.Ends t (.var v)) :
      Stands h t (.var (h.varCell v).name (h.varCell v).id)
  /-- A constant. -/
  | const {t : Value} {c : Constant} (ht : h.Ends t (.const c)) : Stands h t (.const c.value (-1))
  /-- A missing term. -/
  | absent {t : Value} (ht : h.Ends t .absent) : Stands h t .absent
  /-- A structure. -/
  | struct {t : Value} {s : StructId} {us : List Term} (ht : h.Ends t (.struct s))
      (hargs : List.Forall₂ (Stands h) (h.structCell s).args us) :
      Stands h t (.app (h.structCell s).name us (h.structCell s).attrs (-1))

/-- An acyclic value stands for a term. -/
theorem Acyclic.exists_stands (hr : h.Descends rank) (ht : h.Acyclic t) : ∃ u, h.Stands t u := by
  refine Acyclic.induction (P := fun t => ∃ u, h.Stands t u) (fun t _ ih => ?_) ht
  have hend := ends_deref hr t
  cases hroot : h.deref t with
  | var v => exact ⟨_, .var (hroot ▸ hend)⟩
  | const c => exact ⟨_, .const (hroot ▸ hend)⟩
  | absent => exact ⟨_, .absent (hroot ▸ hend)⟩
  | struct s =>
    rw [hroot] at hend
    choose! term hterm using ih s hend
    have hargs : List.Forall₂ h.Stands (h.structCell s).args ((h.structCell s).args.map term) :=
      List.forall₂_map_right_iff.2 (List.forall₂_same.2 hterm)
    exact ⟨_, .struct hend hargs⟩

/-- What a value stands for is known from the end of its chain. -/
theorem Stands.at_end {u : Term} {r : Value} (hu : h.Stands t u) (hend : h.Ends t r) :
    match r with
    | .var v => u = .var (h.varCell v).name (h.varCell v).id
    | .const c => u = .const c.value (-1)
    | .absent => u = .absent
    | .struct s => ∃ us, List.Forall₂ h.Stands (h.structCell s).args us ∧
        u = .app (h.structCell s).name us (h.structCell s).attrs (-1) := by
  cases hu with
  | var hend' => obtain rfl := hend'.unique hend; rfl
  | const hend' => obtain rfl := hend'.unique hend; rfl
  | absent hend' => obtain rfl := hend'.unique hend; rfl
  | struct hend' hargs => obtain rfl := hend'.unique hend; exact ⟨_, hargs, rfl⟩

/-- It stands for one term only. -/
theorem Acyclic.stands_unique (hr : h.Descends rank) (ht : h.Acyclic t) {u u' : Term}
    (hu : h.Stands t u) (hu' : h.Stands t u') : u' = u := by
  -- By the height of the value, for all terms that it stands for.
  suffices hall : ∀ u u', h.Stands t u → h.Stands t u' → u' = u from hall u u' hu hu'
  clear hu hu' u u'
  refine Acyclic.induction (P := fun t => ∀ u u', h.Stands t u → h.Stands t u' → u' = u)
    (fun t _ ih u u' hu hu' => ?_) ht
  have hend := ends_deref hr t
  cases hroot : h.deref t with
  | struct s =>
    rw [hroot] at hend
    obtain ⟨us, hus, rfl⟩ := hu.at_end hend
    obtain ⟨us', hus', rfl⟩ := hu'.at_end hend
    -- The arguments stand for the same terms, one by one.
    have hsame : us' = us := by
      refine List.ext_getElem (hus'.length_eq.symm.trans hus.length_eq) fun i hi' hi => ?_
      have hx := (List.forall₂_iff_get.1 hus).2 i (hus.length_eq ▸ hi) hi
      have hx' := (List.forall₂_iff_get.1 hus').2 i (hus.length_eq ▸ hi) hi'
      exact ih s hend _ (List.get_mem _ _) _ _ hx hx'
    rw [hsame]
  | _ =>
    rw [hroot] at hend
    rw [hu.at_end hend, hu'.at_end hend]

/-! ## §3. The text of a term. -/

variable {O : Finset StructId}

/-- With these structures open the writer writes the value as the term, also where it is the tail of
    a list, and marks no cycle. -/
structure Prints (h : Heap) (O : Finset StructId) (t : Value) (u : Term) : Prop where
  /-- As a value. -/
  value : h.Writes none O (.value t) u.chars O
  /-- As a tail. -/
  tail : ∀ r, h.Ends t r → ∀ cells, h.Writes none O (.tail cells r) u.tailChars (O \ cells)

/-- A tail that is no list is written behind a bar. -/
theorem Writes.tail_of_value {u : Term} {r : Value} (hend : h.Ends t r)
    (hnil : ∀ c, r = .const c → c.value ≠ .nil) (hcell : ∀ s, r = .struct s → h.cell? s = none)
    (hu : u.tailChars = '|' :: u.chars) (hw : h.Writes none O (.value t) u.chars O)
    (cells : Finset StructId) : h.Writes none O (.tail cells r) u.tailChars (O \ cells) := by
  cases hw with
  | value hend' hroot =>
    obtain rfl := hend.unique hend'
    rw [hu]
    exact .tailEnd hnil hcell (.value hend.root hroot)

/-- Arguments are written one after the other. -/
theorem Prints.rest {xs : List Value} {us : List Term} (hall : List.Forall₂ (h.Prints O) xs us) :
    h.Writes none O (.rest xs) (Term.restChars us) O := by
  induction hall with
  | nil => exact .restNil
  | cons hx _ ih => exact .restCons hx.value ih

/-- A list cell is written as an element and a tail. -/
theorem Prints.cell (hend : h.Ends t (.struct s)) (hs : s ∉ O) {x xs : Value}
    (hcell : h.cell? s = some (x, xs)) {u v : Term} (hu : h.Prints (insert s O) x u)
    (hxs : ∃ r, h.Ends xs r) (hv : h.Prints (insert s O) xs v) (attrs : Attrs) (pos : Int) :
    h.Prints O t (.app "cons" [u, v] attrs pos) := by
  obtain ⟨r, hr⟩ := hxs
  constructor
  · exact .value hend (Writes.list hs hcell hu.value hr (hv.tail r hr {s})).closed
  · intro r' hr' cells
    obtain rfl := hend.unique hr'
    exact (Writes.tailCell hs hcell hu.value hr (hv.tail r hr (insert s cells))).closed

/-- A structure that is no list cell is written with its arguments in parentheses. -/
theorem Prints.compound (hend : h.Ends t (.struct s)) (hs : s ∉ O) (hcell : h.cell? s = none)
    {us : List Term} (hus : List.Forall₂ (h.Prints (insert s O)) (h.structCell s).args us)
    (attrs : Attrs) (pos : Int) : h.Prints O t (.app (h.structCell s).name us attrs pos) := by
  -- A list cell would have been found.
  have hnone : ¬ (Term.app (h.structCell s).name us attrs pos).IsCell := by
    rintro ⟨u, v, attrs', pos', hcons⟩
    injection hcons with hname hargs
    rw [hargs] at hus
    obtain ⟨x, xs, hx⟩ : ∃ x xs, (h.structCell s).args = [x, xs] :=
      List.length_eq_two.1 hus.length_eq
    rw [cell?_eq_some.2 ⟨hname, hx⟩] at hcell
    cases hcell
  have hvalue :
      h.Writes none O (.value t) (Term.app (h.structCell s).name us attrs pos).chars O := by
    refine .value hend ?_
    -- A structure is written as its name, with its arguments if there are any.
    cases hargs : (h.structCell s).args with
    | nil =>
      rw [hargs, List.forall₂_nil_left_iff] at hus
      subst hus
      rw [Term.chars]
      exact (Writes.atom hs hargs).closed
    | cons x xs =>
      rw [hargs] at hus
      cases hus with
      | cons hx hxs =>
        rw [Term.chars_app hnone]
        exact (Writes.compound hs hcell hargs hx.value (Prints.rest hxs)).closed
  refine ⟨hvalue, fun r hr cells => ?_⟩
  obtain rfl := hend.unique hr
  exact .tail_of_value hend (by simp) (by simpa using hcell)
    (Term.tailChars_eq (by simp) hnone) hvalue cells

/-- **The writer writes an acyclic value as its term**, if none of its structures is open: it meets
    no open one inside. -/
theorem Acyclic.prints (hr : h.Descends rank) (ht : h.Acyclic t) :
    ∀ u, h.Stands t u → ∀ O : Finset StructId, (∀ s ∈ O, ¬ h.Part t (.struct s)) →
      h.Prints O t u := by
  refine Acyclic.induction (P := fun t => ∀ u, h.Stands t u → ∀ O : Finset StructId,
    (∀ s ∈ O, ¬ h.Part t (.struct s)) → h.Prints O t u) (fun t ht ih u hu O hO => ?_) ht
  have leaf {u : Term} {r : Value} (hend : h.Ends t r) (hnil : ∀ c, r = .const c → c.value ≠ .nil)
      (hcell : ∀ s, r = .struct s → h.cell? s = none) (hu : u.tailChars = '|' :: u.chars)
      (hw : h.Writes none O (.root r) u.chars O) : h.Prints O t u := by
    refine ⟨.value hend hw, fun r' hr' => ?_⟩
    obtain rfl := hend.unique hr'
    exact .tail_of_value hend hnil hcell hu (.value hend hw)
  have hend := ends_deref hr t
  cases hroot : h.deref t with
  | var v =>
    rw [hroot] at hend
    obtain rfl := hu.at_end hend
    exact leaf hend (by simp) (by simp) rfl .var
  | absent =>
    rw [hroot] at hend
    obtain rfl := hu.at_end hend
    exact leaf hend (by simp) (by simp) rfl .absent
  | const c =>
    rw [hroot] at hend
    obtain rfl := hu.at_end hend
    by_cases hc : c.value = .nil
    · refine ⟨.value hend .const, fun r' hr' cells => ?_⟩
      obtain rfl := hend.unique hr'
      rw [hc]
      exact .tailNil hc
    · exact leaf hend (by simpa using hc) (by simp)
        (Term.tailChars_eq (by simp [hc]) (by simp [Term.IsCell])) .const
  | struct s =>
    rw [hroot] at hend
    obtain ⟨us, hus, rfl⟩ := hu.at_end hend
    have hnew : s ∉ O := fun hs => hO s hs hend.part
    -- No structure that is open around an argument is inside it.
    have hinside {x : Value} (hx : x ∈ (h.structCell s).args) :
        ∀ s' ∈ insert s O, ¬ h.Part x (.struct s') := by
      intro s' hs' hpart
      rcases Finset.mem_insert.1 hs' with rfl | hs'
      · exact ht s' hend.part x hx hpart
      · exact hO s' hs' ((hend.part.arg hx).trans hpart)
    have hargs : List.Forall₂ (h.Prints (insert s O)) (h.structCell s).args us := by
      refine List.forall₂_iff_get.2 ⟨hus.length_eq, fun i hi hi' => ?_⟩
      have hx := List.get_mem (h.structCell s).args ⟨i, hi⟩
      exact ih s hend _ hx _ ((List.forall₂_iff_get.1 hus).2 i hi hi') _ (hinside hx)
    cases hcell : h.cell? s with
    | some c =>
      obtain ⟨x, xs⟩ := c
      obtain ⟨hname, hxs⟩ := cell?_eq_some.1 hcell
      rw [hxs] at hargs
      rw [hname]
      match us, hargs with
      | [u, v], .cons hu (.cons hv .nil) =>
        exact .cell hend hnew hcell hu ⟨_, ends_deref hr xs⟩ hv _ _
    | none => exact .compound hend hnew hcell hargs _ _

/-- A run that meets no open structure is a run with every mark. -/
theorem Writes.marked {mark : Option (List Char)} {O' : Finset StructId} {k : Task}
    {cs : List Char} (hw : h.Writes none O k cs O') : h.Writes mark O k cs O' := by
  induction hw with
  | value ht _ ih => exact .value ht ih
  | absent => exact .absent
  | var => exact .var
  | const => exact .const
  | again _ hmark => cases hmark
  | list hs hcell _ hend _ ihx ihxs => exact .list hs hcell ihx hend ihxs
  | atom hs hargs => exact .atom hs hargs
  | compound hs hcell hargs _ _ ihx ihxs => exact .compound hs hcell hargs ihx ihxs
  | restNil => exact .restNil
  | restCons _ _ ihx ihxs => exact .restCons ihx ihxs
  | tailAgain _ _ hmark => cases hmark
  | tailCell hs hcell _ hend _ ihx ihxs => exact .tailCell hs hcell ihx hend ihxs
  | tailNil hc => exact .tailNil hc
  | tailEnd hnil hcell _ ih => exact .tailEnd hnil hcell ih

/-- **The text of a value.**  On a heap where chains of variables end, the writer comes to an end on
    every value, with its text and with no structure open.  An acyclic value stands for one term,
    and its text is the text of that term, written by a run that marks no cycle. -/
theorem text_eq (h : Heap) (hchains : ∃ rank, h.Descends rank) (t : Value) :
    (∀ cs O, h.Writes (some cycleChars) ∅ (.value t) cs O ↔ cs = (h.text t).toList ∧ O = ∅) ∧
    (h.Acyclic t → ∃ u : Term, (∀ u', h.Stands t u' ↔ u' = u) ∧ h.text t = u.text ∧
      h.Writes none ∅ (.value t) u.chars ∅) := by
  obtain ⟨rank, hr⟩ := hchains
  refine ⟨fun cs O => writes_iff hr t, fun ht => ?_⟩
  obtain ⟨u, hu⟩ := ht.exists_stands hr
  have hrun : h.Writes none ∅ (.value t) u.chars ∅ := (ht.prints hr u hu ∅ (by simp)).value
  refine ⟨u, fun u' => ⟨ht.stands_unique hr hu, fun hu' => hu' ▸ hu⟩, ?_, hrun⟩
  rw [Term.text, ((writes_iff hr t).1 hrun.marked).1, String.ofList_toList]

/-- A list whose first element is also its tail. -/
def ownTail : Heap where
  vars := #[⟨"X", 1, some (.struct 0)⟩]
  structs := #[⟨"cons", [.const ⟨.nil, .heap 0⟩, .const ⟨.nil, .heap 0⟩], .none⟩,
    ⟨"cons", [.var 0, .struct 0], .none⟩]

/-- The list is written twice, without a mark: it is shared, but not inside itself. -/
theorem text_eq_ownTail : ownTail.Acyclic (.struct 1) ∧ ∃ u : Term,
    ownTail.Stands (.struct 1) u ∧ u.text = "[[[]],[]]" ∧
      ownTail.Writes none ∅ (.value (.struct 1)) u.chars ∅ := by
  -- No variable is bound.
  have hchains : ∃ rank, ownTail.Descends rank := by
    refine ⟨fun _ => 0, fun v w hv => ?_⟩
    match v with
    | 0 => cases hv
    | _ + 1 => cases hv
  -- Each structure is higher than its arguments.
  have hacyclic : ownTail.Acyclic (.struct 1) := by
    refine acyclic_of_height (fun | .struct s => s + 1 | .var _ => 1 | _ => 0)
      (fun v u hv => ?_) (fun s a ha => ?_) _
    · match v with
      | 0 => cases hv; exact Nat.le_refl 1
      | _ + 1 => cases hv
    · match s with
      | 0 =>
        simp [structCell, ownTail] at ha
        simp [ha]
      | 1 =>
        simp [structCell, ownTail] at ha
        rcases ha with rfl | rfl <;> simp
      | _ + 2 => cases ha
  obtain ⟨u, hu, htext, hrun⟩ := (text_eq ownTail hchains (.struct 1)).2 hacyclic
  refine ⟨hacyclic, u, (hu u).2 rfl, ?_, hrun⟩
  rw [← htext]
  rfl

end Heap

end PrologMachine
