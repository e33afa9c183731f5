/-
  PrologMachine.Proofs.RecencyCache ── **THE CACHE KEEPS WHAT WAS USED LAST.**

  The table of a cache and its list of keys are changed by every operation, each in its own way.
  They stay in step, and what can be found is settled by the history of operations alone.

    * `InStep`: table and list have the same keys, each once, and not too many.
    * `Operation`, `perform`, `history`: operations in any order, and the events they bring about.
    * `lastStored`, `othersSince`: what a history says of a key, without any cache.
    * `Follows`: the list of keys is the front of the keys of the history, by last use.
    * `found_iff_recent`: a key is found just when fewer other keys than the capacity were used since.
-/
import Mathlib
import PrologMachine.RecencyCache

namespace PrologMachine

namespace RecencyCache

variable {α : Type} {c : RecencyCache α} {k key : String} {v : α} {e : String × α}

/-! ## §1. The table. -/

/-- A value that is found is in the table. -/
theorem mem_table_of_value? (h : c.value? key = some v) : (key, v) ∈ c.table := by
  obtain ⟨front, back, htable, -⟩ := List.lookup_eq_some_iff.1 h
  rw [htable]
  exact List.mem_append_right _ List.mem_cons_self

/-- A key has a value when it is in the table. -/
theorem isSome_value?_iff : (c.value? key).isSome ↔ key ∈ c.table.map Prod.fst := by
  rw [value?, Option.isSome_iff_ne_none, ne_eq, List.lookup_eq_none_iff]
  simp only [List.mem_map, bne_iff_ne, not_forall, ne_eq, not_not, exists_prop]
  exact exists_congr fun e => and_congr_right fun _ => eq_comm

/-- Without a key the others are left. -/
theorem keys_without (c : RecencyCache α) (key : String) :
    (c.without key).map Prod.fst = (c.table.map Prod.fst).filter (· ≠ key) := by
  simp [without, List.filter_map, Function.comp_def]

/-- The others keep their values. -/
theorem lookup_without (hk : k ≠ key) : (c.without key).lookup k = c.value? k := by
  unfold without value?
  induction c.table with
  | nil => rfl
  | cons e es ih =>
    obtain ⟨i, x⟩ := e
    by_cases hi : i = key
    · have hki : (k == i) = false := by simpa [hi] using hk
      simpa [hi, List.lookup_cons, hi ▸ hki] using ih
    · simp only [List.filter_cons, List.lookup_cons, ne_eq, hi, not_false_eq_true, decide_true,
        if_true]
      rw [← ih]

@[simp] theorem table_get (c : RecencyCache α) (key : String) : (c.get key).2.table = c.table := by
  unfold get
  split <;> rfl

theorem mem_table_evict (h : e ∈ c.evict.table) : e ∈ c.table := by
  unfold evict at h
  split at h
  · exact h
  · exact List.mem_of_mem_filter h

/-- A cache holds nothing but what is stored and what it held before. -/
theorem mem_table_set (h : e ∈ (c.set key v).table) : e = (key, v) ∨ e ∈ c.table := by
  unfold set at h
  split at h
  · exact (List.mem_cons.1 h).imp id List.mem_of_mem_filter
  split at h
  · exact (List.mem_cons.1 h).imp id mem_table_evict
  · exact List.mem_cons.1 h

/-! ## §2. Table and list stay in step. -/

/-- **Table and list hold the same keys**, each once, and at most as many as the capacity. -/
structure InStep (c : RecencyCache α) : Prop where
  /-- There is room for a key. -/
  room : 0 < c.capacity
  /-- The list holds a key once. -/
  nodup : c.recency.Nodup
  /-- The table holds the same keys. -/
  keys : (c.table.map Prod.fst).Perm c.recency
  /-- They are not too many. -/
  bounded : c.recency.length ≤ c.capacity

namespace InStep

/-- A key has a value when it is in the list. -/
theorem mem_iff (h : c.InStep) : (c.value? key).isSome ↔ key ∈ c.recency :=
  isSome_value?_iff.trans h.keys.mem_iff

/-- A key that is not in the list has no value. -/
theorem value?_eq_none (h : c.InStep) (hkey : key ∉ c.recency) : c.value? key = none :=
  Option.not_isSome_iff_eq_none.1 (hkey ∘ h.mem_iff.1)

/-- The table is as long as the list. -/
theorem size (h : c.InStep) : c.size = c.recency.length := by
  simpa [RecencyCache.size] using h.keys.length_eq

/-- An empty cache is in step. -/
theorem empty (asked : Int) : (empty asked : RecencyCache α).InStep := by
  refine ⟨?_, List.nodup_nil, .nil, Nat.zero_le _⟩
  show 0 < capacityOf asked
  unfold capacityOf defaultCapacity
  split <;> omega

/-- Without a key, table and list are still in step. -/
theorem keys_without (h : c.InStep) (key : String) :
    ((c.without key).map Prod.fst).Perm (c.recency.erase key) := by
  have herase : c.recency.erase key = c.recency.filter (· ≠ key) := by
    rw [h.nodup.erase_eq_filter]
    exact List.filter_congr fun x _ => by by_cases hx : x = key <;> simp [hx]
  rw [RecencyCache.keys_without, herase]
  exact h.keys.filter (· ≠ key)

/-- Touching a key keeps table and list in step. -/
theorem touch (h : c.InStep) (hkey : key ∈ c.recency) : (c.touch key).InStep := by
  have hperm := List.perm_cons_erase hkey
  exact ⟨h.room, hperm.nodup_iff.1 h.nodup, h.keys.trans hperm,
    hperm.length_eq ▸ h.bounded⟩

/-- The last key makes room for a new one. -/
theorem evict (h : c.InStep) : c.evict.InStep ∧ c.evict.capacity = c.capacity ∧
    c.evict.recency = c.recency.dropLast := by
  unfold RecencyCache.evict
  split
  · next hlast =>
    refine ⟨h, rfl, ?_⟩
    rw [List.getLast?_eq_none_iff.1 hlast]
    rfl
  · next k hlast =>
    obtain ⟨front, hfront⟩ := List.getLast?_eq_some_iff.1 hlast
    have hnodup : (front ++ [k]).Nodup := hfront ▸ h.nodup
    have hk : k ∉ front := fun hmem =>
      (List.disjoint_of_nodup_append hnodup) hmem (List.mem_singleton_self k)
    have herase : c.recency.erase k = c.recency.dropLast := by
      rw [hfront, List.erase_append_right _ hk]
      simp
    refine ⟨⟨h.room, ?_, ?_, ?_⟩, rfl, rfl⟩
    · exact h.nodup.sublist (List.dropLast_sublist _)
    · exact herase ▸ h.keys_without k
    · exact (List.length_dropLast ▸ Nat.sub_le _ _).trans h.bounded

end InStep

/-- **What a cache holds after a value was stored**: the key and its value in front of the other
    keys, as many of them as there is room for, with their values. -/
structure Stored (c : RecencyCache α) (key : String) (v : α) (c' : RecencyCache α) : Prop where
  /-- Table and list are in step. -/
  inStep : c'.InStep
  /-- The capacity is the same. -/
  capacity : c'.capacity = c.capacity
  /-- The keys. -/
  recency : c'.recency = (key :: c.recency.erase key).take c.capacity
  /-- The value. -/
  value : c'.value? key = some v
  /-- The other values. -/
  others : ∀ k ∈ c'.recency, k ≠ key → c'.value? k = c.value? k

namespace InStep

/-- The key is there already. -/
theorem replaced (h : c.InStep) (hkey : key ∈ c.recency) (v : α) :
    c.Stored key v { c.touch key with table := (key, v) :: c.without key } := by
  have hperm := List.perm_cons_erase hkey
  have hlength := hperm.length_eq ▸ h.bounded
  refine ⟨⟨h.room, hperm.nodup_iff.1 h.nodup, (h.keys_without key).cons key, hlength⟩, rfl,
    (List.take_of_length_le hlength).symm, by simp [value?], fun k _ hk => ?_⟩
  have hne : (k == key) = false := by simpa using hk
  simp only [value?, List.lookup_cons, hne]
  exact lookup_without hk

/-- The key is new, and there is room for it. -/
theorem added (h : c.InStep) (hkey : key ∉ c.recency) (hroom : c.recency.length < c.capacity)
    (v : α) : c.Stored key v (c.add key v) := by
  refine ⟨⟨h.room, List.nodup_cons.2 ⟨hkey, h.nodup⟩, h.keys.cons key, hroom⟩, rfl, ?_,
    by simp [value?, add], fun k _ hk => ?_⟩
  · rw [List.erase_of_not_mem hkey]
    exact (List.take_of_length_le hroom).symm
  · have hne : (k == key) = false := by simpa using hk
    simp [value?, add, List.lookup_cons, hne]

/-- The last key leaves the others as they are. -/
theorem value?_evict (h : c.InStep) (hk : k ∈ c.recency.dropLast) :
    c.evict.value? k = c.value? k := by
  unfold RecencyCache.evict
  split
  · rfl
  · next last hlast =>
    obtain ⟨front, hfront⟩ := List.getLast?_eq_some_iff.1 hlast
    have hnodup : (front ++ [last]).Nodup := hfront ▸ h.nodup
    rw [hfront, List.dropLast_concat] at hk
    exact lookup_without fun heq =>
      (List.disjoint_of_nodup_append hnodup) hk (heq ▸ List.mem_singleton_self last)

/-- The key is new, and the last one makes room for it. -/
theorem displaced (h : c.InStep) (hkey : key ∉ c.recency) (hfull : c.capacity ≤ c.recency.length)
    (v : α) : c.Stored key v (c.evict.add key v) := by
  obtain ⟨hstep, hcapacity, hrecency⟩ := h.evict
  have hlength : c.recency.length = c.capacity := Nat.le_antisymm h.bounded hfull
  obtain ⟨n, hn⟩ := Nat.exists_eq_succ_of_ne_zero h.room.ne'
  have hroom : c.evict.recency.length < c.evict.capacity := by
    rw [hrecency, hcapacity, List.length_dropLast, hlength, hn]
    exact Nat.lt_succ_self n
  have hnot : key ∉ c.evict.recency := fun hmem =>
    hkey (List.mem_of_mem_dropLast (hrecency ▸ hmem))
  obtain ⟨hstep', -, -, hvalue, hothers⟩ := hstep.added hnot hroom v
  refine ⟨hstep', hcapacity, ?_, hvalue, fun k hk hne => (hothers k hk hne).trans ?_⟩
  · show key :: c.evict.recency = _
    rw [hrecency, List.erase_of_not_mem hkey, hn, List.take_succ_cons, List.dropLast_eq_take,
      hlength, hn, Nat.succ_sub_one]
  · exact h.value?_evict (hrecency ▸ (List.mem_cons.1 hk).resolve_left hne)

/-- **A value is stored.** -/
theorem set (h : c.InStep) (key : String) (v : α) : c.Stored key v (c.set key v) := by
  unfold RecencyCache.set
  split
  · next hfound => exact h.replaced (h.mem_iff.1 hfound) v
  · next hfound =>
    have hkey : key ∉ c.recency := hfound ∘ h.mem_iff.2
    split
    · next hfull => exact h.displaced hkey hfull v
    · next hfull => exact h.added hkey (Nat.lt_of_not_le hfull) v

/-- **What a cache holds after a key was looked up.** -/
theorem get (h : c.InStep) (key : String) : (c.get key).2.InStep ∧
    (c.get key).2.capacity = c.capacity ∧
    (c.get key).2.recency = if (c.value? key).isSome then key :: c.recency.erase key
      else c.recency := by
  unfold RecencyCache.get
  cases hvalue : c.value? key with
  | none => exact ⟨{ h with }, rfl, rfl⟩
  | some v =>
    have hkey : key ∈ c.recency := h.mem_iff.1 (by rw [hvalue]; rfl)
    exact ⟨{ h.touch hkey with }, rfl, rfl⟩

theorem invalidate (h : c.InStep) (key : String) : (c.invalidate key).InStep ∧
    (c.invalidate key).capacity = c.capacity := by
  unfold RecencyCache.invalidate
  split
  · exact ⟨⟨h.room, h.nodup.erase key, h.keys_without key,
      List.length_erase_le.trans h.bounded⟩, rfl⟩
  · exact ⟨h, rfl⟩

theorem clear (h : c.InStep) : c.clear.InStep :=
  ⟨h.room, List.nodup_nil, .nil, Nat.zero_le _⟩

end InStep

/-! ## §3. Operations and their history. -/

/-- What can be asked of a cache. -/
inductive Operation (α : Type) : Type 1 where
  /-- Look a key up. -/
  | get (key : String)
  /-- Store a value. -/
  | set (key : String) (v : α)
  /-- Look a key up, or store what `make` yields. -/
  | getOrMake {ε σ : Type} (key : String) (make : σ → Except ε α × σ) (s : σ)
  /-- Drop a key. -/
  | invalidate (key : String)
  /-- Drop all keys. -/
  | clear

/-- What an operation has brought about. -/
inductive Event (α : Type) where
  /-- A value was stored under the key. -/
  | stored (key : String) (v : α)
  /-- The key was found. -/
  | found (key : String)
  /-- The key was not found, and nothing was stored under it. -/
  | missed (key : String)
  /-- The key was dropped. -/
  | dropped (key : String)
  /-- All keys were dropped. -/
  | cleared

/-- The key that was used: one that was stored or found. -/
def Event.used? : Event α → Option String
  | .stored key _ => some key
  | .found key => some key
  | _ => none

/-- Perform an operation. -/
def Operation.perform (c : RecencyCache α) : Operation α → Event α × RecencyCache α
  | .get key =>
    match c.get key with
    | (some _, c) => (.found key, c)
    | (none, c) => (.missed key, c)
  | .set key v => (.stored key v, c.set key v)
  | .getOrMake key make s =>
    match c.getOrMake key make s with
    | (.ok _, false, c, _) => (.found key, c)
    | (.ok v, true, c, _) => (.stored key v, c)
    | (.error _, _, c, _) => (.missed key, c)
  | .invalidate key => (.dropped key, c.invalidate key)
  | .clear => (.cleared, c.clear)

/-- Perform operations in order.  The latest event comes first. -/
def performAll (c : RecencyCache α) (ops : List (Operation α)) : List (Event α) × RecencyCache α :=
  ops.foldl (fun (log, c) op => ((op.perform c).1 :: log, (op.perform c).2)) ([], c)

/-- The last operation comes last. -/
theorem performAll_concat (c : RecencyCache α) (ops : List (Operation α)) (op : Operation α) :
    c.performAll (ops ++ [op]) =
      ((op.perform (c.performAll ops).2).1 :: (c.performAll ops).1,
        (op.perform (c.performAll ops).2).2) := by
  simp [performAll]

/-- The value that was stored last under a key since everything was dropped. -/
def lastStored (key : String) : List (Event α) → Option α
  | [] => none
  | .cleared :: _ => none
  | .stored k v :: log => if k = key then some v else lastStored key log
  | _ :: log => lastStored key log

/-- The other keys that were used since a key was used. -/
def othersSince (key : String) : List (Event α) → Finset String
  | [] => ∅
  | e :: log =>
    match e.used? with
    | none => othersSince key log
    | some k => if k = key then ∅ else insert k (othersSince key log)

/-- The keys used since everything was dropped, by their last use, the latest first. -/
def recentKeys : List (Event α) → List String
  | [] => []
  | .cleared :: _ => []
  | e :: log =>
    match e.used? with
    | none => recentKeys log
    | some k => k :: (recentKeys log).erase k

/-! ## §4. What a history says of a key. -/

section

variable {log : List (Event α)}

/-- No key is listed twice. -/
theorem nodup_recentKeys (log : List (Event α)) : (recentKeys log).Nodup := by
  induction log with
  | nil => exact List.nodup_nil
  | cons e log ih =>
    cases e with
    | stored k v => exact List.nodup_cons.2 ⟨ih.not_mem_erase, ih.erase k⟩
    | found k => exact List.nodup_cons.2 ⟨ih.not_mem_erase, ih.erase k⟩
    | missed k => exact ih
    | dropped k => exact ih
    | cleared => exact List.nodup_nil

/-- A key that was not used has no value. -/
theorem lastStored_eq_none (hkey : key ∉ recentKeys log) : lastStored key log = none := by
  induction log with
  | nil => rfl
  | cons e log ih =>
    cases e with
    | stored k v =>
      have hne : key ≠ k := fun h => hkey (h ▸ List.mem_cons_self)
      have hrest : key ∉ recentKeys log := fun h =>
        hkey (List.mem_cons_of_mem k ((List.mem_erase_of_ne hne).2 h))
      simp [lastStored, hne.symm, ih hrest]
    | found k =>
      by_cases hne : key = k
      · exact (hkey (hne ▸ List.mem_cons_self)).elim
      · exact ih fun h => hkey (List.mem_cons_of_mem k ((List.mem_erase_of_ne hne).2 h))
    | missed k => exact ih hkey
    | dropped k => exact ih hkey
    | cleared => rfl

/-- Erasing a key and cutting the list off may change places. -/
theorem takeWhile_erase {p : String → Bool} (hk : p k = true) (ks : List String) :
    (ks.erase k).takeWhile p = (ks.takeWhile p).erase k := by
  induction ks with
  | nil => rfl
  | cons i ks ih =>
    by_cases hi : i = k
    · subst hi
      simp [hk]
    · have hne : (i == k) = false := by simpa using hi
      by_cases hp : p i = true
      · simp [hne, hp, ih]
      · simp [hne, hp]

/-- The other keys used since are those in front of the key. -/
theorem othersSince_eq (hkey : key ∈ recentKeys log) :
    othersSince key log = ((recentKeys log).takeWhile (· ≠ key)).toFinset := by
  induction log with
  | nil => cases hkey
  | cons e log ih =>
    -- A use of `k` puts `k` in front, whether it is the key asked about or another one.
    have huse : ∀ k, key ∈ k :: (recentKeys log).erase k →
        (if k = key then ∅ else insert k (othersSince key log)) =
          ((k :: (recentKeys log).erase k).takeWhile (· ≠ key)).toFinset := by
      intro k hmem
      split
      · next h => simp [h]
      · next h =>
        have hrest : key ∈ recentKeys log :=
          (List.mem_erase_of_ne (Ne.symm h)).1 ((List.mem_cons.1 hmem).resolve_left (Ne.symm h))
        have hp : decide (k ≠ key) = true := by simpa using h
        rw [List.takeWhile_cons, if_pos hp, takeWhile_erase hp, ih hrest]
        ext x
        by_cases hx : x = k
        · simp [hx]
        · simp [hx, List.mem_erase_of_ne hx]
    cases e with
    | stored k v => exact huse k hkey
    | found k => exact huse k hkey
    | missed k => exact ih hkey
    | dropped k => exact ih hkey
    | cleared => cases hkey

/-- A key is among the first when few others come before it. -/
theorem mem_take_iff {ks : List String} {n : Nat} :
    key ∈ ks.take n ↔ key ∈ ks ∧ (ks.takeWhile (· ≠ key)).length < n := by
  induction ks generalizing n with
  | nil => simp
  | cons i ks ih =>
    cases n with
    | zero => simp
    | succ n =>
      by_cases hi : i = key
      · simp [hi]
      · simp [List.take_succ_cons, hi, Ne.symm hi, ih]

/-- **A key is among the `n` most recent ones just when fewer than `n` others were used since.** -/
theorem mem_take_recentKeys {n : Nat} : key ∈ (recentKeys log).take n ↔
    key ∈ recentKeys log ∧ (othersSince key log).card < n := by
  rw [mem_take_iff]
  refine and_congr_right fun hkey => ?_
  rw [othersSince_eq hkey,
    List.toFinset_card_of_nodup ((nodup_recentKeys log).sublist (List.takeWhile_sublist _))]

end

/-! ## §5. The cache follows the history. -/

/-- Of the keys of the history, the cache holds those used last, with the values stored last. -/
structure Follows (c : RecencyCache α) (log : List (Event α)) : Prop where
  /-- Table and list are in step. -/
  inStep : c.InStep
  /-- The keys. -/
  recency : c.recency = (recentKeys log).take c.capacity
  /-- Their values. -/
  values : ∀ k ∈ c.recency, c.value? k = lastStored k log

/-- The `n` most recent keys stay the most recent ones behind a key that is one of them. -/
theorem take_cons_erase {ks : List String} {n : Nat} (hk : k ∈ ks.take n) :
    k :: (ks.take n).erase k = (k :: ks.erase k).take n := by
  induction ks generalizing n with
  | nil => simp at hk
  | cons i ks ih =>
    cases n with
    | zero => simp at hk
    | succ n =>
      by_cases hi : i = k
      · simp [hi]
      · have hne : (i == k) = false := by simpa using hi
        have hk' : k ∈ ks.take n := by simpa [Ne.symm hi] using hk
        have hcons := ih hk'
        obtain ⟨m, rfl⟩ : ∃ m, n = m + 1 :=
          Nat.exists_eq_succ_of_ne_zero fun h0 => by simp [h0] at hk'
        simp only [List.take_succ_cons, List.cons.injEq, true_and] at hcons
        simp [List.take_succ_cons, hne, hcons]

/-- And behind a key that is none of them, of which there is room for one less. -/
theorem take_cons_erase_take (ks : List String) (k : String) (n : Nat) :
    (k :: (ks.take n).erase k).take n = (k :: ks.erase k).take n := by
  by_cases hk : k ∈ ks.take n
  · rw [take_cons_erase hk, List.take_take, Nat.min_self]
  · rw [List.erase_of_not_mem hk]
    cases n with
    | zero => rfl
    | succ n =>
      simp only [List.take_succ_cons, List.take_take, List.cons.injEq, true_and]
      rw [Nat.min_eq_left (Nat.le_succ n)]
      induction ks generalizing n with
      | nil => rfl
      | cons i ks ih =>
        have hi : i ≠ k := fun h => hk (by simp [h])
        have hne : (i == k) = false := by simpa using hi
        cases n with
        | zero => rfl
        | succ n =>
          have hrest : k ∉ ks.take (n + 1) := fun h => hk (by simp [h])
          simp [List.take_succ_cons, hne, ih n hrest]

namespace Follows

variable {log : List (Event α)}

/-- An empty cache follows the empty history. -/
theorem empty (asked : Int) : (RecencyCache.empty asked : RecencyCache α).Follows [] :=
  ⟨.empty asked, by simp [recentKeys, RecencyCache.empty], by simp [RecencyCache.empty]⟩

/-- What is found is what the history says. -/
theorem value?_eq (h : c.Follows log) (key : String) : c.value? key =
    if (othersSince key log).card < c.capacity then lastStored key log else none := by
  by_cases hkey : key ∈ c.recency
  · have hrecent := mem_take_recentKeys.1 (h.recency ▸ hkey)
    rw [if_pos hrecent.2, h.values key hkey]
  · rw [h.inStep.value?_eq_none hkey]
    split
    · next hfew =>
      refine (lastStored_eq_none fun hmem => hkey ?_).symm
      rw [h.recency]
      exact mem_take_recentKeys.2 ⟨hmem, hfew⟩
    · rfl

/-- A value is stored. -/
theorem stored (h : c.Follows log) (key : String) (v : α) :
    (c.set key v).Follows (.stored key v :: log) := by
  obtain ⟨hstep, hcapacity, hrecency, hvalue, hothers⟩ := h.inStep.set key v
  refine ⟨hstep, ?_, fun k hk => ?_⟩
  · rw [hrecency, hcapacity, h.recency]
    exact take_cons_erase_take _ _ _
  · by_cases hne : k = key
    · subst hne
      simpa [lastStored] using hvalue
    · rw [hothers k hk hne, lastStored, if_neg (Ne.symm hne)]
      refine h.values k ?_
      have hmem := (List.mem_cons.1 (List.mem_of_mem_take (hrecency ▸ hk))).resolve_left hne
      exact List.mem_of_mem_erase hmem

/-- A key is found. -/
theorem found (h : c.Follows log) (hkey : (c.value? key).isSome) :
    (c.get key).2.Follows (.found key :: log) := by
  obtain ⟨hstep, hcapacity, hrecency⟩ := h.inStep.get key
  have hmem := h.inStep.mem_iff.1 hkey
  rw [if_pos hkey] at hrecency
  refine ⟨hstep, ?_, fun k hk => ?_⟩
  · rw [hrecency, hcapacity, h.recency]
    exact take_cons_erase (h.recency ▸ hmem)
  · have hvalue : (c.get key).2.value? k = c.value? k := by simp [value?]
    rw [hvalue]
    refine h.values k ?_
    rcases List.mem_cons.1 (hrecency ▸ hk) with rfl | hk
    · exact hmem
    · exact List.mem_of_mem_erase hk

/-- A key is not found. -/
theorem missed (h : c.Follows log) (hkey : c.value? key = none) : (c.get key).2.Follows log := by
  obtain ⟨hstep, hcapacity, hrecency⟩ := h.inStep.get key
  simp only [hkey, Option.isSome_none, Bool.false_eq_true, if_false] at hrecency
  refine ⟨hstep, ?_, fun k hk => ?_⟩
  · rw [hrecency, hcapacity]
    exact h.recency
  · have hvalue : (c.get key).2.value? k = c.value? k := by simp [value?]
    rw [hvalue]
    exact h.values k (hrecency ▸ hk)

/-- A miss says nothing about any key. -/
theorem cons_missed (h : c.Follows log) (key : String) : c.Follows (.missed key :: log) :=
  ⟨h.inStep, h.recency, h.values⟩

/-- Everything is dropped. -/
theorem cleared (h : c.Follows log) : c.clear.Follows (.cleared :: log) :=
  ⟨h.inStep.clear, by simp [clear, recentKeys], nofun⟩

end Follows

/-! ## §6. All operations. -/

/-- What is found is the value in the table. -/
theorem get_fst (c : RecencyCache α) (key : String) : (c.get key).1 = c.value? key := by
  unfold get
  split <;> simp [*]

/-- What `getOrMake` leaves: the cache behind a look-up, and what was made stored in it. -/
theorem getOrMake_cases {ε σ : Type} (c : RecencyCache α) (key : String)
    (make : σ → Except ε α × σ) (s : σ) :
    (∃ v, c.value? key = some v ∧
      c.getOrMake key make s = (.ok v, false, (c.get key).2, s)) ∨
    (c.value? key = none ∧ ∃ v s', make s = (.ok v, s') ∧
      c.getOrMake key make s = (.ok v, true, (c.get key).2.set key v, s')) ∨
    (c.value? key = none ∧ ∃ e s', make s = (.error e, s') ∧
      c.getOrMake key make s = (.error e, true, (c.get key).2, s')) := by
  have hget := c.get_fst key
  unfold getOrMake
  rcases hfound : c.get key with ⟨_ | v, c'⟩ <;> rw [hfound] at hget
  · rcases hmade : make s with ⟨e | v, s'⟩
    · exact .inr (.inr ⟨hget.symm, e, s', rfl, rfl⟩)
    · exact .inr (.inl ⟨hget.symm, v, s', rfl, rfl⟩)
  · exact .inl ⟨v, hget.symm, rfl⟩

/-- **A value that cannot be made is not stored, and makes no room.** -/
theorem getOrMake_error {ε σ : Type} {make : σ → Except ε α × σ} {s : σ} {err : ε}
    (h : (c.getOrMake key make s).1 = .error err) :
    (c.getOrMake key make s).2.2.1.table = c.table ∧
      (c.getOrMake key make s).2.2.1.recency = c.recency := by
  rcases c.getOrMake_cases key make s with
    ⟨v, -, hmade⟩ | ⟨-, v, s', -, hmade⟩ | ⟨hvalue, e, s', -, hmade⟩ <;> rw [hmade] at h ⊢
  · cases h
  · cases h
  · simp [RecencyCache.get, hvalue]

/-- Every operation keeps table and list in step. -/
theorem InStep.perform (h : c.InStep) (op : Operation α) :
    (op.perform c).2.InStep ∧ (op.perform c).2.capacity = c.capacity := by
  cases op with
  | get key =>
    obtain ⟨hstep, hcapacity, -⟩ := h.get key
    rcases hget : c.get key with ⟨_ | v, c'⟩ <;> rw [hget] at hstep hcapacity <;>
      simp only [Operation.perform, hget] <;> exact ⟨hstep, hcapacity⟩
  | set key v => exact ⟨(h.set key v).inStep, (h.set key v).capacity⟩
  | getOrMake key make s =>
    obtain ⟨hstep, hcapacity, -⟩ := h.get key
    rcases c.getOrMake_cases key make s with
      ⟨v, -, hmade⟩ | ⟨-, v, s', -, hmade⟩ | ⟨-, e, s', -, hmade⟩ <;>
      simp only [Operation.perform, hmade]
    · exact ⟨hstep, hcapacity⟩
    · exact ⟨(hstep.set key v).inStep, (hstep.set key v).capacity.trans hcapacity⟩
    · exact ⟨hstep, hcapacity⟩
  | invalidate key => exact h.invalidate key
  | clear => exact ⟨h.clear, rfl⟩

/-- The operation drops no single key. -/
def Operation.Ordered : Operation α → Prop
  | .invalidate _ => False
  | _ => True

/-- **A cache that follows its history goes on following it.** -/
theorem Follows.perform {log : List (Event α)} (h : c.Follows log) {op : Operation α}
    (hop : op.Ordered) : (op.perform c).2.Follows ((op.perform c).1 :: log) := by
  cases op with
  | get key =>
    have hfst := c.get_fst key
    have hfound : (c.value? key).isSome → (c.get key).2.Follows (.found key :: log) := h.found
    have hmissed : c.value? key = none → (c.get key).2.Follows log := h.missed
    -- The key was found, or it was missed.
    rcases hget : c.get key with ⟨_ | v, c'⟩ <;> rw [hget] at hfst hfound hmissed <;>
      simp only [Operation.perform, hget]
    · exact (hmissed hfst.symm).cons_missed key
    · exact hfound (hfst ▸ rfl)
  | set key v => exact h.stored key v
  -- The key was found; it was missed and the value stored; or the making of it failed.
  | getOrMake key make s =>
    rcases c.getOrMake_cases key make s with
      ⟨v, hvalue, hmade⟩ | ⟨hvalue, v, s', -, hmade⟩ | ⟨hvalue, e, s', -, hmade⟩ <;>
      simp only [Operation.perform, hmade]
    · exact h.found (hvalue ▸ rfl)
    · exact (h.missed hvalue).stored key v
    · exact (h.missed hvalue).cons_missed key
  | invalidate key => exact hop.elim
  | clear => exact h.cleared

theorem inStep_performAll (asked : Int) (ops : List (Operation α)) :
    ((empty asked).performAll ops).2.InStep ∧
      ((empty asked).performAll ops).2.capacity = capacityOf asked := by
  induction ops using List.reverseRecOn with
  | nil => exact ⟨.empty asked, rfl⟩
  | append_singleton ops op ih =>
    rw [performAll_concat]
    obtain ⟨hstep, hcapacity⟩ := ih.1.perform op
    exact ⟨hstep, hcapacity.trans ih.2⟩

/-- All operations in turn follow their history. -/
theorem follows_performAll (asked : Int) {ops : List (Operation α)} (hops : ∀ op ∈ ops, op.Ordered) :
    ((empty asked).performAll ops).2.Follows ((empty asked).performAll ops).1 := by
  induction ops using List.reverseRecOn with
  | nil => exact .empty asked
  | append_singleton ops op ih =>
    rw [performAll_concat]
    exact (ih fun op' hop' => hops op' (List.mem_append_left _ hop')).perform
      (hops op (List.mem_append_right _ (List.mem_singleton_self op)))

/-- **THE CACHE KEEPS WHAT WAS USED LAST.**  Whatever it is asked for, its table and its list hold
    the same keys, each once and never more than the capacity.  If no single key was dropped, then a
    key is found, with the value stored last, just when it was stored since everything was dropped
    and fewer other keys than the capacity were used since its own last use.  A value that cannot be
    made is not stored, and makes no room. -/
theorem found_iff_recent (asked : Int) (ops : List (Operation α)) :
    ∃ log c, (empty asked).performAll ops = (log, c) ∧
      (c.capacity = capacityOf asked ∧ (c.table.map Prod.fst).Nodup ∧ c.recency.Nodup ∧
        (∀ key, key ∈ c.table.map Prod.fst ↔ key ∈ c.recency) ∧ c.size = c.recency.length ∧
        c.size ≤ c.capacity) ∧
      ((∀ op ∈ ops, op.Ordered) → ∀ key, (c.get key).1 =
        if (othersSince key log).card < capacityOf asked then lastStored key log else none) ∧
      ∀ {ε σ : Type} (key : String) (make : σ → Except ε α × σ) (s : σ) (e : ε),
        (c.getOrMake key make s).1 = .error e →
          (c.getOrMake key make s).2.2.1.table = c.table ∧
            (c.getOrMake key make s).2.2.1.recency = c.recency := by
  obtain ⟨hstep, hcapacity⟩ := inStep_performAll asked ops
  have hfollows : (∀ op ∈ ops, op.Ordered) → ((empty asked).performAll ops).2.Follows
    ((empty asked).performAll ops).1 := follows_performAll asked
  generalize (empty asked).performAll ops = r at hstep hcapacity hfollows
  obtain ⟨log, c⟩ := r
  refine ⟨log, c, rfl, ⟨hcapacity, hstep.keys.nodup_iff.2 hstep.nodup, hstep.nodup,
    fun key => hstep.keys.mem_iff, hstep.size, hstep.size ▸ hstep.bounded⟩, fun hops key => ?_,
    fun key make s e herror => getOrMake_error herror⟩
  rw [get_fst, (hfollows hops).value?_eq, hcapacity]

/-- Of three keys in a cache for two, the one that was neither stored nor found last is forgotten,
    also when the last request could not make a value. -/
theorem found_iff_recent_three :
    let failing : Operation Nat := .getOrMake "d" (fun n : Nat => (.error "no", n + 1)) 0
    let ops : List (Operation Nat) := [.set "a" 1, .set "b" 2, .get "a", .set "c" 3, failing]
    let c := ((empty 2).performAll ops).2
    (∀ op ∈ ops, op.Ordered) ∧ (c.get "a").1 = some 1 ∧ (c.get "b").1 = none ∧
      (c.get "c").1 = some 3 := by
  intro failing ops c
  have hops : ∀ op ∈ ops, op.Ordered := by
    simp [ops, failing, Operation.Ordered]
  obtain ⟨log, c', hrun, -, hfound, -⟩ := found_iff_recent 2 ops
  have hlog : log = [.missed "d", .stored "c" 3, .found "a", .stored "b" 2, .stored "a" 1] :=
    (congrArg Prod.fst hrun).symm
  have hc : c' = c := (congrArg Prod.snd hrun).symm
  subst hlog hc
  exact ⟨hops, (hfound hops "a").trans (by decide), (hfound hops "b").trans (by decide),
    (hfound hops "c").trans (by decide)⟩

end RecencyCache

end PrologMachine
