/-
  PrologMachine.RecencyCache ── **A CACHE THAT FORGETS WHAT WAS USED LEAST RECENTLY.**

  A table holds the values by key, and beside it a list holds the keys in the order of their last
  use, the latest first.  A full cache makes room by dropping the key at the end of the list.
-/

namespace PrologMachine

/-- A cache of values by text key. -/
structure RecencyCache (α : Type) where
  /-- How many keys it holds at most. -/
  capacity : Nat
  /-- The values by key. -/
  table : List (String × α) := []
  /-- The keys, most recently used first. -/
  recency : List String := []
  /-- How often a key was found. -/
  hits : Nat := 0
  /-- How often a key was not found. -/
  misses : Nat := 0

namespace RecencyCache

variable {α : Type}

/-- The capacity when none is asked for. -/
def defaultCapacity : Nat := 256

/-- The capacity that is granted: one of zero or less means the default. -/
def capacityOf (asked : Int) : Nat := if asked ≤ 0 then defaultCapacity else asked.toNat

/-- An empty cache. -/
def empty (asked : Int) : RecencyCache α := { capacity := capacityOf asked }

/-- The number of keys. -/
def size (c : RecencyCache α) : Nat := c.table.length

/-- The value under a key. -/
def value? (c : RecencyCache α) (key : String) : Option α := c.table.lookup key

/-- The table without a key. -/
def without (c : RecencyCache α) (key : String) : List (String × α) :=
  c.table.filter (fun e => e.1 ≠ key)

/-- Make a key the most recent one. -/
def touch (c : RecencyCache α) (key : String) : RecencyCache α :=
  { c with recency := key :: c.recency.erase key }

/-- Drop the key that was used least recently. -/
def evict (c : RecencyCache α) : RecencyCache α :=
  match c.recency.getLast? with
  | none => c
  | some key => { c with table := c.without key, recency := c.recency.dropLast }

/-- Look a key up; one that is found becomes the most recent. -/
def get (c : RecencyCache α) (key : String) : Option α × RecencyCache α :=
  match c.value? key with
  | some v => (some v, { c.touch key with hits := c.hits + 1 })
  | none => (none, { c with misses := c.misses + 1 })

/-- Put a new key in front. -/
def add (c : RecencyCache α) (key : String) (v : α) : RecencyCache α :=
  { c with table := (key, v) :: c.table, recency := key :: c.recency }

/-- Store a value under a key, which becomes the most recent; a new key may need room. -/
def set (c : RecencyCache α) (key : String) (v : α) : RecencyCache α :=
  if (c.value? key).isSome then { c.touch key with table := (key, v) :: c.without key }
  else if c.capacity ≤ c.recency.length then c.evict.add key v
  else c.add key v

/-- The value under a key, or the one that `make` yields from `s`, which is then stored; a failure
    stores nothing.  The flag says whether `make` ran. -/
def getOrMake {ε σ : Type} (c : RecencyCache α) (key : String) (make : σ → Except ε α × σ) (s : σ) :
    Except ε α × Bool × RecencyCache α × σ :=
  match c.get key with
  | (some v, c) => (.ok v, false, c, s)
  | (none, c) =>
    match make s with
    | (.ok v, s) => (.ok v, true, c.set key v, s)
    | (.error e, s) => (.error e, true, c, s)

/-- Drop a key. -/
def invalidate (c : RecencyCache α) (key : String) : RecencyCache α :=
  if (c.value? key).isSome then
    { c with table := c.without key, recency := c.recency.erase key }
  else c

/-- Drop all keys; the counts stay. -/
def clear (c : RecencyCache α) : RecencyCache α := { c with table := [], recency := [] }

end RecencyCache

end PrologMachine
