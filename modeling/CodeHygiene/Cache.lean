/-!
A map of fixed capacity that gives up its oldest key first. Reading does not change the order, and
setting a key that is there only changes its value. A key may hold no value (`none`): it takes a
place, and reading it counts as a miss. A capacity of zero stores nothing.
-/

namespace CodeHygiene

/-- Entries stand in the order in which their keys came in, the oldest first. -/
structure Cache (κ : Type) (ν : Type) where
  capacity : Nat
  entries : List (κ × Option ν) := []
  hits : Nat := 0
  misses : Nat := 0
  evictions : Nat := 0

/-- A capacity below zero. -/
structure CapacityFault where
  capacity : Int

def CapacityFault.message (f : CapacityFault) : String :=
  "Cache capacity must be >= 0, got " ++ toString f.capacity

namespace Cache

variable {κ ν : Type} [BEq κ]

def ofCapacity (capacity : Int) : Except CapacityFault (Cache κ ν) :=
  if capacity < 0 then .error ⟨capacity⟩ else .ok { capacity := capacity.toNat }

def size (c : Cache κ ν) : Nat := c.entries.length

def keys (c : Cache κ ν) : List κ := c.entries.map (·.1)

def contains (c : Cache κ ν) (key : κ) : Bool := c.entries.any (·.1 == key)

/-- Whether the cache stores anything. -/
def isEnabled (c : Cache κ ν) : Bool := 0 < c.capacity

/-- The value a key holds, without counting. -/
def peek? (c : Cache κ ν) (key : κ) : Option ν := (c.entries.lookup key).join

def get (c : Cache κ ν) (key : κ) : Option ν × Cache κ ν :=
  match c.peek? key with
  | some value => (some value, { c with hits := c.hits + 1 })
  | none => (none, { c with misses := c.misses + 1 })

/-- The number of oldest entries that must go before a new one fits. -/
def surplus (c : Cache κ ν) : Nat := c.size + 1 - c.capacity

def set (c : Cache κ ν) (key : κ) (value : Option ν) : Cache κ ν :=
  if !c.isEnabled then c
  else if c.contains key then
    { c with entries := c.entries.map fun e => if e.1 == key then (e.1, value) else e }
  else
    { c with
      entries := c.entries.drop c.surplus ++ [(key, value)]
      evictions := c.evictions + c.surplus }

/-- Drops every entry; the counters stay. -/
def clear (c : Cache κ ν) : Cache κ ν := { c with entries := [] }

/-- The share of reads that found a value; zero before the first read. -/
def hitRate (c : Cache κ ν) : Float :=
  if c.hits + c.misses = 0 then 0.0 else Float.ofNat c.hits / Float.ofNat (c.hits + c.misses)

theorem get_entries (c : Cache κ ν) (key : κ) : (c.get key).2.entries = c.entries := by
  unfold get; split <;> rfl

theorem get_counts (c : Cache κ ν) (key : κ) :
    (c.get key).2.hits + (c.get key).2.misses = c.hits + c.misses + 1 := by
  unfold get; split <;> simp <;> omega

theorem set_size_le (c : Cache κ ν) (key : κ) (value : Option ν) (h : c.size ≤ c.capacity) :
    (c.set key value).size ≤ (c.set key value).capacity := by
  unfold set
  split
  · exact h
  · split
    · simpa [size] using h
    · rename_i he _
      simp only [isEnabled, Bool.not_eq_true', decide_eq_false_iff_not, Nat.not_lt,
        Nat.le_zero_eq] at he
      simp only [size, surplus, List.length_append, List.length_drop, List.length_cons,
        List.length_nil] at *
      omega

end Cache

end CodeHygiene
