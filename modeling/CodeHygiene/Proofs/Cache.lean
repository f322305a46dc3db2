import CodeHygiene.Cache

/-!
A cache as the memory of a function.

Proved:
(1) A cache that is faithful to a function, in that every key holds the function's value and no more
    keys are held than there is room for, answers a read with the function's value or not at all
    (`Faithful.eq_of_get`).
(2) A new cache is faithful to every function; reading, clearing and setting a key to the function's
    value keep a cache faithful (`Faithful.get`, `Faithful.clear`, `Faithful.set`), also where the
    capacity is zero or a setting gives up the oldest keys.
-/

namespace CodeHygiene.Cache

variable {κ ν : Type} {capacity : Nat} {f : κ → ν} {c : Cache κ ν}

/-- Room for `capacity` keys, and at every key that is held what `f` gives there. -/
structure Faithful (capacity : Nat) (f : κ → ν) (c : Cache κ ν) : Prop where
  capacity_eq : c.capacity = capacity
  size_le : c.size ≤ capacity
  value_eq : ∀ e ∈ c.entries, e.2 = some (f e.1)

theorem faithful_empty (capacity : Nat) (f : κ → ν) : Faithful capacity f { capacity } where
  capacity_eq := rfl
  size_le := Nat.zero_le _
  value_eq := by intro e mem; cases mem

theorem Faithful.clear (h : Faithful capacity f c) : Faithful capacity f c.clear where
  capacity_eq := h.capacity_eq
  size_le := Nat.zero_le _
  value_eq := by intro e mem; cases mem

/-! ## Reads -/

variable [BEq κ]

theorem get_capacity (c : Cache κ ν) (key : κ) : (c.get key).2.capacity = c.capacity := by
  unfold get; split <;> rfl

theorem get_value (c : Cache κ ν) (key : κ) : (c.get key).1 = c.peek? key := by
  unfold get; split <;> simp_all

theorem Faithful.get (h : Faithful capacity f c) (key : κ) : Faithful capacity f (c.get key).2 where
  capacity_eq := by rw [get_capacity, h.capacity_eq]
  size_le := by rw [size, get_entries]; exact h.size_le
  value_eq := by rw [get_entries]; exact h.value_eq

theorem Faithful.eq_of_get [LawfulBEq κ] (h : Faithful capacity f c) {key : κ} {value : ν}
    (found : (c.get key).1 = some value) : value = f key := by
  rw [get_value, peek?, Option.join_eq_some_iff, List.lookup_eq_some_iff] at found
  obtain ⟨before, after, split, -⟩ := found
  have held : (key, some value) ∈ c.entries := by rw [split]; simp
  exact Option.some.inj (h.value_eq _ held)

/-! ## Writes -/

theorem set_capacity (c : Cache κ ν) (key : κ) (value : Option ν) : (c.set key value).capacity = c.capacity := by
  unfold set; split
  · rfl
  · split <;> rfl

/-- After a write an entry is the one that was written or one that was there before. -/
theorem mem_set [LawfulBEq κ] {key : κ} {value : Option ν} {e : κ × Option ν}
    (h : e ∈ (c.set key value).entries) : e = (key, value) ∨ e ∈ c.entries := by
  unfold set at h
  split at h
  · exact .inr h
  split at h
  · obtain ⟨old, mem, rfl⟩ := List.mem_map.mp h
    by_cases same : old.1 == key
    · simp [eq_of_beq same]
    · simp [same, mem]
  · rcases List.mem_append.mp h with kept | new
    · exact .inr (List.mem_of_mem_drop kept)
    · exact .inl (List.mem_singleton.mp new)

theorem Faithful.set [LawfulBEq κ] (h : Faithful capacity f c) (key : κ) :
    Faithful capacity f (c.set key (some (f key))) where
  capacity_eq := by rw [set_capacity, h.capacity_eq]
  size_le := by
    have le := set_size_le c key (some (f key)) (by rw [h.capacity_eq]; exact h.size_le)
    rwa [set_capacity, h.capacity_eq] at le
  value_eq := by
    intro e mem
    rcases mem_set mem with rfl | old
    · rfl
    · exact h.value_eq e old

end CodeHygiene.Cache
