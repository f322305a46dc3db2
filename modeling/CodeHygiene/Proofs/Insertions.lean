import CodeHygiene.Proofs.Cache
import Mathlib.Algebra.GroupWithZero.Nat
import Mathlib.Data.List.Nodup

/-!
A cache as the end of the log of what came in.

A key comes in when it is set where there is room and it is not there. What is kept is the end of the list of
the keys that came in since the last clearing, so that a key that was given up may come in again, and setting a
key that is there moves nothing. Nothing else that may be asked of a cache changes what it keeps.

Proved:
(1) To get a value, to look for a key and to list the keys leaves the entries as they are
    (`Request.IsRead.entries_eq`).
(2) Every request keeps the cache in step with the log (`InStep.answer`): the keys are the last of those that came
    in, none twice, and as many were given up as came in beyond the room, stretch by stretch.
(3) Every request leaves each key with the value that it was given last (`Recent.answer`), and counts a read that
    found a value as a hit and one that found none as a miss (`counters_answer`).
(4) So does every series of requests to a new cache (`keeps_the_last_that_came_in`).
-/

namespace CodeHygiene.Cache

variable {κ ν : Type}

/-! ## Requests -/

/-- What may be asked of a cache. -/
inductive Request (κ ν : Type) where
  | get (key : κ)
  | set (key : κ) (value : Option ν)
  | contains (key : κ)
  | keys
  | clear
  deriving DecidableEq, Repr

inductive Answer (κ ν : Type) where
  | value (found : Option ν)
  | done
  | contained (there : Bool)
  | keys (all : List κ)
  | cleared (count : Nat)
  deriving DecidableEq, Repr

/-- A read that found a value. -/
def Answer.isHit : Answer κ ν → Bool
  | .value (some _) => true
  | _ => false

/-- A read that found none, be the key missing or without a value. -/
def Answer.isMiss : Answer κ ν → Bool
  | .value none => true
  | _ => false

def Request.isGet : Request κ ν → Bool
  | .get _ => true
  | _ => false

/-- A request that only asks what is there. -/
def Request.IsRead : Request κ ν → Prop
  | .get _ | .contains _ | .keys => True
  | .set _ _ | .clear => False

/-- The keys that came in since the last clearing, in their order, and those of each stretch that a clearing
ended. -/
structure Log (κ : Type) where
  current : List κ := []
  ended : List (List κ) := []
  deriving DecidableEq, Repr

def Log.stretches (log : Log κ) : List (List κ) := log.ended ++ [log.current]

/-- How many keys came in that there is no room for beside the later ones of their stretch. -/
def Log.surplus (capacity : Nat) (log : Log κ) : Nat := (log.stretches.map fun keys => keys.length - capacity).sum

theorem length_keys (c : Cache κ ν) : c.keys.length = c.size := List.length_map _

/-- The keys are the last of those that came in, as far as there is room. -/
structure InStep (capacity : Nat) (log : Log κ) (c : Cache κ ν) : Prop where
  capacity_eq : c.capacity = capacity
  keys_eq : c.keys = log.current.drop (log.current.length - capacity)
  nodup : c.keys.Nodup
  /-- Without room nothing comes in. -/
  roomless : capacity = 0 → log.current = []
  evictions_eq : c.evictions = log.surplus capacity

namespace InStep

variable {capacity : Nat} {log : Log κ} {c c' : Cache κ ν}

theorem size_eq (h : InStep capacity log c) : c.size = min capacity log.current.length := by
  rw [← length_keys, h.keys_eq, List.length_drop]
  omega

theorem of_same (h : InStep capacity log c) (room : c'.capacity = c.capacity) (keys : c'.keys = c.keys)
    (evictions : c'.evictions = c.evictions) : InStep capacity log c' where
  capacity_eq := by rw [room, h.capacity_eq]
  keys_eq := by rw [keys, h.keys_eq]
  nodup := by rw [keys]; exact h.nodup
  roomless := h.roomless
  evictions_eq := by rw [evictions, h.evictions_eq]

theorem clear (h : InStep capacity log c) :
    InStep capacity { current := [], ended := log.ended ++ [log.current] } c.clear where
  capacity_eq := h.capacity_eq
  keys_eq := by simp [keys, Cache.clear]
  nodup := List.nodup_nil
  roomless := fun _ => rfl
  evictions_eq := by
    have before : c.clear.evictions = log.surplus capacity := h.evictions_eq
    simp [before, Log.surplus, Log.stretches]

end InStep

theorem inStep_empty (capacity : Nat) : InStep capacity {} ({ capacity } : Cache κ ν) where
  capacity_eq := rfl
  keys_eq := by simp [keys]
  nodup := List.nodup_nil
  roomless := fun _ => rfl
  evictions_eq := by simp [Log.surplus, Log.stretches]

/-! ## Answers -/

variable [BEq κ] {capacity : Nat} {log : Log κ} {c : Cache κ ν}

def answer (c : Cache κ ν) : Request κ ν → Answer κ ν × Cache κ ν
  | .get key => (.value (c.get key).1, (c.get key).2)
  | .set key value => (.done, c.set key value)
  | .contains key => (.contained (c.contains key), c)
  | .keys => (.keys c.keys, c)
  | .clear => (.cleared c.size, c.clear)

/-- The answers to a series of requests, and the cache that they leave behind. -/
def answers (c : Cache κ ν) : List (Request κ ν) → List (Answer κ ν) × Cache κ ν
  | [] => ([], c)
  | request :: more =>
    let (first, c) := c.answer request
    let (rest, c) := c.answers more
    (first :: rest, c)

theorem Request.IsRead.entries_eq {request : Request κ ν} (read : request.IsRead) (c : Cache κ ν) :
    (c.answer request).2.entries = c.entries := by
  cases request with
  | get key => exact get_entries c key
  | contains key => rfl
  | keys => rfl
  | set key value => exact read.elim
  | clear => exact read.elim

/-! ## What a setting leaves -/

theorem contains_iff [LawfulBEq κ] {key : κ} : c.contains key = true ↔ key ∈ c.keys := by
  simp only [contains, keys, List.any_eq_true, List.mem_map, beq_iff_eq]

theorem set_of_disabled (off : c.isEnabled = false) (key : κ) (value : Option ν) : c.set key value = c := by
  simp [set, off]

/-- Setting a key that is there moves nothing. -/
theorem keys_set_of_contains {key : κ} (there : c.contains key = true) (value : Option ν) :
    (c.set key value).keys = c.keys := by
  cases on : c.isEnabled with
  | false => rw [set_of_disabled on]
  | true =>
    simp only [set, on, there, Bool.not_true, Bool.false_eq_true, if_false, if_true, keys, List.map_map]
    refine List.map_congr_left fun e _ => ?_
    by_cases same : e.1 == key <;> simp [same]

theorem keys_set_of_absent {key : κ} (on : c.isEnabled = true) (absent : c.contains key = false) (value : Option ν) :
    (c.set key value).keys = c.keys.drop c.surplus ++ [key] := by
  simp [set, on, absent, keys, List.map_drop]

theorem evictions_set_of_contains {key : κ} (there : c.contains key = true) (value : Option ν) :
    (c.set key value).evictions = c.evictions := by
  cases on : c.isEnabled <;> simp [set, on, there]

/-- What is there after a key was set is its new value, or belongs to another key. -/
theorem mem_set_of_enabled [LawfulBEq κ] (on : c.isEnabled = true) {key : κ} {value : Option ν} {e : κ × Option ν}
    (h : e ∈ (c.set key value).entries) : e = (key, value) ∨ e ∈ c.entries ∧ e.1 ≠ key := by
  cases there : c.contains key with
  | true =>
    simp only [set, on, there, Bool.not_true, Bool.false_eq_true, if_false, if_true] at h
    obtain ⟨old, mem, rfl⟩ := List.mem_map.mp h
    by_cases same : old.1 = key
    · exact .inl (by simp [same])
    · exact .inr (by simp [same, mem])
  | false =>
    rcases mem_set h with new | old
    · exact .inl new
    · refine .inr ⟨old, fun same => ?_⟩
      have held : c.contains key = true := contains_iff.mpr (List.mem_map.mpr ⟨e, old, same⟩)
      rw [there] at held
      cases held

/-! ## In step with the log -/

/-- What a request to a cache adds to the log. -/
def Log.note (log : Log κ) (c : Cache κ ν) : Request κ ν → Log κ
  | .set key _ => if c.isEnabled && !c.contains key then { log with current := log.current ++ [key] } else log
  | .clear => { current := [], ended := log.ended ++ [log.current] }
  | _ => log

/-- The log after a series of requests. -/
def logged (c : Cache κ ν) (log : Log κ) : List (Request κ ν) → Log κ
  | [] => log
  | request :: more => logged (c.answer request).2 (log.note c request) more

namespace InStep

/-- A key that comes in where no room is left takes that of the one that came in first. -/
theorem come_in [LawfulBEq κ] (h : InStep capacity log c) {key : κ} (on : c.isEnabled = true)
    (absent : c.contains key = false) (value : Option ν) :
    InStep capacity { log with current := log.current ++ [key] } (c.set key value) := by
  have pos : 0 < capacity := by
    rw [isEnabled, h.capacity_eq] at on
    exact of_decide_eq_true on
  have given_up : c.surplus = (log.current.length + 1 - capacity) - (log.current.length - capacity) := by
    rw [surplus, h.size_eq, h.capacity_eq]
    omega
  refine ⟨?_, ?_, ?_, fun zero => absurd zero (Nat.ne_of_gt pos), ?_⟩
  · rw [set_capacity, h.capacity_eq]
  · have place : log.current.length - capacity + c.surplus = log.current.length + 1 - capacity := by omega
    rw [keys_set_of_absent on absent, h.keys_eq, List.drop_drop, place, List.length_append, List.length_singleton,
      List.drop_append_of_le_length (by omega)]
  · have outside : key ∉ c.keys.drop c.surplus := by
      intro mem
      rw [contains_iff.mpr (List.mem_of_mem_drop mem)] at absent
      cases absent
    rw [keys_set_of_absent on absent, ← List.concat_eq_append]
    exact (h.nodup.sublist (List.drop_sublist _ _)).concat outside
  · have counted : (c.set key value).evictions = c.evictions + c.surplus := by simp [Cache.set, on, absent]
    rw [counted, h.evictions_eq, given_up]
    simp only [Log.surplus, Log.stretches, List.map_append, List.map_singleton, List.sum_append, List.sum_singleton,
      List.length_append, List.length_singleton]
    omega

theorem set [LawfulBEq κ] (h : InStep capacity log c) (key : κ) (value : Option ν) :
    InStep capacity (log.note c (.set key value)) (c.set key value) := by
  cases on : c.isEnabled with
  | false =>
    rw [set_of_disabled on]
    simpa [Log.note, on] using h
  | true =>
    cases there : c.contains key with
    | false => simpa [Log.note, on, there] using h.come_in on there value
    | true =>
      have same := h.of_same (set_capacity c key value) (keys_set_of_contains there value)
        (evictions_set_of_contains there value)
      simpa [Log.note, there] using same

theorem get (h : InStep capacity log c) (key : κ) : InStep capacity log (c.get key).2 := by
  refine h.of_same (get_capacity c key) (by rw [keys, get_entries, ← keys]) ?_
  unfold Cache.get
  split <;> rfl

theorem answer [LawfulBEq κ] (h : InStep capacity log c) (request : Request κ ν) :
    InStep capacity (log.note c request) (c.answer request).2 := by
  cases request with
  | get key => exact h.get key
  | set key value => exact h.set key value
  | contains key => exact h
  | keys => exact h
  | clear => exact h.clear

theorem answers [LawfulBEq κ] (h : InStep capacity log c) (requests : List (Request κ ν)) :
    InStep capacity (logged c log requests) (c.answers requests).2 := by
  induction requests generalizing c log with
  | nil => exact h
  | cons request more ih => exact ih (h.answer request)

end InStep

/-! ## Values -/

/-- The value that a request gives a key. -/
def Request.given? (key : κ) : Request κ ν → Option (Option ν)
  | .set k value => if k == key then some value else none
  | _ => none

/-- The value that a key was given last. -/
def lastGiven? (key : κ) (requests : List (Request κ ν)) : Option (Option ν) :=
  requests.reverse.findSome? (Request.given? key)

theorem lastGiven?_concat (key : κ) (past : List (Request κ ν)) (request : Request κ ν) :
    lastGiven? key (past ++ [request]) = (request.given? key).or (lastGiven? key past) := by
  rw [lastGiven?, List.reverse_append, List.reverse_singleton, List.singleton_append, List.findSome?_cons, lastGiven?]
  cases request.given? key <;> rfl

/-- Every key that is there holds the value that it was given last. -/
structure Recent (past : List (Request κ ν)) (c : Cache κ ν) : Prop where
  value_eq : ∀ e ∈ c.entries, lastGiven? e.1 past = some e.2
  /-- Without room there is no key. -/
  roomless : c.isEnabled = false → c.entries = []

theorem recent_empty (capacity : Nat) : Recent [] ({ capacity } : Cache κ ν) :=
  ⟨fun _ mem => absurd mem List.not_mem_nil, fun _ => rfl⟩

namespace Recent

variable {past : List (Request κ ν)}

/-- A request that gives no value changes none. -/
theorem of_same {c' : Cache κ ν} {request : Request κ ν} (h : Recent past c) (none : ∀ key, request.given? key = none)
    (room : c'.isEnabled = c.isEnabled) (entries : c'.entries = c.entries) : Recent (past ++ [request]) c' where
  value_eq := by
    intro e mem
    rw [entries] at mem
    rw [lastGiven?_concat, none, Option.none_or, h.value_eq e mem]
  roomless := by
    rw [room, entries]
    exact h.roomless

theorem set [LawfulBEq κ] (h : Recent past c) (key : κ) (value : Option ν) :
    Recent (past ++ [.set key value]) (c.set key value) := by
  cases on : c.isEnabled with
  | false =>
    have nothing := h.roomless on
    rw [set_of_disabled on]
    refine ⟨fun e mem => ?_, fun _ => nothing⟩
    rw [nothing] at mem
    cases mem
  | true =>
    have still : (c.set key value).isEnabled = true := by rw [isEnabled, set_capacity, ← isEnabled, on]
    refine ⟨fun e mem => ?_, fun off => by rw [still] at off; cases off⟩
    rw [lastGiven?_concat]
    rcases mem_set_of_enabled on mem with rfl | ⟨old, other⟩
    · simp [Request.given?]
    · have apart : (key == e.1) = false := by simpa using Ne.symm other
      rw [Request.given?, apart, if_neg Bool.false_ne_true, Option.none_or, h.value_eq e old]

theorem answer [LawfulBEq κ] (h : Recent past c) (request : Request κ ν) :
    Recent (past ++ [request]) (c.answer request).2 := by
  cases request with
  | get key =>
    have room : (c.get key).2.isEnabled = c.isEnabled := by rw [isEnabled, get_capacity, ← isEnabled]
    exact h.of_same (fun _ => rfl) room (get_entries c key)
  | set key value => exact h.set key value
  | contains key => exact h.of_same (fun _ => rfl) rfl rfl
  | keys => exact h.of_same (fun _ => rfl) rfl rfl
  | clear => exact ⟨fun _ mem => absurd mem List.not_mem_nil, fun _ => rfl⟩

theorem answers [LawfulBEq κ] (h : Recent past c) (requests : List (Request κ ν)) :
    Recent (past ++ requests) (c.answers requests).2 := by
  induction requests generalizing c past with
  | nil => simpa [Cache.answers] using h
  | cons request more ih =>
    have rest := ih (h.answer request)
    rwa [List.append_assoc, List.singleton_append] at rest

theorem get_eq [LawfulBEq κ] (h : Recent past c) (key : κ) :
    (c.get key).1 = if c.contains key then (lastGiven? key past).join else none := by
  rw [get_value, peek?]
  cases found : c.entries.lookup key with
  | none =>
    have missing : c.contains key = false := by
      rw [List.lookup_eq_none_iff] at found
      rw [contains, List.any_eq_false]
      intro e mem same
      exact bne_iff_ne.mp (found e mem) (eq_of_beq same).symm
    rw [missing]
    rfl
  | some value =>
    obtain ⟨before, after, split, -⟩ := List.lookup_eq_some_iff.mp found
    have held : (key, value) ∈ c.entries := by rw [split]; simp
    have there : c.contains key = true := List.any_eq_true.mpr ⟨_, held, beq_self_eq_true key⟩
    rw [if_pos there, h.value_eq _ held]

end Recent

/-! ## Counts -/

theorem counters_answer (c : Cache κ ν) (request : Request κ ν) :
    (c.answer request).2.hits = c.hits + (if (c.answer request).1.isHit then 1 else 0) ∧
      (c.answer request).2.misses = c.misses + (if (c.answer request).1.isMiss then 1 else 0) := by
  cases request with
  | get key => cases found : c.peek? key <;> simp [answer, get, found, Answer.isHit, Answer.isMiss]
  | set key value =>
    cases on : c.isEnabled <;> cases there : c.contains key <;>
      simp [answer, set, on, there, Answer.isHit, Answer.isMiss]
  | contains key => exact ⟨rfl, rfl⟩
  | keys => exact ⟨rfl, rfl⟩
  | clear => exact ⟨rfl, rfl⟩

theorem counters_answers (c : Cache κ ν) (requests : List (Request κ ν)) :
    (c.answers requests).2.hits = c.hits + (c.answers requests).1.countP Answer.isHit ∧
      (c.answers requests).2.misses = c.misses + (c.answers requests).1.countP Answer.isMiss := by
  induction requests generalizing c with
  | nil => exact ⟨rfl, rfl⟩
  | cons request more ih =>
    obtain ⟨hit, missed⟩ := counters_answer c request
    obtain ⟨hits, misses⟩ := ih (c.answer request).2
    simp only [answers, hits, misses, hit, missed, List.countP_cons]
    omega

/-- Every read is a hit or a miss, and nothing else is. -/
theorem hits_add_misses (c : Cache κ ν) (requests : List (Request κ ν)) :
    (c.answers requests).1.countP Answer.isHit + (c.answers requests).1.countP Answer.isMiss =
      requests.countP Request.isGet := by
  induction requests generalizing c with
  | nil => rfl
  | cons request more ih =>
    have rest := ih (c.answer request).2
    simp only [answers, List.countP_cons]
    cases request with
    | get key =>
      cases found : (c.get key).1 <;> simp [answer, found, Answer.isHit, Answer.isMiss, Request.isGet] at rest ⊢ <;> omega
    | set key value => simpa [answer, Answer.isHit, Answer.isMiss, Request.isGet] using rest
    | contains key => simpa [answer, Answer.isHit, Answer.isMiss, Request.isGet] using rest
    | keys => simpa [answer, Answer.isHit, Answer.isMiss, Request.isGet] using rest
    | clear => simpa [answer, Answer.isHit, Answer.isMiss, Request.isGet] using rest

/-! ## Every series of requests -/

/-- For every capacity and every series of requests to a new cache:
- the keys are the last of those that came in since the last clearing, as far as there is room, none twice;
- a key that is there holds the value that it was given last, and a read gives that value, or none where the
  key is not there;
- as many keys were given up as came in beyond the room, stretch by stretch;
- the reads that found a value are the hits, those that found none are the misses, and there are no others;
- to get a value, to look for a key and to list the keys leaves the entries as they are. -/
theorem keeps_the_last_that_came_in [LawfulBEq κ] (capacity : Nat) (requests : List (Request κ ν)) :
    let new : Cache κ ν := { capacity }
    let log := logged new {} requests
    let c := (new.answers requests).2
    ofCapacity capacity = .ok new ∧
    c.keys = log.current.drop (log.current.length - capacity) ∧ c.keys.length = min capacity log.current.length ∧
    c.keys.Nodup ∧
    (∀ e ∈ c.entries, lastGiven? e.1 requests = some e.2) ∧
    (∀ key, (c.get key).1 = if c.contains key then (lastGiven? key requests).join else none) ∧
    c.evictions = (log.stretches.map fun keys => keys.length - capacity).sum ∧
    c.hits = (new.answers requests).1.countP Answer.isHit ∧
    c.misses = (new.answers requests).1.countP Answer.isMiss ∧
    c.hits + c.misses = requests.countP Request.isGet ∧
    ∀ request : Request κ ν, request.IsRead → (c.answer request).2.entries = c.entries := by
  intro new log c
  have inStep : InStep capacity log c := (inStep_empty capacity).answers requests
  have recent : Recent requests c := (recent_empty capacity).answers requests
  obtain ⟨hits, misses⟩ := counters_answers new requests
  rw [Nat.zero_add] at hits misses
  refine ⟨?_, inStep.keys_eq, ?_, inStep.nodup, recent.value_eq, recent.get_eq, inStep.evictions_eq, hits, misses, ?_,
    fun request read => read.entries_eq c⟩
  · have fits : ¬(capacity : Int) < 0 := by omega
    rw [ofCapacity, if_neg fits, Int.toNat_natCast]
  · rw [length_keys, inStep.size_eq]
  · rw [← hits_add_misses new requests, ← hits, ← misses]

/-- With room for one key: a key that was given up comes in again, one without a value takes a place, and a
clearing begins a new stretch. -/
theorem keeps_the_last_of_two_stretches :
    let c := (answers ({ capacity := 1 } : Cache Nat Nat)
      [.set 1 (some 10), .set 2 none, .get 2, .set 1 (some 11), .get 1, .clear, .set 3 (some 12), .set 4 none]).2
    c.keys = [4] ∧ (c.get 4).1 = none ∧ c.evictions = 2 + 1 ∧ c.hits + c.misses = 2 := by
  obtain ⟨-, keys, -, -, -, got, evictions, -, -, reads, -⟩ := keeps_the_last_that_came_in (κ := Nat) (ν := Nat) 1
    [.set 1 (some 10), .set 2 none, .get 2, .set 1 (some 11), .get 1, .clear, .set 3 (some 12), .set 4 none]
  exact ⟨keys.trans (by decide), (got 4).trans (by decide), evictions.trans (by decide), reads.trans (by decide)⟩

end CodeHygiene.Cache
