import CodeHygiene.Report.Listing
import Mathlib.Algebra.GroupWithZero.Nat
import Mathlib.Data.List.Induction
import Mathlib.Data.List.Nodup
import Mathlib.Data.List.Perm.Basic

/-!
Items in groups.

A report groups its findings by what they have in common: their severity, their certainty, their file, their rule. The
groups stand in the order of a list of keys, which may be the keys of the items themselves; then a group stands where its
first item comes.

Proved:
(1) Items without repetitions stand in the order in which they first come (`pairwise_idxOf_eraseDups`); one item more
    changes an entry of theirs or adds one (`map_eraseDups_concat`).
(2) Under distinct keys that cover all items, the groups put together are the items in another order
    (`perm_flatMap_filter`), so their sizes add up (`sum_length_filter`); with the keys in order they are a grouping
    (`grouped_of_keys`).
(3) A tally counts each item once, in the order in which the items first come (`tally_eq`).
(4) The counts under all severities, and those under all certainties, come to the number of findings
    (`sum_withSeverity`, `sum_withCertainty`).
(5) Findings by file are a grouping in the order of the files' first findings (`grouped_byFile`).
-/

namespace CodeHygiene

variable {α κ : Type} [DecidableEq κ] {key : α → κ} {order keys : List κ} {items : List α}

/-! ## Without repetitions -/

theorem eraseDups_concat (l : List κ) (k : κ) :
    (l ++ [k]).eraseDups = if k ∈ l then l.eraseDups else l.eraseDups ++ [k] := by
  rw [List.eraseDups_append, List.removeAll]
  by_cases old : k ∈ l
  · simp [old]
  · simp [old]
    rfl

/-- Where only the last key makes a difference, it changes the entry that it has, or has one at the end. -/
theorem map_eraseDups_concat {f g : κ → α} (l : List κ) (k : κ) (same : ∀ k', k' ≠ k → f k' = g k') :
    (l ++ [k]).eraseDups.map f = if k ∈ l then l.eraseDups.map f else l.eraseDups.map g ++ [f k] := by
  rw [eraseDups_concat]
  split
  next => rfl
  next new =>
    rw [List.map_append, List.map_singleton]
    congr 1
    refine List.map_congr_left fun k' mem => same k' ?_
    rintro rfl
    exact new (List.mem_eraseDups.mp mem)

/-- What comes first stands first. -/
theorem pairwise_idxOf_eraseDups (l : List κ) : l.eraseDups.Pairwise fun k k' => l.idxOf k < l.idxOf k' := by
  induction l using List.reverseRecOn with
  | nil => exact .nil
  | append_singleton l k ih =>
    have before : l.eraseDups.Pairwise fun k' k'' => (l ++ [k]).idxOf k' < (l ++ [k]).idxOf k'' := by
      refine ih.imp_of_mem fun mem mem' lt => ?_
      rwa [List.idxOf_append, List.idxOf_append, if_pos (List.mem_eraseDups.mp mem), if_pos (List.mem_eraseDups.mp mem')]
    rw [eraseDups_concat]
    split
    next => exact before
    next new =>
      refine List.pairwise_append.mpr ⟨before, List.pairwise_singleton _ _, fun k' mem k'' last => ?_⟩
      obtain rfl := List.mem_singleton.mp last
      have old := List.mem_eraseDups.mp mem
      rw [List.idxOf_append, List.idxOf_append, if_pos old, if_neg new]
      exact Nat.lt_add_left _ (List.idxOf_lt_length_of_mem old)

theorem nodup_of_pairwise_idxOf (ordered : keys.Pairwise fun k k' => order.idxOf k < order.idxOf k') : keys.Nodup := by
  refine List.Pairwise.imp (fun lt => ?_) ordered
  rintro rfl
  exact Nat.lt_irrefl _ lt

theorem eraseDups_map {f : κ → α} [DecidableEq α] (injective : Function.Injective f) (l : List κ) :
    (l.map f).eraseDups = l.eraseDups.map f := by
  induction l using List.reverseRecOn with
  | nil => rfl
  | append_singleton l k ih =>
    rw [List.map_append, List.map_singleton, eraseDups_concat, eraseDups_concat, ih]
    simp only [List.mem_map_of_injective injective]
    split <;> simp

theorem nodup_eraseDups (l : List κ) : l.eraseDups.Nodup := nodup_of_pairwise_idxOf (pairwise_idxOf_eraseDups l)

/-! ## Keys -/

theorem count_keys (key : α → κ) (items : List α) (k : κ) :
    (items.map key).count k = items.countP fun item => key item = k := by
  rw [List.count, List.countP_map]
  rfl

theorem idxOf_keys (key : α → κ) (items : List α) (k : κ) :
    (items.map key).idxOf k = items.findIdx fun item => key item = k := by
  rw [List.idxOf, List.findIdx_map]
  rfl

/-! ## Groups -/

/-- Groups of items by a key: they stand in the order in which their keys first come in a list, each holds the items of its
key in the order of the items, none is empty, and no item is left out. -/
structure Grouped (key : α → κ) (order : List κ) (items : List α) (groups : List (κ × List α)) : Prop where
  ordered : groups.Pairwise fun group other => order.idxOf group.1 < order.idxOf other.1
  own : ∀ group ∈ groups, group.2 = items.filter fun item => key item = group.1
  nonempty : ∀ group ∈ groups, group.2 ≠ []
  whole : (groups.flatMap Prod.snd).Perm items

/-- The groups under distinct keys that cover all items, put together. -/
theorem perm_flatMap_filter (distinct : keys.Nodup) (covers : ∀ item ∈ items, key item ∈ keys) :
    (keys.flatMap fun k => items.filter fun item => key item = k).Perm items := by
  induction keys generalizing items with
  | nil =>
    obtain rfl : items = [] := List.eq_nil_iff_forall_not_mem.mpr fun item mem => absurd (covers item mem) List.not_mem_nil
    exact .nil
  | cons k keys ih =>
    obtain ⟨new, distinct⟩ := List.nodup_cons.mp distinct
    -- the groups of the other keys are those of the items that do not have this one
    have others : (keys.flatMap fun k' => items.filter fun item => key item = k') =
        keys.flatMap fun k' => (items.filter fun item => !decide (key item = k)).filter fun item => key item = k' := by
      refine List.flatMap_congr fun k' mem => ?_
      have ne : k' ≠ k := fun eq => new (eq ▸ mem)
      rw [List.filter_filter]
      refine List.filter_congr fun item _ => ?_
      by_cases own : key item = k' <;> simp [own, ne]
    rw [List.flatMap_cons, others]
    refine ((ih distinct fun item mem => ?_).append_left _).trans (List.filter_append_perm _ items)
    obtain ⟨inside, other⟩ := List.mem_filter.mp mem
    rcases List.mem_cons.mp (covers item inside) with eq | later
    · simp [eq] at other
    · exact later

theorem sum_length_filter (distinct : keys.Nodup) (covers : ∀ item ∈ items, key item ∈ keys) :
    (keys.map fun k => (items.filter fun item => key item = k).length).sum = items.length := by
  rw [← (perm_flatMap_filter distinct covers).length_eq, List.length_flatMap]

/-- The groups under the keys that items have. -/
theorem grouped_of_keys (ordered : keys.Pairwise fun k k' => order.idxOf k < order.idxOf k')
    (mem_keys : ∀ k, k ∈ keys ↔ ∃ item ∈ items, key item = k) :
    Grouped key order items (keys.map fun k => (k, items.filter fun item => key item = k)) where
  ordered := List.pairwise_map.mpr ordered
  own group mem := by
    obtain ⟨k, -, rfl⟩ := List.mem_map.mp mem
    rfl
  nonempty group mem := by
    obtain ⟨k, inside, rfl⟩ := List.mem_map.mp mem
    obtain ⟨item, among, eq⟩ := (mem_keys k).mp inside
    exact List.ne_nil_of_mem (List.mem_filter.mpr ⟨among, decide_eq_true eq⟩)
  whole := by
    rw [List.flatMap_map]
    exact perm_flatMap_filter (nodup_of_pairwise_idxOf ordered) fun item mem => (mem_keys _).mpr ⟨item, mem, rfl⟩

/-- The groups under given keys, less those that are empty. -/
theorem grouped_filter (ordered : keys.Pairwise fun k k' => order.idxOf k < order.idxOf k')
    (covers : ∀ item ∈ items, key item ∈ keys) :
    Grouped key order items
      ((keys.map fun k => (k, items.filter fun item => key item = k)).filter fun group => !group.2.isEmpty) := by
  rw [List.filter_map]
  refine grouped_of_keys (ordered.filter _) fun k => ?_
  simp only [List.mem_filter, Function.comp_apply, Bool.not_eq_true', List.isEmpty_eq_false_iff, ne_eq,
    List.filter_eq_nil_iff, decide_eq_true_eq, not_forall, not_not]
  exact ⟨fun ⟨_, item, mem, eq⟩ => ⟨item, mem, eq⟩, fun ⟨item, mem, eq⟩ => ⟨eq ▸ covers item mem, item, mem, eq⟩⟩

/-! ## Tallies -/

/-- One item more. -/
theorem add_map_count (keys : List κ) (count : κ → Nat) (k : κ) :
    Tally.add (keys.map fun k' => (k', count k')) k =
      if k ∈ keys then keys.map fun k' => (k', if k' = k then count k' + 1 else count k')
      else keys.map (fun k' => (k', count k')) ++ [(k, 1)] := by
  have seen : ((keys.map fun k' => (k', count k')).any fun e => e.1 == k) = decide (k ∈ keys) := by
    rw [List.any_map, Bool.eq_iff_iff, List.any_eq_true, decide_eq_true_iff]
    simp
  rw [Tally.add, seen]
  by_cases old : k ∈ keys
  · rw [if_pos (decide_eq_true old), if_pos old, List.map_map]
    refine List.map_congr_left fun k' _ => ?_
    by_cases eq : k' = k <;> simp [eq]
  · rw [if_neg (by simpa using old), if_neg old]

/-- Every item with the number of times it occurs, in the order in which the items first come. -/
theorem tally_eq (items : List κ) : tally items = items.eraseDups.map fun k => (k, items.count k) := by
  induction items using List.reverseRecOn with
  | nil => rfl
  | append_singleton items k ih =>
    have more (k' : κ) : (items ++ [k]).count k' = if k' = k then items.count k' + 1 else items.count k' := by
      rw [List.count_append, List.count_singleton]
      by_cases eq : k' = k
      · simp [eq]
      · simp [eq, Ne.symm eq]
    have step : tally (items ++ [k]) = Tally.add (tally items) k := by rw [tally, tally, List.foldl_concat]
    have same (k' : κ) (ne : k' ≠ k) : (k', (items ++ [k]).count k') = (k', items.count k') := by rw [more, if_neg ne]
    rw [step, ih, add_map_count, map_eraseDups_concat items k same]
    simp only [List.mem_eraseDups]
    split
    next => simp only [more]
    next new => rw [more, if_pos rfl, List.count_eq_zero_of_not_mem new]

namespace Report

/-! ## Findings by grade -/

theorem sum_withSeverity (findings : List Finding) :
    (Severity.all.map fun s => (withSeverity findings s).length).sum = findings.length :=
  sum_length_filter (by decide) fun f _ => by cases f.severity <;> decide

theorem sum_withCertainty (findings : List Finding) :
    (Certainty.all.map fun c => (withCertainty findings c).length).sum = findings.length :=
  sum_length_filter (by decide) fun f _ => by cases f.certainty <;> decide

/-! ## Findings by file -/

/-- One finding more. -/
theorem add_map_group {files : List String} (distinct : files.Nodup) (group : String → List Finding) (f : Finding) :
    FileGroups.add (files.map fun file => (file, group file)) f =
      if f.file ∈ files then files.map fun file => (file, if f.file = file then group file ++ [f] else group file)
      else files.map (fun file => (file, group file)) ++ [(f.file, [f])] := by
  induction files with
  | nil => rfl
  | cons file files ih =>
    obtain ⟨new, distinct⟩ := List.nodup_cons.mp distinct
    rw [List.map_cons, FileGroups.add]
    by_cases same : file = f.file
    · have others : (files.map fun file' => (file', if f.file = file' then group file' ++ [f] else group file')) =
          files.map fun file' => (file', group file') := by
        refine List.map_congr_left fun file' mem => ?_
        have ne : f.file ≠ file' := fun eq => new (same.trans eq ▸ mem)
        rw [if_neg ne]
      rw [if_pos same, if_pos (by simp [same]), List.map_cons, others, if_pos same.symm]
    · rw [if_neg same, ih distinct, List.map_cons, if_neg (Ne.symm same)]
      by_cases old : f.file ∈ files
      · simp [old]
      · simp [old, Ne.symm same]

theorem byFile_eq (findings : List Finding) : byFile findings =
    (findings.map (·.file)).eraseDups.map fun file => (file, findings.filter fun f => f.file = file) := by
  induction findings using List.reverseRecOn with
  | nil => rfl
  | append_singleton findings f ih =>
    have more (file : String) : ((findings ++ [f]).filter fun f => f.file = file) =
        if f.file = file then (findings.filter fun f => f.file = file) ++ [f] else findings.filter fun f => f.file = file := by
      rw [List.filter_append]
      by_cases eq : f.file = file <;> simp [eq]
    have step : byFile (findings ++ [f]) = FileGroups.add (byFile findings) f := by rw [byFile, byFile, List.foldl_concat]
    have same (file : String) (ne : file ≠ f.file) : (file, (findings ++ [f]).filter fun f => f.file = file) =
        (file, findings.filter fun f => f.file = file) := by
      rw [more, if_neg (Ne.symm ne)]
    rw [step, ih, add_map_group (nodup_eraseDups _), List.map_append, List.map_singleton, map_eraseDups_concat _ _ same]
    simp only [List.mem_eraseDups]
    split
    next => simp only [more]
    next new =>
      have none : (findings.filter fun g => g.file = f.file) = [] :=
        List.filter_eq_nil_iff.mpr fun g mem eq => new (List.mem_map.mpr ⟨g, mem, of_decide_eq_true eq⟩)
      rw [more, if_pos rfl, none, List.nil_append]

/-- Files stand in the order of their first findings. -/
theorem grouped_byFile (findings : List Finding) :
    Grouped (·.file) (findings.map (·.file)) findings (byFile findings) := by
  rw [byFile_eq]
  exact grouped_of_keys (pairwise_idxOf_eraseDups _) fun file => by simp

end Report

end CodeHygiene
