import CodeHygiene.Repository.Walk
import Mathlib.Data.List.TakeWhile

/-!
Which files a walk lists, and which paths show a language.

A walk asks what stands behind the last dot of a name, as it is written; dots that begin a name do not count. The
language of a path is asked from what stands behind the last dot of its last component, in lower case; a
component that is nothing but a dot and an extension counts as one.

Proved:
(1) Both look at one and the same end of a name (`Language.isSourceName_iff`, `Language.isSome_ofPath?_iff`), and no
    directory above it matters (`Language.ofPath?_append`).
(2) A walk lists what a walk without a limit lists, up to the limit (`Walk.toList_visit`). Without a limit it lists
    every file it is to keep, at every level it enters (`Walk.mem_listing`), and nothing else
    (`Walk.exists_name_of_mem_listing`).
(3) No part of a path holds a slash (`Path.not_mem_partsOf`), and neither does a name in a tree that is put together
    from paths (`Entry.SlashFree.insert`, `Entry.SlashFree.makeDirectory`).
(4) So where no limit is reached what is listed shows a language, and a file whose extension is in lower case and has
    more than dots before it is listed exactly when it shows one (`listed_as_detected`). A name that is nothing but
    an extension shows a language and is not listed (`bare_extension_is_not_listed`).
-/

namespace CodeHygiene

/-! ## Names -/

namespace Language

variable {name stem tail : List Char}

theorem dotted_or_undotted (name : List Char) : '.' ∉ name ∨ ∃ stem tail, name = stem ++ '.' :: tail ∧ '.' ∉ tail := by
  by_cases dot : '.' ∈ name
  · obtain ⟨front, back, eq, last⟩ := List.eq_append_cons_of_mem (List.mem_reverse.mpr dot)
    refine .inr ⟨back.reverse, front.reverse, ?_, by simpa using last⟩
    rw [← List.reverse_reverse name, eq]
    simp
  · exact .inl dot

theorem takeWhile_append_stop {stop : Char} (front back : List Char) :
    (front ++ stop :: back).takeWhile (· ≠ stop) = front.takeWhile (· ≠ stop) := by
  induction front with
  | nil => simp
  | cons c front ih =>
    rw [List.cons_append, List.takeWhile_cons, List.takeWhile_cons, ih]

theorem takeWhile_of_not_mem {stop : Char} {chars : List Char} (free : stop ∉ chars) : chars.takeWhile (· ≠ stop) = chars :=
  List.takeWhile_eq_self_iff.mpr fun _ mem => decide_eq_true fun eq => free (eq ▸ mem)

/-- What stands behind the last dot, and before it. -/
theorem ends_of_dotted (stem : List Char) (last : '.' ∉ tail) :
    (stem ++ '.' :: tail).reverse.takeWhile (· ≠ '.') = tail.reverse ∧
      (stem ++ '.' :: tail).reverse.dropWhile (· ≠ '.') = '.' :: stem.reverse := by
  have free : '.' ∉ tail.reverse := by simpa using last
  have eq : (stem ++ '.' :: tail).reverse = tail.reverse ++ '.' :: stem.reverse := by simp
  rw [eq]
  refine ⟨(takeWhile_append_stop ..).trans (takeWhile_of_not_mem free), ?_⟩
  have passed : ∀ c ∈ tail.reverse, decide (c ≠ '.') = true := fun _ mem => decide_eq_true fun eq => free (eq ▸ mem)
  rw [List.dropWhile_append_of_pos passed]
  rfl

theorem ends_of_undotted (none : '.' ∉ name) : name.reverse.dropWhile (· ≠ '.') = [] :=
  List.dropWhile_eq_nil_iff.mpr fun _ mem => decide_eq_true fun eq => none (eq ▸ List.mem_reverse.mp mem)

theorem dotted_inj {stem' tail' : List Char} (last : '.' ∉ tail) (last' : '.' ∉ tail')
    (eq : stem ++ '.' :: tail = stem' ++ '.' :: tail') : stem = stem' ∧ tail = tail' := by
  obtain ⟨behind, before⟩ := ends_of_dotted stem last
  rw [eq, (ends_of_dotted stem' last').1] at behind
  rw [eq, (ends_of_dotted stem' last').2] at before
  exact ⟨(List.reverse_inj.mp (List.cons.inj before).2).symm, (List.reverse_inj.mp behind).symm⟩

theorem fileExtension_dotted (last : '.' ∉ tail) :
    fileExtension (stem ++ '.' :: tail) = if stem.all (· = '.') then [] else '.' :: tail := by
  simp only [fileExtension, ends_of_dotted _ last, List.drop_one, List.tail_cons, List.reverse_reverse, List.all_reverse]

theorem fileExtension_undotted (none : '.' ∉ name) : fileExtension name = [] := by
  simp only [fileExtension, ends_of_undotted none]
  rfl

theorem suffix_dotted (last : '.' ∉ tail) :
    suffix (stem ++ '.' :: tail) = if stem.isEmpty || tail.isEmpty then [] else '.' :: tail := by
  simp only [suffix, ends_of_dotted _ last, List.drop_one, List.tail_cons, List.reverse_reverse, List.isEmpty_reverse]

theorem suffix_undotted (none : '.' ∉ name) : suffix name = [] := by
  simp only [suffix, ends_of_undotted none]
  rfl

/-- A component that starts with its last dot is its own extension, another one ends in it. -/
theorem decisiveSuffix_dotted (last : '.' ∉ tail) (some : tail ≠ []) : decisiveSuffix (stem ++ '.' :: tail) = '.' :: tail := by
  rw [decisiveSuffix, suffix_dotted last]
  cases stem with
  | nil =>
    have one : ('.' :: tail).count '.' = 1 := by rw [List.count_cons_self, List.count_eq_zero.mpr last]
    simp [one]
  | cons c stem =>
    have more : c = '.' → (c :: stem ++ '.' :: tail).count '.' ≠ 1 := by
      rintro rfl
      simp [List.count_append]
    rw [if_neg, if_neg]
    · simp [some]
    · simpa using more

theorem decisiveSuffix_dot_last (stem : List Char) : decisiveSuffix (stem ++ ['.']) = [] ∨ decisiveSuffix (stem ++ ['.']) = ['.'] := by
  rw [decisiveSuffix, suffix_dotted List.not_mem_nil]
  cases stem with
  | nil => exact .inr rfl
  | cons c stem =>
    have more : c = '.' → (c :: stem ++ ['.']).count '.' ≠ 1 := by
      rintro rfl
      simp [List.count_append]
    rw [if_neg, if_pos (by simp)]
    · exact .inl rfl
    · simpa using more

theorem decisiveSuffix_undotted (none : '.' ∉ name) : decisiveSuffix name = [] := by
  simp [decisiveSuffix, List.count_eq_zero.mpr none, suffix_undotted none]

/-! ## Extensions -/

/-- Whether some language has an extension. -/
def Known (extension : List Char) : Prop := (ofExtension? (String.ofList extension)).isSome = true

theorem mem_extensions_of_known {extension : List Char} (known : Known extension) :
    ∃ l ∈ all, String.ofList extension ∈ extensions l := by
  obtain ⟨l, mem, has⟩ := List.find?_isSome.mp known
  exact ⟨l, mem, List.contains_iff_mem.mp has⟩

/-- Every extension is in lower case, and it is no path. -/
theorem extensions_plain : ∀ l ∈ all, ∀ extension ∈ extensions l,
    Text.lower extension.toList = extension.toList ∧ '/' ∉ extension.toList ∧ '\\' ∉ extension.toList ∧
      extension.toList ≠ [] ∧ extension.toList ≠ ['.'] := by
  decide

theorem Known.plain {extension : List Char} (known : Known extension) :
    Text.lower extension = extension ∧ '/' ∉ extension ∧ '\\' ∉ extension ∧ extension ≠ [] ∧ extension ≠ ['.'] := by
  obtain ⟨l, mem, has⟩ := mem_extensions_of_known known
  simpa only [String.toList_ofList] using extensions_plain l mem _ has

/-- A name with a known extension behind something other than dots. -/
theorem isSourceName_iff {name : String} : isSourceName name = true ↔
    ∃ stem tail, name.toList = stem ++ '.' :: tail ∧ '.' ∉ tail ∧ (∃ c ∈ stem, c ≠ '.') ∧ Known ('.' :: tail) := by
  rw [isSourceName]
  constructor
  · intro source
    rcases dotted_or_undotted name.toList with none | ⟨stem, tail, eq, last⟩
    · rw [fileExtension_undotted none] at source
      exact absurd rfl (Known.plain source).2.2.2.1
    · rw [eq, fileExtension_dotted last] at source
      split at source
      next => exact absurd rfl (Known.plain source).2.2.2.1
      next some => exact ⟨stem, tail, eq, last, by simpa using some, source⟩
  · rintro ⟨stem, tail, eq, last, some, known⟩
    rw [eq, fileExtension_dotted last, if_neg (by simpa using some)]
    exact known

/-! ## Paths -/

open Exclusion (slashed lastComponent)

/-- Above a name in a path there is nothing, or it ends in a slash. -/
def IsAbove (above : String) : Prop := above = "" ∨ ∃ front, above = front ++ "/"

theorem toList_lastComponent (path : String) :
    (lastComponent path).toList = (path.toList.reverse.takeWhile (· ≠ '/')).reverse := String.toList_ofList

/-- What stands above a name does not matter. -/
theorem lastComponent_slashed_append {above : String} (ended : IsAbove above) (name : String) :
    lastComponent (slashed (above ++ name)) = lastComponent (slashed name) := by
  rcases ended with rfl | ⟨front, rfl⟩
  · rw [String.empty_append]
  · rw [← String.toList_inj]
    simp only [toList_lastComponent, slashed, String.toList_map, String.toList_append, List.map_append, List.reverse_append]
    exact congrArg List.reverse (takeWhile_append_stop ..)

theorem ofPath?_append {above : String} (ended : IsAbove above) (name : String) :
    ofPath? (above ++ name) = ofPath? name := by
  simp only [ofPath?, lastComponent_slashed_append ended]

/-- A name without a slash is the last component of its path. -/
theorem lastComponent_append {above name : String} (ended : IsAbove above)
    (free : '/' ∉ name.toList) : lastComponent (above ++ name) = name := by
  have free : '/' ∉ name.toList.reverse := by simpa using free
  rw [← String.toList_inj, toList_lastComponent]
  rcases ended with rfl | ⟨front, rfl⟩
  · rw [String.empty_append, takeWhile_of_not_mem free, List.reverse_reverse]
  · simp only [String.toList_append, List.reverse_append]
    rw [show "/".toList.reverse ++ front.toList.reverse = '/' :: front.toList.reverse from rfl, takeWhile_append_stop,
      takeWhile_of_not_mem free, List.reverse_reverse]

/-- A name whose last dot stands behind every slash. -/
theorem lastComponent_slashed_dotted {name : String} (eq : name.toList = stem ++ '.' :: tail) (slash : '/' ∉ tail)
    (backslash : '\\' ∉ tail) : ∃ rest, (lastComponent (slashed name)).toList = rest ++ '.' :: tail := by
  have same : tail.map (fun c => if c = '\\' then '/' else c) = tail := by
    refine (List.map_congr_left fun c mem => if_neg ?_).trans (List.map_id' tail)
    exact fun eq => backslash (eq ▸ mem)
  have passed : ∀ c ∈ tail.reverse ++ ['.'], decide (c ≠ '/') = true := by
    intro c mem
    rcases List.mem_append.mp mem with mem | mem
    · exact decide_eq_true fun eq => slash (eq ▸ List.mem_reverse.mp mem)
    · rw [List.mem_singleton.mp mem]
      rfl
  rw [toList_lastComponent, slashed, String.toList_map, eq, List.map_append, List.map_cons, same, List.reverse_append,
    List.reverse_cons, if_neg (by decide), List.takeWhile_append_of_pos passed, List.reverse_append, List.reverse_append,
    List.reverse_reverse]
  exact ⟨_, rfl⟩

/-- Where the last component has a dot, its last one is the last of the name. -/
theorem dotted_of_dot_mem {name : String} (dot : '.' ∈ (lastComponent (slashed name)).toList) :
    ∃ stem tail, name.toList = stem ++ '.' :: tail ∧ '.' ∉ tail ∧ '/' ∉ tail ∧ '\\' ∉ tail := by
  rw [toList_lastComponent, slashed, String.toList_map, List.mem_reverse] at dot
  have unmade : ∀ {chars : List Char}, '.' ∉ chars → '.' ∉ chars.map fun c => if c = '\\' then '/' else c := by
    intro chars none mem
    obtain ⟨c, mem, made⟩ := List.mem_map.mp mem
    split at made
    next => exact absurd made (by decide)
    next => exact none (made ▸ mem)
  rcases dotted_or_undotted name.toList with none | ⟨stem, tail, eq, last⟩
  · exact absurd (List.mem_reverse.mp (List.takeWhile_subset _ dot)) (unmade none)
  · refine ⟨stem, tail, eq, last, ?_⟩
    by_contra held
    have slash : '/' ∈ tail.map fun c => if c = '\\' then '/' else c := by
      rw [not_and_or, not_not, not_not] at held
      rcases held with mem | mem
      · exact List.mem_map.mpr ⟨_, mem, by decide⟩
      · exact List.mem_map.mpr ⟨_, mem, by decide⟩
    obtain ⟨front, back, cut⟩ := List.append_of_mem slash
    rw [eq, List.map_append, List.map_cons, cut, if_neg (by decide)] at dot
    have stops : (stem.map (fun c => if c = '\\' then '/' else c) ++ '.' :: (front ++ '/' :: back)).reverse =
        back.reverse ++ '/' :: (stem.map (fun c => if c = '\\' then '/' else c) ++ '.' :: front).reverse := by simp
    rw [stops, takeWhile_append_stop] at dot
    refine unmade last ?_
    rw [cut]
    exact List.mem_append_right _ (List.mem_cons_of_mem _ (List.mem_reverse.mp (List.takeWhile_subset _ dot)))

/-- A known extension, in any case, behind the last dot. -/
theorem isSome_ofPath?_iff {name : String} : (ofPath? name).isSome = true ↔
    ∃ stem tail, name.toList = stem ++ '.' :: tail ∧ '.' ∉ tail ∧ '/' ∉ tail ∧ '\\' ∉ tail ∧ tail ≠ [] ∧
      Known (Text.lower ('.' :: tail)) := by
  show Known (Text.lower (decisiveSuffix (lastComponent (slashed name)).toList)) ↔ _
  constructor
  · intro known
    have dot : '.' ∈ (lastComponent (slashed name)).toList := by
      by_contra none
      rw [decisiveSuffix_undotted none] at known
      exact absurd rfl known.plain.2.2.2.1
    obtain ⟨stem, tail, eq, last, slash, backslash⟩ := dotted_of_dot_mem dot
    obtain ⟨rest, ending⟩ := lastComponent_slashed_dotted eq slash backslash
    rw [ending] at known
    have some : tail ≠ [] := by
      rintro rfl
      rcases decisiveSuffix_dot_last rest with none | one
      · rw [none] at known
        exact absurd rfl known.plain.2.2.2.1
      · rw [one] at known
        exact absurd (by rfl) known.plain.2.2.2.2
    rw [decisiveSuffix_dotted last some] at known
    exact ⟨stem, tail, eq, last, slash, backslash, some, known⟩
  · rintro ⟨stem, tail, eq, last, slash, backslash, some, known⟩
    obtain ⟨rest, ending⟩ := lastComponent_slashed_dotted eq slash backslash
    rwa [ending, decisiveSuffix_dotted last some]

/-- A name that ends in a known extension shows a language. -/
theorem isSome_ofPath?_of_isSourceName {name : String} (source : isSourceName name = true) : (ofPath? name).isSome = true := by
  obtain ⟨stem, tail, eq, last, -, known⟩ := isSourceName_iff.mp source
  obtain ⟨low, slash, backslash, -, more⟩ := known.plain
  refine isSome_ofPath?_iff.mpr ⟨stem, tail, eq, last, ?_, ?_, ?_, by rwa [low]⟩
  · exact fun mem => slash (List.mem_cons_of_mem _ mem)
  · exact fun mem => backslash (List.mem_cons_of_mem _ mem)
  · exact fun none => more (none ▸ rfl)

/-- Something other than dots stands before the last dot. -/
def HasStem (name : List Char) : Prop := ∃ stem tail, name = stem ++ '.' :: tail ∧ '.' ∉ tail ∧ ∃ c ∈ stem, c ≠ '.'

/-- What stands behind the last dot is in lower case. -/
def IsLow (name : List Char) : Prop := ∀ stem tail, name = stem ++ '.' :: tail → '.' ∉ tail → Text.lower ('.' :: tail) = '.' :: tail

theorem isSourceName_iff_isSome_ofPath? {name : String} (low : IsLow name.toList) :
    isSourceName name = true ↔ (ofPath? name).isSome = true ∧ HasStem name.toList := by
  constructor
  · intro source
    obtain ⟨stem, tail, eq, last, some, -⟩ := isSourceName_iff.mp source
    exact ⟨isSome_ofPath?_of_isSourceName source, stem, tail, eq, last, some⟩
  · rintro ⟨shown, stem, tail, eq, last, some⟩
    obtain ⟨stem', tail', eq', last', -, -, -, known⟩ := isSome_ofPath?_iff.mp shown
    obtain ⟨rfl, rfl⟩ := dotted_inj last last' (eq.symm.trans eq')
    rw [low stem tail eq last] at known
    exact isSourceName_iff.mpr ⟨stem, tail, eq, last, some, known⟩

end Language

/-! ## Trees -/

namespace Repository

/-- No name below an entry holds a slash. -/
inductive Entry.SlashFree : Entry → Prop
  | file (bytes : List UInt8) : SlashFree (.file bytes)
  | link (target : String) : SlashFree (.link target)
  | directory {entries : Tree} : (∀ x ∈ entries, '/' ∉ x.1.toList) → (∀ x ∈ entries, x.2.SlashFree) → SlashFree (.directory entries)

theorem Tree.mem_setEntry {t : Tree} {name : String} {e : Entry} {x : String × Entry} (mem : x ∈ t.setEntry name e) :
    x ∈ t ∨ x = (name, e) := by
  induction t with
  | nil => exact .inr (List.mem_singleton.mp mem)
  | cons first rest ih =>
    rw [setEntry] at mem
    split at mem
    · exact (List.mem_cons.mp mem).symm.imp_left (List.mem_cons_of_mem _)
    · split at mem
      · exact (List.mem_cons.mp mem).symm
      · rcases List.mem_cons.mp mem with same | later
        · exact .inl (same ▸ List.mem_cons_self)
        · exact (ih later).imp_left (List.mem_cons_of_mem _)

namespace Entry.SlashFree

variable {t entries : Tree} {e : Entry} {name : String} {parts : List String}

theorem directory_iff : (Entry.directory t).SlashFree ↔ ∀ x ∈ t, '/' ∉ x.1.toList ∧ x.2.SlashFree := by
  constructor
  · intro h
    cases h with
    | directory names entries => exact fun x mem => ⟨names x mem, entries x mem⟩
  · exact fun all => .directory (fun x mem => (all x mem).1) fun x mem => (all x mem).2

theorem of_lookup (h : (Entry.directory t).SlashFree) (found : t.lookup name = some e) : e.SlashFree := by
  obtain ⟨before, after, rfl, -⟩ := List.lookup_eq_some_iff.mp found
  exact (directory_iff.mp h (name, e) (by simp)).2

theorem of_entriesAt? (h : (Entry.directory t).SlashFree) (found : t.entriesAt? parts = some entries) :
    (Entry.directory entries).SlashFree := by
  induction parts generalizing t with
  | nil => exact Option.some.inj found ▸ h
  | cons name rest ih =>
    rw [Tree.entriesAt?] at found
    split at found
    next inner looked => exact ih (h.of_lookup looked) found
    next => cases found

theorem setEntry (h : (Entry.directory t).SlashFree) (free : '/' ∉ name.toList) (new : e.SlashFree) :
    (Entry.directory (t.setEntry name e)).SlashFree := by
  refine directory_iff.mpr fun x mem => ?_
  rcases Tree.mem_setEntry mem with old | rfl
  · exact directory_iff.mp h x old
  · exact ⟨free, new⟩

theorem insert (h : (Entry.directory t).SlashFree) (new : e.SlashFree) (free : ∀ part ∈ parts, '/' ∉ part.toList) :
    (Entry.directory (t.insert e parts)).SlashFree := by
  induction parts generalizing t with
  | nil => exact h
  | cons name rest ih =>
    obtain ⟨own, others⟩ := List.forall_mem_cons.mp free
    cases rest with
    | nil => exact h.setEntry own new
    | cons second rest =>
      rw [Tree.insert]
      · split
        next inner looked => exact h.setEntry own (ih (h.of_lookup looked) others)
        next => exact h.setEntry own (ih (directory_iff.mpr nofun) others)
      · simp

theorem makeDirectory (h : (Entry.directory t).SlashFree) (free : ∀ part ∈ parts, '/' ∉ part.toList) :
    (Entry.directory (t.makeDirectory parts)).SlashFree := by
  induction parts generalizing t with
  | nil => exact h
  | cons name rest ih =>
    obtain ⟨own, others⟩ := List.forall_mem_cons.mp free
    rw [Tree.makeDirectory]
    split
    next inner looked => exact h.setEntry own (ih (h.of_lookup looked) others)
    next => exact h
    next => exact h.setEntry own (ih (directory_iff.mpr nofun) others)

end Entry.SlashFree

theorem Path.not_mem_split (text : List Char) : ∀ part ∈ Path.split text, '/' ∉ part := by
  induction text with
  | nil => simp [Path.split]
  | cons c rest ih =>
    rw [Path.split]
    split
    next => simpa using ih
    next ne =>
      split
      next => simpa using Ne.symm ne
      next part more eq =>
        rw [eq, List.forall_mem_cons] at ih
        simpa using ⟨⟨Ne.symm ne, ih.1⟩, ih.2⟩

theorem Path.not_mem_partsOf (text : String) : ∀ part ∈ Path.partsOf text, '/' ∉ part.toList := by
  intro part mem
  obtain ⟨chars, inside, rfl⟩ := List.mem_map.mp (List.mem_filter.mp mem).1
  rw [String.toList_ofList]
  exact Path.not_mem_split _ chars inside

/-! ## Walks -/

open CodeHygiene.Language (HasStem IsLow IsAbove ofPath? isSourceName)

namespace Walk

variable {w : Walk} {t entries : Tree} {here : List String} {above path : String} {levels : Nat}

/-- What is listed below a directory where nothing is limited. -/
def listing (w : Walk) (t : Tree) : Nat → List String → String → Tree → List String
  | 0, _, _, _ => []
  | levels + 1, here, above, entries =>
    entries.flatMap fun (name, e) =>
      if Language.skippedNames.contains name then []
      else match e with
        | .directory inner => listing w t levels (here ++ [name]) (above ++ name ++ "/") inner
        | _ => if t.isFileEntry here name e && w.keep (above ++ name) name then [above ++ name] else []

/-- Steps that each add what fits of a piece add what fits of all pieces. -/
theorem toList_foldl_take {α : Type} {limit : Nat} {step : Array String → α → Array String} {piece : α → List String}
    (items : List α) (each : ∀ x ∈ items, ∀ found, (step found x).toList = found.toList ++ (piece x).take (limit - found.size))
    (found : Array String) :
    (items.foldl step found).toList = found.toList ++ (items.flatMap piece).take (limit - found.size) := by
  induction items generalizing found with
  | nil => simp
  | cons x rest ih =>
    obtain ⟨first, others⟩ := List.forall_mem_cons.mp each
    have size : (step found x).size = found.size + (min (limit - found.size) (piece x).length) := by
      rw [← Array.length_toList, first, List.length_append, List.length_take, Array.length_toList]
    rw [List.foldl_cons, ih others, first, size, List.flatMap_cons, List.take_append, List.append_assoc]
    congr 3
    omega

theorem toList_visit (levels : Nat) (here : List String) (above : String) (entries : Tree) (found : Array String) :
    (w.visit t levels here above entries found).toList =
      found.toList ++ (w.listing t levels here above entries).take (w.limit.toNat - found.size) := by
  induction levels generalizing here above entries found with
  | zero => simp [visit, listing]
  | succ levels ih =>
    rw [visit, listing]
    refine toList_foldl_take entries (fun x _ found => ?_) found
    obtain ⟨name, e⟩ := x
    by_cases full : w.limit ≤ found.size
    · have none : w.limit.toNat - found.size = 0 := by omega
      rw [none]
      simp [full]
    · simp only [full, if_false]
      cases skipped : Language.skippedNames.contains name with
      | true => simp
      | false =>
        simp only [Bool.false_eq_true, if_false]
        cases e with
        | directory inner => exact ih ..
        | file | link =>
          obtain ⟨room, eq⟩ : ∃ n, w.limit.toNat - found.size = n + 1 := ⟨w.limit.toNat - found.size - 1, by omega⟩
          rw [eq]
          dsimp only
          split <;> simp

/-- What a walk lists is the beginning of what it would list without a limit. -/
theorem run_eq_take {root : Path} (start : t.directory? root = some here) (opened : t.entriesAt? here = some entries) :
    w.run t root = (w.listing t w.levels here "" entries).take w.limit.toNat := by
  simp only [Walk.run, start, opened, toList_visit]
  simp

/-- The limit is the only thing that keeps a file from being listed. -/
theorem run_eq_listing {root : Path} (start : t.directory? root = some here) (opened : t.entriesAt? here = some entries)
    (unreached : (w.run t root).length < w.limit) : w.run t root = w.listing t w.levels here "" entries := by
  rw [run_eq_take start opened, List.length_take] at unreached
  rw [run_eq_take start opened]
  exact List.take_of_length_le (by omega)

theorem mem_listing_iff : path ∈ w.listing t (levels + 1) here above entries ↔
    ∃ name e, (name, e) ∈ entries ∧ name ∉ Language.skippedNames ∧
      ((∃ inner, e = .directory inner ∧ path ∈ w.listing t levels (here ++ [name]) (above ++ name ++ "/") inner) ∨
        (t.isFileEntry here name e = true ∧ w.keep (above ++ name) name = true ∧ path = above ++ name)) := by
  rw [listing, List.mem_flatMap, Prod.exists]
  refine exists₂_congr fun name e => and_congr_right fun _ => ?_
  by_cases skipped : name ∈ Language.skippedNames
  · simp [skipped]
  · cases e <;> simp [skipped, Tree.isFileEntry, and_assoc]

/-- Every file that is to be kept is listed, down to the deepest level that is entered. -/
theorem mem_listing {dirs : List String} {inner : Tree} {name : String} {e : Entry}
    (inside : entries.entriesAt? dirs = some inner) (found : inner.lookup name = some e)
    (file : t.isFileEntry (here ++ dirs) name e = true) (deep : dirs.length < levels)
    (unskipped : ∀ part ∈ dirs ++ [name], part ∉ Language.skippedNames)
    (kept : w.keep (above ++ "/".intercalate (dirs ++ [name])) name = true) :
    above ++ "/".intercalate (dirs ++ [name]) ∈ w.listing t levels here above entries := by
  induction dirs generalizing entries levels here above with
  | nil =>
    obtain rfl := Option.some.inj inside
    obtain ⟨levels, rfl⟩ : ∃ n, levels = n + 1 := ⟨levels - 1, by simp at deep; omega⟩
    obtain ⟨before, after, eq, -⟩ := List.lookup_eq_some_iff.mp found
    rw [List.append_nil] at file
    exact mem_listing_iff.mpr ⟨name, e, by simp [eq], unskipped name (by simp), .inr ⟨file, kept, rfl⟩⟩
  | cons dir dirs ih =>
    obtain ⟨levels, rfl⟩ : ∃ n, levels = n + 1 := ⟨levels - 1, by simp at deep; omega⟩
    rw [Tree.entriesAt?] at inside
    split at inside
    next sub looked =>
      obtain ⟨before, after, eq, -⟩ := List.lookup_eq_some_iff.mp looked
      have path : above ++ "/".intercalate (dir :: dirs ++ [name]) =
          above ++ dir ++ "/" ++ "/".intercalate (dirs ++ [name]) := by
        rw [List.cons_append, String.intercalate_cons_of_ne_nil (by simp)]
        simp only [String.append_assoc]
      rw [path] at kept ⊢
      have file' : t.isFileEntry (here ++ [dir] ++ dirs) name e = true := by simpa using file
      have below := ih inside file' (by simpa using deep) (fun part mem => unskipped part (List.mem_cons_of_mem _ mem)) kept
      exact mem_listing_iff.mpr ⟨dir, _, by simp [eq], unskipped dir List.mem_cons_self, .inl ⟨sub, rfl, below⟩⟩
    next => cases inside

/-- What is listed is a path that ends in a name that is to be kept. -/
theorem exists_name_of_mem_listing (free : (Entry.directory entries).SlashFree) (ended : IsAbove above)
    (mem : path ∈ w.listing t levels here above entries) :
    ∃ front name, path = front ++ name ∧ IsAbove front ∧ '/' ∉ name.toList ∧ w.keep path name = true := by
  induction levels generalizing entries here above with
  | zero => cases mem
  | succ levels ih =>
    obtain ⟨name, e, among, -, inside⟩ := mem_listing_iff.mp mem
    obtain ⟨plain, below⟩ := Entry.SlashFree.directory_iff.mp free _ among
    rcases inside with ⟨inner, rfl, deeper⟩ | ⟨-, kept, rfl⟩
    · exact ih below (.inr ⟨_, rfl⟩) deeper
    · exact ⟨above, name, rfl, ended, plain, kept⟩

theorem exists_above (dirs : List String) (name : String) :
    ∃ above, "/".intercalate (dirs ++ [name]) = above ++ name ∧ IsAbove above := by
  induction dirs with
  | nil => exact ⟨"", by simp, .inl rfl⟩
  | cons dir dirs ih =>
    obtain ⟨above, eq, ended⟩ := ih
    refine ⟨dir ++ "/" ++ above, ?_, .inr ?_⟩
    · rw [List.cons_append, String.intercalate_cons_of_ne_nil (by simp), eq, ← String.append_assoc]
    · rcases ended with rfl | ⟨front, rfl⟩
      · exact ⟨dir, String.append_empty⟩
      · exact ⟨dir ++ "/" ++ front, (String.append_assoc ..).symm⟩

end Walk

theorem Tree.entriesAt?_append (t : Tree) (front back : List String) :
    t.entriesAt? (front ++ back) = (t.entriesAt? front).bind fun entries => Tree.entriesAt? entries back := by
  induction front generalizing t with
  | nil => rfl
  | cons name front ih =>
    rw [List.cons_append, entriesAt?, entriesAt?]
    split
    · exact ih _
    · rfl

/-! ## What is listed shows a language -/

/-- A file of a tree, at a level that is entered, below no directory that is skipped, in a walk that reaches no limit:
if it is listed it shows a language, and more than dots stand before its extension. If its extension is in lower
case the converse holds. -/
theorem listed_as_detected {t inner : Tree} {root : Path} {here dirs : List String} {name : String} {e : Entry}
    {maxFiles maxDepth : Int} (free : (Entry.directory t).SlashFree) (start : t.directory? root = some here)
    (inside : t.entriesAt? (here ++ dirs) = some inner) (found : inner.lookup name = some e)
    (file : t.isFileEntry (here ++ dirs) name e = true) (deep : dirs.length ≤ maxDepth)
    (unskipped : ∀ part ∈ dirs ++ [name], part ∉ Language.skippedNames)
    (unreached : (sourceFiles t root true maxFiles maxDepth).length < maxFiles) :
    let path := "/".intercalate (dirs ++ [name])
    (path ∈ sourceFiles t root true maxFiles maxDepth → (ofPath? path).isSome = true ∧ HasStem name.toList) ∧
    (IsLow name.toList →
      (path ∈ sourceFiles t root true maxFiles maxDepth ↔ (ofPath? path).isSome = true ∧ HasStem name.toList)) := by
  intro path
  obtain ⟨entries, opened, below⟩ := Option.bind_eq_some_iff.mp (Tree.entriesAt?_append t here dirs ▸ inside)
  obtain ⟨above, eq, ended⟩ := Walk.exists_above dirs name
  have detected : ofPath? path = ofPath? name := (congrArg ofPath? eq).trans (Language.ofPath?_append ended name)
  have plain : '/' ∉ name.toList := by
    obtain ⟨before, after, split, -⟩ := List.lookup_eq_some_iff.mp found
    exact (Entry.SlashFree.directory_iff.mp (free.of_entriesAt? inside) (name, e) (by simp [split])).1
  have listed : path ∈ sourceFiles t root true maxFiles maxDepth ↔ isSourceName name = true := by
    let w : Walk := ⟨isSource true, (maxDepth + 1).toNat, maxFiles⟩
    show path ∈ w.run t root ↔ _
    rw [Walk.run_eq_listing start opened unreached]
    constructor
    · intro mem
      obtain ⟨front, last, cut, ended', plain', kept⟩ := Walk.exists_name_of_mem_listing (free.of_entriesAt? opened) (.inl rfl) mem
      obtain rfl : last = name := by
        rw [← Language.lastComponent_append ended' plain', ← cut, ← Language.lastComponent_append ended plain, ← eq]
      simpa [isSource] using kept
    · intro source
      have kept : w.keep ("" ++ path) name = true := by simpa [w, isSource] using source
      have level : dirs.length < (maxDepth + 1).toNat := by omega
      have mem : "" ++ path ∈ w.listing t w.levels here "" entries :=
        Walk.mem_listing below found file level unskipped kept
      rwa [String.empty_append] at mem
  rw [listed, detected]
  refine ⟨fun source => ⟨Language.isSome_ofPath?_of_isSourceName source, ?_⟩, Language.isSourceName_iff_isSome_ofPath?⟩
  obtain ⟨stem, tail, cut, last, some, -⟩ := Language.isSourceName_iff.mp source
  exact ⟨stem, tail, cut, last, some⟩

/-- One source file below a directory. -/
def nestedTree : Tree := [("a", .directory [("b.py", .file [])])]

theorem nestedTree_slashFree : (Entry.directory nestedTree).SlashFree := by
  refine .directory (by decide) (List.forall_mem_singleton.mpr ?_)
  exact .directory (by decide) (List.forall_mem_singleton.mpr (.file []))

theorem directory?_here (t : Tree) : t.directory? {} = some [] := by
  simp [Tree.directory?, Tree.resolve?, Path.isAbsolute, Tree.resolveFrom]

theorem sourceFiles_here (t : Tree) (includeTests : Bool) (maxFiles maxDepth : Int) :
    sourceFiles t {} includeTests maxFiles maxDepth =
      (Walk.visit ⟨isSource includeTests, (maxDepth + 1).toNat, maxFiles⟩ t (maxDepth + 1).toNat [] "" t #[]).toList := by
  simp [sourceFiles, Walk.run, directory?_here, Tree.entriesAt?]

theorem sourceFiles_nestedTree : sourceFiles nestedTree {} true 10 1 = ["a/b.py"] := by
  rw [sourceFiles_here]
  rfl

theorem isLow_of_dotted (stem : List Char) {tail : List Char} (last : '.' ∉ tail) (low : Text.lower ('.' :: tail) = '.' :: tail) :
    IsLow (stem ++ '.' :: tail) := by
  intro stem' tail' eq last'
  obtain ⟨-, rfl⟩ := Language.dotted_inj last last' eq
  exact low

theorem listed_as_detected_nestedTree :
    nestedTree.directory? {} = some [] ∧ (Entry.directory nestedTree).SlashFree ∧
    (sourceFiles nestedTree {} true 10 1).length < (10 : Int) ∧ IsLow "b.py".toList ∧
    ("a/b.py" ∈ sourceFiles nestedTree {} true 10 1 ↔ (ofPath? "a/b.py").isSome = true ∧ HasStem "b.py".toList) := by
  have start := directory?_here nestedTree
  have inside : nestedTree.entriesAt? ([] ++ ["a"]) = some [("b.py", .file [])] := rfl
  have unreached : (sourceFiles nestedTree {} true 10 1).length < (10 : Int) := by
    rw [sourceFiles_nestedTree]
    decide
  have low : IsLow "b.py".toList := isLow_of_dotted ['b'] (show '.' ∉ ['p', 'y'] by decide) (by rfl)
  exact ⟨start, nestedTree_slashFree, unreached, low, (listed_as_detected nestedTree_slashFree start inside rfl rfl
    (by decide) (by decide) unreached).2 low⟩

/-- A file whose name is nothing but an extension shows a language, but a walk does not list it. -/
theorem bare_extension_is_not_listed :
    let t : Tree := [(".py", .file [])]
    t.directory? {} = some [] ∧ t.entriesAt? [] = some t ∧ t.lookup ".py" = some (.file []) ∧
    ".py" ∉ Language.skippedNames ∧ (sourceFiles t {} true 10 1).length < (10 : Int) ∧
    (ofPath? ".py").isSome = true ∧ ".py" ∉ sourceFiles t {} true 10 1 := by
  intro t
  have none : sourceFiles t {} true 10 1 = [] := by
    rw [sourceFiles_here]
    rfl
  have shown : (ofPath? ".py").isSome = true := Language.isSome_ofPath?_iff.mpr
    ⟨[], ['p', 'y'], rfl, by decide, by decide, by decide, by decide, by rfl⟩
  rw [none]
  exact ⟨directory?_here t, rfl, rfl, by decide, by decide, shown, List.not_mem_nil⟩

end Repository

end CodeHygiene
