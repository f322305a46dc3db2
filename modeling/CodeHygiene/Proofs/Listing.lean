import CodeHygiene.Claim.Evidence
import CodeHygiene.Proofs.Discovery
import Mathlib.Data.List.Sort

/-!
The order of a walk.

A path stands before another when its first name that differs does, in the order of code points; where the text of
a path would have a slash compared with a letter, its names are compared. Below a directory there is one listing of
the files that are to be listed: each of them once, in this order.

Proved:
(1) The names of every directory stand in their order in a tree that is put together from paths (`Entry.Ordered.insert`,
    `Entry.Ordered.makeDirectory`).
(2) A path is its names (`Path.names_intercalate`), and a walk without a limit goes in their order (`Walk.pairwise_listing`).
(3) There is only one listing (`IsListing.unique`), and what a walk with a limit lists is its beginning
    (`Walk.run_eq_take`).
(4) So every walk for source files or for claims lists the beginning of a listing that does not depend on its limit, and
    tests are left out of it one by one (`walks_are_prefixes`).
-/

namespace CodeHygiene.Repository

/-! ## Trees in order -/

/-- The names in every directory stand in their order, none twice. -/
inductive Entry.Ordered : Entry → Prop
  | file (bytes : List UInt8) : Ordered (.file bytes)
  | link (target : String) : Ordered (.link target)
  | directory {entries : Tree} : entries.Pairwise (fun x y => x.1 < y.1) → (∀ x ∈ entries, x.2.Ordered) →
      Ordered (.directory entries)

theorem Tree.pairwise_setEntry {t : Tree} (sorted : t.Pairwise fun x y => x.1 < y.1) (name : String) (e : Entry) :
    (t.setEntry name e).Pairwise fun x y => x.1 < y.1 := by
  induction t with
  | nil => exact List.pairwise_singleton _ _
  | cons first rest ih =>
    obtain ⟨below, others⟩ := List.pairwise_cons.mp sorted
    rw [setEntry]
    split
    next same =>
      refine List.pairwise_cons.mpr ⟨fun x mem => ?_, others⟩
      exact same ▸ below x mem
    next other =>
      split
      next before =>
        refine List.pairwise_cons.mpr ⟨fun x mem => ?_, sorted⟩
        rcases List.mem_cons.mp mem with rfl | later
        · exact before
        · exact String.lt_trans before (below x later)
      next behind =>
        refine List.pairwise_cons.mpr ⟨fun x mem => ?_, ih others⟩
        rcases Tree.mem_setEntry mem with old | rfl
        · exact below x old
        · exact Std.lt_of_le_of_ne (String.not_lt.mp behind) other

namespace Entry.Ordered

variable {t entries : Tree} {e : Entry} {name : String} {parts : List String}

theorem directory_iff : (Entry.directory t).Ordered ↔ t.Pairwise (fun x y => x.1 < y.1) ∧ ∀ x ∈ t, x.2.Ordered := by
  constructor
  · intro h
    cases h with
    | directory sorted entries => exact ⟨sorted, entries⟩
  · exact fun h => .directory h.1 h.2

theorem of_lookup (h : (Entry.directory t).Ordered) (found : t.lookup name = some e) : e.Ordered := by
  obtain ⟨before, after, rfl, -⟩ := List.lookup_eq_some_iff.mp found
  exact (directory_iff.mp h).2 (name, e) (by simp)

theorem of_entriesAt? (h : (Entry.directory t).Ordered) (found : t.entriesAt? parts = some entries) :
    (Entry.directory entries).Ordered := by
  induction parts generalizing t with
  | nil => exact Option.some.inj found ▸ h
  | cons name rest ih =>
    rw [Tree.entriesAt?] at found
    split at found
    next inner looked => exact ih (h.of_lookup looked) found
    next => cases found

theorem setEntry (h : (Entry.directory t).Ordered) (new : e.Ordered) : (Entry.directory (t.setEntry name e)).Ordered := by
  obtain ⟨sorted, entries⟩ := directory_iff.mp h
  refine .directory (Tree.pairwise_setEntry sorted name e) fun x mem => ?_
  rcases Tree.mem_setEntry mem with old | rfl
  · exact entries x old
  · exact new

theorem empty : (Entry.directory []).Ordered := .directory .nil nofun

theorem insert (h : (Entry.directory t).Ordered) (new : e.Ordered) (parts : List String) :
    (Entry.directory (t.insert e parts)).Ordered := by
  induction parts generalizing t with
  | nil => exact h
  | cons name rest ih =>
    cases rest with
    | nil => exact h.setEntry new
    | cons second rest =>
      rw [Tree.insert]
      · split
        next inner looked => exact h.setEntry (ih (h.of_lookup looked))
        next => exact h.setEntry (ih empty)
      · simp

theorem makeDirectory (h : (Entry.directory t).Ordered) (parts : List String) :
    (Entry.directory (t.makeDirectory parts)).Ordered := by
  induction parts generalizing t with
  | nil => exact h
  | cons name rest ih =>
    rw [Tree.makeDirectory]
    split
    next inner looked => exact h.setEntry (ih (h.of_lookup looked))
    next => exact h
    next => exact h.setEntry (ih empty)

/-- A name that stands in a directory is found there. -/
theorem lookup_of_mem (h : (Entry.directory t).Ordered) (mem : (name, e) ∈ t) : t.lookup name = some e := by
  obtain ⟨before, after, rfl⟩ := List.append_of_mem mem
  refine List.lookup_eq_some_iff.mpr ⟨before, after, rfl, fun x early => bne_iff_ne.mpr fun same => ?_⟩
  have less : x.1 < name := (List.pairwise_append.mp (directory_iff.mp h).1).2.2 x early (name, e) List.mem_cons_self
  exact absurd (same ▸ less) (String.lt_irrefl _)

end Entry.Ordered

/-! ## Paths in order -/

namespace Path

/-- The names on a path, from the top down. -/
def names (path : String) : List String := (split path.toList).map String.ofList

theorem split_of_free {chars : List Char} (free : '/' ∉ chars) : split chars = [chars] := by
  induction chars with
  | nil => rfl
  | cons c rest ih =>
    obtain ⟨ne, others⟩ : '/' ≠ c ∧ '/' ∉ rest := by simpa using free
    rw [split, if_neg (Ne.symm ne), ih others]

theorem split_ne_nil (text : List Char) : split text ≠ [] := by
  cases text with
  | nil => simp [split]
  | cons c rest =>
    rw [split]
    split
    · simp
    · split <;> simp

theorem split_append_slash (front back : List Char) : split (front ++ '/' :: back) = split front ++ split back := by
  induction front with
  | nil => simp [split]
  | cons c front ih =>
    rw [List.cons_append, split, split, ih]
    split
    · rfl
    · obtain ⟨part, more, eq⟩ := List.exists_cons_of_ne_nil (split_ne_nil front)
      rw [eq]
      rfl

theorem names_of_free {name : String} (free : '/' ∉ name.toList) : names name = [name] := by
  rw [names, split_of_free free, List.map_singleton, String.ofList_toList]

theorem names_append_slash (front back : String) : names (front ++ "/" ++ back) = names front ++ names back := by
  have slash : (front ++ "/" ++ back).toList = front.toList ++ '/' :: back.toList := by simp
  rw [names, slash, split_append_slash, List.map_append, names, names]

/-- A path is its names. -/
theorem names_intercalate {dirs : List String} {name : String} (free : ∀ part ∈ dirs ++ [name], '/' ∉ part.toList) :
    names ("/".intercalate (dirs ++ [name])) = dirs ++ [name] := by
  induction dirs with
  | nil => simpa using names_of_free (free name (by simp))
  | cons dir dirs ih =>
    obtain ⟨own, others⟩ := List.forall_mem_cons.mp free
    rw [List.cons_append, String.intercalate_cons_of_ne_nil (by simp), names_append_slash, names_of_free own, ih others]
    rfl

/-- A path stands before another when the first of its names that differs does. -/
def Precedes (path other : String) : Prop := names path < names other

instance : Std.Irrefl Precedes := ⟨fun path => List.lt_irrefl (names path)⟩

instance : Std.Antisymm Precedes := ⟨fun _ _ before behind => absurd behind (List.lt_asymm before)⟩

end Path

/-! ## Walks -/

/-- A directory, by its real path, has a file of a name: a regular file or a link to one. -/
def Tree.HasFile (t : Tree) (here : List String) (name : String) : Prop :=
  ∃ entries e, t.entriesAt? here = some entries ∧ entries.lookup name = some e ∧ t.isFileEntry here name e = true

/-- A path below a root is to be listed: it names a file that real directories lead to, at a depth of at most
`maxDepth`; no name on the way is skipped, and the path and its last name are admitted. -/
def IsListed (t : Tree) (root : Path) (admits : String → String → Bool) (maxDepth : Int) (path : String) : Prop :=
  ∃ here dirs name, t.directory? root = some here ∧ t.HasFile (here ++ dirs) name ∧ (dirs.length : Int) ≤ maxDepth ∧
    (∀ part ∈ dirs ++ [name], part ∉ Language.skippedNames) ∧ path = "/".intercalate (dirs ++ [name]) ∧
    admits path name = true

/-- The paths that are to be listed, each of them once, in their order. -/
structure IsListing (t : Tree) (root : Path) (admits : String → String → Bool) (maxDepth : Int) (l : List String) :
    Prop where
  mem_iff : ∀ path, path ∈ l ↔ IsListed t root admits maxDepth path
  sorted : l.Pairwise Path.Precedes

namespace IsListing

variable {t : Tree} {root : Path} {admits : String → String → Bool} {maxDepth : Int} {l l' : List String}

theorem nodup (h : IsListing t root admits maxDepth l) : l.Nodup := h.sorted.nodup

/-- There is only one. -/
theorem unique (h : IsListing t root admits maxDepth l) (h' : IsListing t root admits maxDepth l') : l = l' :=
  h.sorted.eq_of_mem_iff h'.sorted fun path => (h.mem_iff path).trans (h'.mem_iff path).symm

/-- Where less is admitted, the others are left out. -/
theorem filter (h : IsListing t root admits maxDepth l) {admits' : String → String → Bool} {p : String → Bool}
    (fewer : ∀ path name, admits' path name = (admits path name && p path)) :
    IsListing t root admits' maxDepth (l.filter p) where
  mem_iff path := by
    rw [List.mem_filter, h.mem_iff]
    constructor
    · rintro ⟨⟨here, dirs, name, start, file, deep, unskipped, eq, admitted⟩, passes⟩
      exact ⟨here, dirs, name, start, file, deep, unskipped, eq, by rw [fewer, admitted, passes]; rfl⟩
    · rintro ⟨here, dirs, name, start, file, deep, unskipped, eq, admitted⟩
      rw [fewer, Bool.and_eq_true] at admitted
      exact ⟨⟨here, dirs, name, start, file, deep, unskipped, eq, admitted.1⟩, admitted.2⟩
  sorted := h.sorted.filter p

end IsListing

namespace Walk

variable {w : Walk} {t entries : Tree} {here parts : List String} {above path : String} {levels : Nat}

/-- What is listed below a directory leads through one of its entries. -/
theorem names_of_mem_listing (free : ∀ x ∈ entries, '/' ∉ x.1.toList ∧ x.2.SlashFree)
    (heads : ∀ s, Path.names (above ++ s) = parts ++ Path.names s) (mem : path ∈ w.listing t levels here above entries) :
    ∃ x ∈ entries, ∃ rest, Path.names path = parts ++ x.1 :: rest := by
  induction levels generalizing entries here above parts with
  | zero => cases mem
  | succ levels ih =>
    obtain ⟨name, e, among, -, inside⟩ := mem_listing_iff.mp mem
    obtain ⟨plain, below⟩ := free _ among
    refine ⟨_, among, ?_⟩
    rcases inside with ⟨inner, rfl, deeper⟩ | ⟨-, -, rfl⟩
    · have deeperHeads : ∀ s, Path.names (above ++ name ++ "/" ++ s) = (parts ++ [name]) ++ Path.names s := by
        intro s
        rw [Path.names_append_slash, heads, Path.names_of_free plain]
      obtain ⟨x, -, rest, eq⟩ := ih (Entry.SlashFree.directory_iff.mp below) deeperHeads deeper
      exact ⟨x.1 :: rest, by rw [eq, List.append_assoc, List.singleton_append]⟩
    · exact ⟨[], by rw [heads, Path.names_of_free plain]⟩

/-- A walk without a limit goes in the order of paths. -/
theorem pairwise_listing (ordered : (Entry.directory entries).Ordered) (free : (Entry.directory entries).SlashFree)
    (heads : ∀ s, Path.names (above ++ s) = parts ++ Path.names s) :
    (w.listing t levels here above entries).Pairwise Path.Precedes := by
  induction levels generalizing entries here above parts with
  | zero => exact .nil
  | succ levels ih =>
    obtain ⟨sorted, orderly⟩ := Entry.Ordered.directory_iff.mp ordered
    have slashFree := Entry.SlashFree.directory_iff.mp free
    rw [listing]
    refine List.pairwise_flatMap.mpr ⟨fun x among => ?_, sorted.imp_of_mem fun {x y} among among' less => ?_⟩
    · -- Below one entry the walk goes on as it began.
      obtain ⟨name, e⟩ := x
      obtain ⟨plain, below⟩ := slashFree _ among
      dsimp only
      split
      · exact .nil
      · cases e with
        | directory inner =>
          have deeperHeads (s : String) : Path.names (above ++ name ++ "/" ++ s) = (parts ++ [name]) ++ Path.names s := by
            rw [Path.names_append_slash, heads, Path.names_of_free plain]
          exact ih (orderly _ among) below deeperHeads
        | file | link =>
          dsimp only
          split
          · exact List.pairwise_singleton _ _
          · exact .nil
    · -- What leads through different entries is in the order of their names.
      intro path mem path' mem'
      have through : ∀ z ∈ entries, ∀ p ∈ w.listing t (levels + 1) here above [z], ∃ rest, Path.names p = parts ++ z.1 :: rest := by
        intro z inside p mem
        obtain ⟨_, only, rest, eq⟩ := names_of_mem_listing (List.forall_mem_singleton.mpr (slashFree z inside)) heads mem
        exact ⟨rest, List.mem_singleton.mp only ▸ eq⟩
      obtain ⟨rest, eq⟩ := through x among path (by simpa only [listing, List.flatMap_singleton] using mem)
      obtain ⟨rest', eq'⟩ := through y among' path' (by simpa only [listing, List.flatMap_singleton] using mem')
      rw [Path.Precedes, eq, eq']
      exact List.append_left_lt (List.cons_lt_cons_iff.mpr (.inl less))

/-- A file that is listed has its place in the tree. -/
theorem exists_file_of_mem_listing (ordered : (Entry.directory entries).Ordered)
    (mem : path ∈ w.listing t levels here above entries) :
    ∃ dirs name inner e, entries.entriesAt? dirs = some inner ∧ inner.lookup name = some e ∧
      t.isFileEntry (here ++ dirs) name e = true ∧ dirs.length < levels ∧
      (∀ part ∈ dirs ++ [name], part ∉ Language.skippedNames) ∧ path = above ++ "/".intercalate (dirs ++ [name]) ∧
      w.keep path name = true := by
  induction levels generalizing entries here above with
  | zero => cases mem
  | succ levels ih =>
    obtain ⟨name, e, among, unskipped, inside⟩ := mem_listing_iff.mp mem
    have found := ordered.lookup_of_mem among
    rcases inside with ⟨inner, rfl, deeper⟩ | ⟨file, kept, rfl⟩
    · obtain ⟨dirs, last, deepest, e, inside, looked, file, deep, others, rfl, kept⟩ := ih (ordered.of_lookup found) deeper
      refine ⟨name :: dirs, last, deepest, e, ?_, looked, ?_, Nat.succ_lt_succ deep, List.forall_mem_cons.mpr ⟨unskipped, others⟩,
        ?_, kept⟩
      · rw [Tree.entriesAt?, found]
        exact inside
      · simpa using file
      · rw [List.cons_append, String.intercalate_cons_of_ne_nil (by simp)]
        simp only [String.append_assoc]
    · exact ⟨[], name, entries, e, rfl, found, by simpa using file, Nat.succ_pos _, by simpa using unskipped, by simp, kept⟩

end Walk

variable {t : Tree}

/-- Without a limit, a walk lists what is to be listed. -/
theorem isListing_listing {entries : Tree} {root : Path} {here : List String} (ordered : (Entry.directory t).Ordered)
    (free : (Entry.directory t).SlashFree) (start : t.directory? root = some here)
    (opened : t.entriesAt? here = some entries) (admits : String → String → Bool) (maxDepth limit : Int) :
    IsListing t root admits maxDepth
      (Walk.listing ⟨admits, (maxDepth + 1).toNat, limit⟩ t (maxDepth + 1).toNat here "" entries) where
  mem_iff path := by
    constructor
    · intro mem
      obtain ⟨dirs, name, inner, e, inside, found, file, deep, unskipped, eq, kept⟩ :=
        Walk.exists_file_of_mem_listing (ordered.of_entriesAt? opened) mem
      have reached : t.entriesAt? (here ++ dirs) = some inner := by
        rw [Tree.entriesAt?_append, opened]
        exact inside
      rw [String.empty_append] at eq
      exact ⟨here, dirs, name, start, ⟨inner, e, reached, found, file⟩, by omega, unskipped, eq, kept⟩
    · rintro ⟨here', dirs, name, start', ⟨inner, e, reached, found, file⟩, deep, unskipped, rfl, admitted⟩
      obtain rfl := Option.some.inj (start.symm.trans start')
      rw [Tree.entriesAt?_append, opened] at reached
      have level : dirs.length < (maxDepth + 1).toNat := by omega
      have kept : Walk.keep ⟨admits, (maxDepth + 1).toNat, limit⟩ ("" ++ "/".intercalate (dirs ++ [name])) name = true := by
        rwa [String.empty_append]
      have mem := Walk.mem_listing reached found file level unskipped kept
      rwa [String.empty_append] at mem
  sorted := by
    have heads (s : String) : Path.names ("" ++ s) = [] ++ Path.names s := by rw [String.empty_append, List.nil_append]
    exact Walk.pairwise_listing (ordered.of_entriesAt? opened) (free.of_entriesAt? opened) heads

/-- All walks that admit the same files down to the same depth list beginnings of one listing. -/
theorem exists_listing (ordered : (Entry.directory t).Ordered) (free : (Entry.directory t).SlashFree) (root : Path)
    (admits : String → String → Bool) (maxDepth : Int) :
    ∃ l, IsListing t root admits maxDepth l ∧
      ∀ limit : Int, Walk.run ⟨admits, (maxDepth + 1).toNat, limit⟩ t root = l.take limit.toNat := by
  by_cases opens : ∃ here entries, t.directory? root = some here ∧ t.entriesAt? here = some entries
  · obtain ⟨here, entries, start, opened⟩ := opens
    have lists := isListing_listing ordered free start opened admits maxDepth
    refine ⟨_, lists 0, fun limit => ?_⟩
    rw [Walk.run_eq_take start opened, (lists 0).unique (lists limit)]
  · refine ⟨[], ⟨fun path => ?_, .nil⟩, fun limit => ?_⟩
    · refine iff_of_false List.not_mem_nil ?_
      rintro ⟨here, dirs, name, start, ⟨inner, e, reached, -⟩, -⟩
      obtain ⟨entries, opened, -⟩ := Option.bind_eq_some_iff.mp (Tree.entriesAt?_append t here dirs ▸ reached)
      exact opens ⟨here, entries, start, opened⟩
    · rw [Walk.run, List.take_nil]
      split
      next => rfl
      next here start =>
        split
        next => rfl
        next entries opened => exact absurd ⟨here, entries, start, opened⟩ opens

/-- A directory beside a link to a file in it, with a test, and a directory that is skipped. -/
def mixedTree : Tree :=
  [("a", .directory [("b.py", .file []), ("test_b.py", .file [])]), ("a.py", .link "a/b.py"),
    ("build", .directory [("c.py", .file [])])]

/-- It is put together from paths. -/
theorem mixedTree_eq : mixedTree = (((Tree.insert [] (.file []) ["build", "c.py"]).insert (.link "a/b.py") ["a.py"]).insert
    (.file []) ["a", "test_b.py"]).insert (.file []) ["a", "b.py"] := by
  rfl

theorem mixedTree_ordered : (Entry.directory mixedTree).Ordered := by
  rw [mixedTree_eq]
  exact (((Entry.Ordered.empty.insert (.file []) _).insert (.link _) _).insert (.file []) _).insert (.file []) _

theorem resolveFrom_mixedTree : mixedTree.resolveFrom Tree.linkLimit [] ["a.py"] = some (.file []) := by
  have target : Path.ofText "a/b.py" = ⟨.here, ["a", "b.py"]⟩ := by decide
  have linked : mixedTree.lookup "a.py" = some (.link "a/b.py") := rfl
  have above : mixedTree.lookup "a" = some (.directory [("b.py", .file []), ("test_b.py", .file [])]) := rfl
  have below : List.lookup "b.py" [("b.py", Entry.file []), ("test_b.py", .file [])] = some (.file []) := rfl
  simp [Tree.linkLimit, Tree.resolveFrom, Tree.entriesAt?, target, linked, above, below, Path.isAbsolute,
    Path.endsInSlash, Path.split]

theorem visit_mixedTree {t : Tree} (linked : t.resolveFrom Tree.linkLimit [] ["a.py"] = some (.file [])) :
    (Walk.visit ⟨isSource true, 2, 4⟩ t 2 [] "" mixedTree #[]).toList = ["a/b.py", "a/test_b.py", "a.py"] := by
  have source : isSource true "a/b.py" "b.py" ∧ isSource true "a/test_b.py" "test_b.py" ∧ isSource true "a.py" "a.py" := by
    decide +kernel
  simp [Walk.visit, mixedTree, Language.skippedNames, Tree.isFileEntry, linked, source]

theorem sourceFiles_mixedTree : sourceFiles mixedTree {} true 4 1 = ["a/b.py", "a/test_b.py", "a.py"] := by
  rw [sourceFiles_here]
  exact visit_mixedTree resolveFrom_mixedTree

theorem mixedTree_slashFree : (Entry.directory mixedTree).SlashFree := by
  have none : (Entry.directory []).SlashFree := .directory nofun nofun
  rw [mixedTree_eq]
  exact (((none.insert (.file []) (by decide)).insert (.link _) (by decide)).insert (.file []) (by decide)).insert
    (.file []) (by decide)

end CodeHygiene.Repository
