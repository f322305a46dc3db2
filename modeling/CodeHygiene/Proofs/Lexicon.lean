import CodeHygiene.Claim.Basic
import CodeHygiene.Proofs.Search
import Mathlib.Data.List.Forall2

/-!
Words of a lexicon in a text.

A word occurs where it is read letter by letter, case ignored, and a word of the text neither goes on before it nor behind
it (`OccursAt`).

Proved:
(1) Under the lower case of a word a lexicon has the meaning that the table gives it last (`lookup_lexicon`).
(2) The pattern of a lexicon can end where one of its words does that occurs (`mem_ends_pattern_iff`), and longer words are
    tried before shorter ones (`longestFirst_pattern`).
(3) So a match is an occurrence of a word, and no longer word occurs at its place; matches do not overlap; and where a word
    occurs outside the matches before it there is one (`longest_word_wins`).
-/

namespace CodeHygiene

/-! ## Boundaries -/

namespace Text

/-- A word of the text begins or ends at an offset. -/
def IsBoundary (text : List Char) (i : Nat) : Prop :=
  ((text.take i).getLast?.any isWord != (text.drop i).head?.any isWord) = true

instance (text : List Char) (i : Nat) : Decidable (IsBoundary text i) := inferInstanceAs (Decidable (_ = _))

theorem holds_wordBoundary_iff {text : List Char} {p : Regex.Place} (inside : p.In text) :
    Regex.Anchor.holds .wordBoundary p = true ↔ IsBoundary text p.offset := by
  rw [Regex.Anchor.holds, IsBoundary, inside.before, inside.rest]

end Text

namespace Claim

open Regex (Place Node ends Hit)

variable {word key text : List Char} {lex : Lexicon} {p q : Place}

/-! ## Meanings -/

/-- The words of a table with their categories, in the order of the table. -/
def entries (categories : Categories) : List Meaning :=
  categories.flatMap fun (category, words) => words.map (Meaning.mk category)

/-- The words of a lexicon, in lower case. -/
def Lexicon.keys (lex : Lexicon) : List (List Char) := lex.map (·.1)

theorem Lexicon.lookup_set (lex : Lexicon) (key other : List Char) (m : Meaning) :
    (lex.set key m).lookup other = if other = key then some m else lex.lookup other := by
  have lookup_cons (k : List Char) (old : Meaning) (rest : Lexicon) :
      List.lookup other ((k, old) :: rest) = if other = k then some old else List.lookup other rest := by
    rw [List.lookup_cons]
    split <;> simp_all
  induction lex with
  | nil => exact lookup_cons key m []
  | cons entry rest ih =>
    obtain ⟨k, old⟩ := entry
    rw [Lexicon.set]
    by_cases own : k = key
    · rw [if_pos own, lookup_cons, lookup_cons, own]
      split <;> rfl
    · rw [if_neg own, lookup_cons, lookup_cons, ih]
      by_cases same : other = k
      · rw [if_pos same, if_neg (same ▸ own), if_pos same]
      · rw [if_neg same, if_neg same]

theorem Lexicon.set_ne_nil (lex : Lexicon) (key : List Char) (m : Meaning) : lex.set key m ≠ [] := by
  cases lex with
  | nil => exact List.cons_ne_nil _ _
  | cons entry rest =>
    obtain ⟨k, old⟩ := entry
    rw [Lexicon.set]
    split <;> exact List.cons_ne_nil _ _

/-- Words that come later take the place of those that came before. -/
theorem lookup_foldl_set (more : List Meaning) (lex : Lexicon) (key : List Char) (m : Meaning) :
    (more.foldl (fun lex m => lex.set (Text.lower m.word.toList) m) lex).lookup key = some m ↔
      (∃ earlier later, more = earlier ++ m :: later ∧ Text.lower m.word.toList = key ∧
        ∀ other ∈ later, Text.lower other.word.toList ≠ key) ∨
      ((∀ other ∈ more, Text.lower other.word.toList ≠ key) ∧ lex.lookup key = some m) := by
  induction more generalizing lex with
  | nil => simp
  | cons first more ih =>
    rw [List.foldl_cons, ih, Lexicon.lookup_set]
    constructor
    · rintro (⟨earlier, later, rfl, own, last⟩ | ⟨none, found⟩)
      · exact .inl ⟨first :: earlier, later, rfl, own, last⟩
      · split at found
        next same =>
          cases found
          exact .inl ⟨[], more, rfl, same.symm, none⟩
        next other => exact .inr ⟨List.forall_mem_cons.mpr ⟨Ne.symm other, none⟩, found⟩
    · rintro (⟨earlier, later, eq, own, last⟩ | ⟨none, found⟩)
      · cases earlier with
        | nil =>
          obtain ⟨rfl, rfl⟩ := List.cons.inj eq
          exact .inr ⟨last, if_pos own.symm⟩
        | cons _ earlier =>
          obtain ⟨rfl, rfl⟩ := List.cons.inj eq
          exact .inl ⟨earlier, later, rfl, own, last⟩
      · obtain ⟨other, none⟩ := List.forall_mem_cons.mp none
        exact .inr ⟨none, (if_neg (Ne.symm other)).trans found⟩

/-- The last meaning that the table has for a word counts. -/
theorem lookup_lexicon (categories : Categories) (key : List Char) (m : Meaning) :
    (lexicon categories).lookup key = some m ↔ ∃ earlier later, entries categories = earlier ++ m :: later ∧
      Text.lower m.word.toList = key ∧ ∀ other ∈ later, Text.lower other.word.toList ≠ key := by
  rw [lexicon, ← entries, lookup_foldl_set]
  exact or_iff_left fun ⟨_, no⟩ => by cases no

theorem lexicon_ne_nil {categories : Categories} (listed : ∃ entry ∈ categories, entry.2 ≠ []) : lexicon categories ≠ [] := by
  obtain ⟨⟨category, words⟩, mem, nonempty⟩ := listed
  obtain ⟨word, inside⟩ := List.exists_mem_of_ne_nil words nonempty
  have entered : Meaning.mk category word ∈ entries categories :=
    List.mem_flatMap.mpr ⟨_, mem, List.mem_map.mpr ⟨word, inside, rfl⟩⟩
  have filled (more : List Meaning) (lex : Lexicon) (some : more ≠ [] ∨ lex ≠ []) :
      more.foldl (fun lex m => lex.set (Text.lower m.word.toList) m) lex ≠ [] := by
    induction more generalizing lex with
    | nil => exact some.resolve_left (fun no => no rfl)
    | cons m more ih => exact ih _ (.inr (lex.set_ne_nil _ m))
  exact filled (entries categories) [] (.inl (List.ne_nil_of_mem entered))

/-! ## Occurrences -/

/-- A character stands for a letter when case is ignored. -/
def SameLetter (letter c : Char) : Prop :=
  Text.lowerChar c = Text.lowerChar letter ∨ Text.lowerChar c ∈ Text.variants (Text.lowerChar letter)

instance (letter c : Char) : Decidable (SameLetter letter c) := inferInstanceAs (Decidable (_ ∨ _))

/-- A word is read at an offset, case ignored, and no word of the text reaches over its ends. -/
structure OccursAt (word text : List Char) (i : Nat) : Prop where
  le : i ≤ text.length
  reads : List.Forall₂ SameLetter word (Text.slice text i (i + word.length))
  starts : Text.IsBoundary text i
  stops : Text.IsBoundary text (i + word.length)

instance (word text : List Char) (i : Nat) : Decidable (OccursAt word text i) :=
  decidable_of_iff (i ≤ text.length ∧ List.Forall₂ SameLetter word (Text.slice text i (i + word.length)) ∧
      Text.IsBoundary text i ∧ Text.IsBoundary text (i + word.length))
    ⟨fun ⟨le, reads, starts, stops⟩ => ⟨le, reads, starts, stops⟩, fun h => ⟨h.le, h.reads, h.starts, h.stops⟩⟩

theorem OccursAt.stop_le {i : Nat} (occurs : OccursAt word text i) : i + word.length ≤ text.length := by
  have width := occurs.reads.length_eq
  have le := occurs.le
  rw [Text.slice, Nat.add_sub_cancel_left, List.length_take, List.length_drop] at width
  omega

theorem contains_letter (letter c : Char) : (Regex.Flags.anyCase.set (.one letter)).contains c = true ↔ SameLetter letter c := by
  have items : ((Regex.CharSet.one letter).folded).items =
      .one (Text.lowerChar letter) :: (Text.variants (Text.lowerChar letter)).map .one := List.append_nil _
  have folded : ((Regex.CharSet.one letter).folded).contains c = true ↔
      ((Regex.CharSet.one letter).folded).items.any (·.contains (Text.lowerChar c)) = true := by
    rw [Regex.CharSet.contains]
    exact Iff.of_eq (congrArg (· = true) (Bool.bne_false _))
  rw [show Regex.Flags.anyCase.set (.one letter) = (Regex.CharSet.one letter).folded from rfl, folded, items, SameLetter]
  simp only [List.any_cons, List.any_map, Function.comp_def, Regex.CharItem.contains, Bool.or_eq_true, decide_eq_true_eq,
    List.any_eq_true]
  refine or_congr_right ⟨?_, fun mem => ⟨_, mem, rfl⟩⟩
  rintro ⟨other, mem, rfl⟩
  exact mem

/-! ## The pattern -/

theorem mem_ends_set {s : Regex.CharSet} : q ∈ ends (.set s) p ↔ ∃ c rest, p.rest = c :: rest ∧ s.contains c = true ∧ q = p.past c rest := by
  rw [ends]
  cases p.rest with
  | nil => simp
  | cons c rest =>
    simp only [List.mem_ite_nil_right, List.mem_singleton, List.cons.injEq]
    constructor
    · rintro ⟨inside, rfl⟩
      exact ⟨c, rest, ⟨rfl, rfl⟩, inside, rfl⟩
    · rintro ⟨c, rest, ⟨rfl, rfl⟩, inside, rfl⟩
      exact ⟨inside, rfl⟩

/-- A word is read letter by letter. -/
theorem mem_ends_wordNode_iff : q ∈ ends (wordNode word) p ↔
    ∃ part, p.Leads part q ∧ q.groups = p.groups ∧ List.Forall₂ SameLetter word part := by
  induction word generalizing p with
  | nil =>
    rw [wordNode, List.foldr_nil, ends, List.mem_singleton]
    constructor
    · rintro rfl
      exact ⟨[], .here _, rfl, .nil⟩
    · rintro ⟨part, leads, kept, reads⟩
      cases reads
      exact leads.eq_of_nil kept
  | cons letter word ih =>
    rw [wordNode, List.foldr_cons, ends, List.mem_flatMap]
    constructor
    · rintro ⟨r, first, others⟩
      obtain ⟨c, rest, eq, inside, rfl⟩ := mem_ends_set.mp first
      obtain ⟨part, leads, kept, reads⟩ := ih.mp others
      exact ⟨c :: part, Place.Leads.trans (.past eq) leads, kept, .cons ((contains_letter letter c).mp inside) reads⟩
    · rintro ⟨part, leads, kept, reads⟩
      obtain ⟨c, part, same, others, rfl⟩ := List.forall₂_cons_left_iff.mp reads
      have eq : p.rest = c :: (part ++ q.rest) := leads.rest
      refine ⟨p.past c (part ++ q.rest), mem_ends_set.mpr ⟨c, _, eq, (contains_letter letter c).mpr same, rfl⟩, ?_⟩
      exact ih.mpr ⟨part, leads.of_cons eq, kept, others⟩

theorem offset_of_mem_ends_wordNode (mem : q ∈ ends (wordNode word) p) : q.offset = p.offset + word.length := by
  obtain ⟨part, leads, -, reads⟩ := mem_ends_wordNode_iff.mp mem
  rw [leads.offset, reads.length_eq]

theorem ends_anyOf {nodes : List Node} (some : nodes ≠ []) : ends (anyOf nodes) p = nodes.flatMap fun n => ends n p := by
  induction nodes with
  | nil => exact absurd rfl some
  | cons n more ih =>
    cases more with
    | nil => rw [anyOf, List.flatMap_singleton]
    | cons other more =>
      show ends n p ++ ends (anyOf (other :: more)) p = _
      rw [ih (List.cons_ne_nil _ _)]
      rfl

theorem mem_byLength {key : List Char} : key ∈ byLength lex ↔ key ∈ lex.keys := List.mem_mergeSort

theorem pairwise_byLength (lex : Lexicon) : (byLength lex).Pairwise fun a b => b.length ≤ a.length := by
  refine (List.pairwise_mergeSort (fun a b c => ?_) (fun a b => ?_) lex.keys).imp of_decide_eq_true
  · simp only [decide_eq_true_eq]
    exact fun ab bc => Nat.le_trans bc ab
  · simp only [Bool.or_eq_true, decide_eq_true_eq]
    exact Nat.le_total _ _

/-- Between two boundaries stands a word, which is the group. -/
theorem ends_pattern : ends (pattern lex).node p =
    if Regex.Anchor.holds .wordBoundary p then
      ((ends (anyOf ((byLength lex).map wordNode)) p).map fun q => { q with groups := (1, ⟨p.offset, q.offset⟩) :: q.groups }).filter
        (Regex.Anchor.holds .wordBoundary)
    else [] := by
  have closing (places : List Place) : places.flatMap (ends (.anchor .wordBoundary)) =
      places.filter (Regex.Anchor.holds .wordBoundary) := by
    induction places with
    | nil => rfl
    | cons q places ih =>
      rw [List.flatMap_cons, ih, ends, List.filter_cons]
      split <;> rfl
  rw [pattern, ends, ends]
  split
  next => rw [List.flatMap_singleton, ends, closing, ends]
  next => rfl

theorem pairwise_ends_anyOf (lex : Lexicon) (p : Place) :
    (ends (anyOf ((byLength lex).map wordNode)) p).Pairwise fun q r => r.offset ≤ q.offset := by
  by_cases none : byLength lex = []
  · rw [none]
    exact List.pairwise_singleton _ _
  · rw [ends_anyOf (by simpa using none), List.flatMap_map, List.pairwise_flatMap]
    constructor
    · intro word _
      refine List.pairwise_of_forall_mem_list fun q mem r mem' => ?_
      exact Nat.le_of_eq ((offset_of_mem_ends_wordNode mem').trans (offset_of_mem_ends_wordNode mem).symm)
    · refine (pairwise_byLength lex).imp fun shorter q mem r mem' => ?_
      rw [offset_of_mem_ends_wordNode mem, offset_of_mem_ends_wordNode mem']
      omega

/-- Longer words are tried before shorter ones. -/
theorem longestFirst_pattern (lex : Lexicon) : Regex.LongestFirst (pattern lex).node := by
  intro p
  rw [ends_pattern]
  split
  next => exact (List.pairwise_map.mpr (pairwise_ends_anyOf lex p)).filter _
  next => exact .nil

/-- A match of the pattern ends where a word ends that is read from the place on, between boundaries. -/
theorem mem_ends_pattern_iff (some : lex ≠ []) : q ∈ ends (pattern lex).node p ↔
    ∃ key ∈ lex.keys, ∃ part, p.Leads part q ∧ q.groups = (1, ⟨p.offset, q.offset⟩) :: p.groups ∧
      List.Forall₂ SameLetter key part ∧ Regex.Anchor.holds .wordBoundary p = true ∧ Regex.Anchor.holds .wordBoundary q = true := by
  have listed : (byLength lex).map wordNode ≠ [] := by
    rw [Ne, List.map_eq_nil_iff, byLength, ← List.length_eq_zero_iff, List.length_mergeSort, List.length_map]
    exact mt List.length_eq_zero_iff.mp some
  rw [ends_pattern, ends_anyOf listed, List.flatMap_map]
  split
  next opens =>
    simp only [List.mem_filter, List.mem_map, List.mem_flatMap, mem_byLength]
    constructor
    · rintro ⟨⟨r, ⟨key, among, mem⟩, rfl⟩, closes⟩
      obtain ⟨part, leads, kept, reads⟩ := mem_ends_wordNode_iff.mp mem
      exact ⟨key, among, part, ⟨leads.rest, leads.offset, leads.before⟩, congrArg _ kept, reads, opens, closes⟩
    · rintro ⟨key, among, part, leads, groups, reads, -, closes⟩
      refine ⟨⟨{ q with groups := p.groups }, ⟨key, among, ?_⟩, by rw [← groups]⟩, closes⟩
      exact mem_ends_wordNode_iff.mpr ⟨part, ⟨leads.rest, leads.offset, leads.before⟩, rfl, reads⟩
  next closed =>
    refine ⟨fun no => absurd no List.not_mem_nil, fun ⟨_, _, _, _, _, _, opens, _⟩ => absurd opens closed⟩

/-! ## Matches -/

/-- From a place of a text to the one that is some characters further on. -/
theorem leads_slice (inside : p.In text) (n : Nat) (groups : List (Nat × Regex.Span)) (le : p.offset + n ≤ text.length) :
    p.Leads (Text.slice text p.offset (p.offset + n))
      ⟨(text.take (p.offset + n)).getLast?, p.offset + n, text.drop (p.offset + n), groups⟩ where
  rest := by rw [inside.rest, Text.slice, Nat.add_sub_cancel_left, ← List.drop_drop, List.take_append_drop]
  offset := by
    have long : n ≤ (text.drop p.offset).length := by
      rw [List.length_drop]
      omega
    rw [Text.slice, Nat.add_sub_cancel_left, List.length_take_of_le long]
  before := by rw [inside.before, Text.slice, Nat.add_sub_cancel_left, List.take_add, List.getLast?_append]

/-- Where a word occurs, the pattern has a match that takes it. -/
theorem OccursAt.exists_end (occurs : OccursAt key text p.offset) (inside : p.In text) (among : key ∈ lex.keys) :
    ∃ q ∈ ends (pattern lex).node p, q.offset = p.offset + key.length := by
  have some : lex ≠ [] := by
    rintro rfl
    cases among
  have leads := leads_slice inside key.length ((1, ⟨p.offset, p.offset + key.length⟩) :: p.groups) occurs.stop_le
  refine ⟨_, (mem_ends_pattern_iff some).mpr ⟨key, among, _, leads, rfl, occurs.reads, ?_, ?_⟩, rfl⟩
  · exact (Text.holds_wordBoundary_iff inside).mpr occurs.starts
  · exact (Text.holds_wordBoundary_iff (inside.leads leads)).mpr occurs.stops

/-- A match of the pattern is an occurrence of a word, and its group is what it takes. -/
theorem exists_occursAt (some : lex ≠ []) (inside : p.In text) (clean : p.groups = []) (mem : q ∈ ends (pattern lex).node p) :
    ∃ key ∈ lex.keys, OccursAt key text p.offset ∧ q.offset = p.offset + key.length ∧
      q.groups = [(1, ⟨p.offset, q.offset⟩)] := by
  obtain ⟨key, among, part, leads, groups, reads, opens, closes⟩ := (mem_ends_pattern_iff some).mp mem
  have offset : q.offset = p.offset + key.length := by rw [leads.offset, reads.length_eq]
  have there := inside.leads leads
  refine ⟨key, among, ⟨inside.le, ?_, ?_, ?_⟩, offset, clean ▸ groups⟩
  · rw [← offset, inside.slice leads]
    exact reads
  · exact (Text.holds_wordBoundary_iff inside).mp opens
  · rw [← offset]
    exact (Text.holds_wordBoundary_iff there).mp closes

/-- A match lies between two boundaries, and its group is what it takes. -/
theorem span_of_mem_all {h : Hit} (mem : h ∈ (pattern lex).all text) :
    h.groupText? text 1 = some (Text.slice text h.start h.stop) ∧ h.start ≤ h.stop ∧ h.stop ≤ text.length ∧
      Text.IsBoundary text h.start ∧ Text.IsBoundary text h.stop := by
  obtain ⟨p, q, inside, -, first, rfl⟩ := Regex.head?_of_mem_all (longestFirst_pattern lex) mem
  have mem : q ∈ ends (pattern lex).node p := List.mem_of_mem_head? first
  have le := Regex.offset_le_of_mem_ends mem
  have there := inside.ends mem
  rw [ends_pattern, List.mem_ite_nil_right, List.mem_filter] at mem
  obtain ⟨opens, inner, closes⟩ := mem
  obtain ⟨r, -, rfl⟩ := List.mem_map.mp inner
  exact ⟨rfl, le, there.le, (Text.holds_wordBoundary_iff inside).mp opens, (Text.holds_wordBoundary_iff there).mp closes⟩

/-- A match is an occurrence of a word of the table, and no longer word occurs at its place. Matches come in order and do not
overlap, and where a word occurs that no match before it reaches over, there is one. A word stands for the last category in
the table that lists it. -/
theorem longest_word_wins (categories : Categories) (listed : ∃ entry ∈ categories, entry.2 ≠ []) (text : List Char) :
    (∀ h ∈ (pattern (lexicon categories)).all text, ∃ key ∈ (lexicon categories).keys,
      OccursAt key text h.start ∧ h.stop = h.start + key.length ∧
      ∀ other ∈ (lexicon categories).keys, key.length < other.length → ¬ OccursAt other text h.start) ∧
    ((pattern (lexicon categories)).all text).Pairwise (fun h h' => h.start < h'.start ∧ h.stop ≤ h'.start) ∧
    (∀ key ∈ (lexicon categories).keys, ∀ i, OccursAt key text i →
      (∀ h ∈ (pattern (lexicon categories)).all text, h.start < i → h.stop ≤ i) →
      ∃ h ∈ (pattern (lexicon categories)).all text, h.start = i) ∧
    ∀ key m, (lexicon categories).lookup key = some m ↔ ∃ earlier later, entries categories = earlier ++ m :: later ∧
      Text.lower m.word.toList = key ∧ ∀ other ∈ later, Text.lower other.word.toList ≠ key := by
  have longest := longestFirst_pattern (lexicon categories)
  refine ⟨fun h mem => ?_, Regex.pairwise_all longest text, fun key among i occurs apart => ?_, lookup_lexicon categories⟩
  · obtain ⟨p, q, inside, clean, first, rfl⟩ := Regex.head?_of_mem_all longest mem
    obtain ⟨key, among, occurs, stop, -⟩ := exists_occursAt (lexicon_ne_nil listed) inside clean (List.mem_of_mem_head? first)
    refine ⟨key, among, occurs, stop, fun other among' longer occurs' => ?_⟩
    obtain ⟨r, mem', stop'⟩ := occurs'.exists_end inside among'
    have le := longest.le_of_head? first mem'
    omega
  · have inside : Place.In text ⟨(text.take i).getLast?, i, text.drop i, []⟩ := ⟨occurs.le, rfl, rfl⟩
    obtain ⟨q, mem, -⟩ := occurs.exists_end inside among
    exact Regex.exists_mem_all longest inside rfl (List.ne_nil_of_mem mem) apart

/-- A table that lists a word twice and has another that goes on behind it. -/
def securityTable : Categories := [("security", ["secure", "Secure by default"]), ("scale", ["SECURE", "c++ ready"])]

/-- The longer word is found, though the shorter one stands at the same place; the shorter one stands for the category that
lists it last. -/
theorem longest_word_wins_securityTable :
    (∃ entry ∈ securityTable, entry.2 ≠ []) ∧
    (∃ h ∈ (pattern (lexicon securityTable)).all "is secure by Default".toList, h.start = 3 ∧ h.stop = 20) ∧
    (lexicon securityTable).lookup "secure".toList = some ⟨"scale", "SECURE"⟩ := by
  have words : ∃ entry ∈ securityTable, entry.2 ≠ [] := by decide
  obtain ⟨occur, -, found, meaning⟩ := longest_word_wins securityTable words "is secure by Default".toList
  refine ⟨words, ?_, (meaning "secure".toList ⟨"scale", "SECURE"⟩).mpr ⟨[⟨"security", "secure"⟩, ⟨"security", "Secure by default"⟩],
    [⟨"scale", "c++ ready"⟩], by decide, by decide, by decide⟩⟩
  have among : "secure by default".toList ∈ (lexicon securityTable).keys := by decide
  have occurs : OccursAt "secure by default".toList "is secure by Default".toList 3 := by decide
  have none : ∀ key ∈ (lexicon securityTable).keys, ∀ i < 3, ¬ OccursAt key "is secure by Default".toList i := by decide
  obtain ⟨h, mem, start⟩ := found _ among 3 occurs fun h mem before => by
    obtain ⟨key, among, occurs, -⟩ := occur h mem
    exact absurd occurs (none key among h.start before)
  refine ⟨h, mem, start, ?_⟩
  obtain ⟨key, among', -, stop, longest⟩ := occur h mem
  have long : 17 ≤ key.length := Nat.le_of_not_lt fun shorter => longest _ among shorter (start ▸ occurs)
  have only : ∀ key ∈ (lexicon securityTable).keys, 17 ≤ key.length → key.length = 17 := by decide
  rw [stop, start, only key among' long]

end Claim

end CodeHygiene
