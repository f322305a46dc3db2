import CodeHygiene.Regex.Search

/-!
What a match takes of the text.

Proved:
(1) A run ends behind each piece of the text that it may take (`mem_ends_run`), a repetition where it starts or where one
    does that goes on behind a match of its part (`mem_manyEnds_iff`); what each match of the part keeps, it keeps
    (`of_mem_manyEnds`).
(2) What a match takes is one of the texts of its expression (`denotes_of_mem`).
(3) So a place where a match can end lies behind the one where it starts, and what it takes of the text between
    them holds only characters of the sets of the expression (`exists_taken`).
-/

namespace CodeHygiene.Regex

/-! ## Places -/

/-- A piece of the text leads from one place to another. -/
structure Place.Leads (p : Place) (taken : List Char) (q : Place) : Prop where
  rest : p.rest = taken ++ q.rest
  offset : q.offset = p.offset + taken.length
  before : q.before = taken.getLast?.or p.before

namespace Place

/-- The place behind the next character. -/
def past (p : Place) (c : Char) (rest : List Char) : Place := ⟨some c, p.offset + 1, rest, p.groups⟩

variable {p q r : Place}

theorem Leads.here (p : Place) : p.Leads [] p := ⟨rfl, rfl, rfl⟩

theorem Leads.past {c : Char} {rest : List Char} (eq : p.rest = c :: rest) : p.Leads [c] (p.past c rest) := ⟨eq, rfl, rfl⟩

theorem Leads.trans {first second : List Char} (h : p.Leads first q) (h' : q.Leads second r) :
    p.Leads (first ++ second) r where
  rest := by rw [h.rest, h'.rest, List.append_assoc]
  offset := by rw [h'.offset, h.offset, List.length_append, Nat.add_assoc]
  before := by rw [h'.before, h.before, List.getLast?_append, Option.or_assoc]

theorem Leads.eq_of_nil (h : p.Leads [] q) (groups : q.groups = p.groups) : q = p := by
  obtain ⟨rest, offset, before⟩ := h
  cases p
  cases q
  simp_all

theorem Leads.of_cons {c : Char} {taken rest : List Char} (h : p.Leads (c :: taken) q) (eq : p.rest = c :: rest) :
    (p.past c rest).Leads taken q where
  rest := (List.cons.inj (eq.symm.trans h.rest)).2
  offset := by rw [h.offset, List.length_cons, Nat.add_comm taken.length, ← Nat.add_assoc]; rfl
  before := by
    rw [h.before, List.getLast?_cons]
    cases taken.getLast? <;> rfl

end Place

/-! ## Runs and repetitions -/

/-- A number of repetitions that the bounds admit. -/
structure Admits (least : Nat) (most : Option Nat) (n : Nat) : Prop where
  enough : least ≤ n
  bounded : ∀ m, most = some m → n ≤ m

section

variable {least n : Nat} {most : Option Nat}

theorem admits_zero : Admits least most 0 ↔ least = 0 :=
  ⟨fun few => Nat.le_zero.mp few.enough, fun zero => ⟨Nat.le_of_eq zero, fun m _ => Nat.zero_le m⟩⟩

/-- The bounds that are left behind the first repetition. -/
theorem admits_succ : Admits least most (n + 1) ↔ most ≠ some 0 ∧ Admits (least - 1) (most.map (· - 1)) n := by
  constructor
  · rintro ⟨enough, bounded⟩
    refine ⟨fun none => absurd (bounded 0 none) (Nat.not_succ_le_zero _), by omega, fun m eq => ?_⟩
    obtain ⟨m, same, rfl⟩ := Option.map_eq_some_iff.mp eq
    exact Nat.le_sub_one_of_lt (bounded m same)
  · rintro ⟨further, enough, bounded⟩
    refine ⟨by omega, fun m same => ?_⟩
    have below := bounded (m - 1) (by rw [same]; rfl)
    have pos : m ≠ 0 := fun zero => further (by rw [same, zero])
    omega

/-- Some characters of a set, no fewer and no more than a run may take. -/
structure IsRun (s : CharSet) (least : Nat) (most : Option Nat) (taken : List Char) : Prop where
  count : Admits least most taken.length
  among : ∀ c ∈ taken, s.contains c = true

theorem isRun_nil {s : CharSet} : IsRun s least most [] ↔ least = 0 :=
  ⟨fun run => admits_zero.mp run.count, fun zero => ⟨admits_zero.mpr zero, fun _ none => absurd none List.not_mem_nil⟩⟩

theorem isRun_cons {s : CharSet} {c : Char} {taken : List Char} :
    IsRun s least most (c :: taken) ↔
      (most ≠ some 0 ∧ s.contains c = true) ∧ IsRun s (least - 1) (most.map (· - 1)) taken := by
  constructor
  · rintro ⟨count, among⟩
    obtain ⟨further, count⟩ := admits_succ.mp count
    obtain ⟨first, others⟩ := List.forall_mem_cons.mp among
    exact ⟨⟨further, first⟩, count, others⟩
  · rintro ⟨⟨further, first⟩, count, among⟩
    exact ⟨admits_succ.mpr ⟨further, count⟩, List.forall_mem_cons.mpr ⟨first, among⟩⟩

/-- Of a run without bounds only the characters count. -/
theorem isRun_unbounded {s : CharSet} {taken : List Char} : IsRun s 0 none taken ↔ ∀ c ∈ taken, s.contains c = true :=
  ⟨IsRun.among, fun among => ⟨⟨Nat.zero_le _, fun _ no => nomatch no⟩, among⟩⟩

end

/-- A set ends behind a character of it. -/
theorem mem_ends_set {s : CharSet} {p q : Place} :
    q ∈ ends (.set s) p ↔ ∃ c rest, p.rest = c :: rest ∧ s.contains c = true ∧ q = p.past c rest := by
  rw [ends]
  cases eq : p.rest with
  | nil => simp
  | cons c rest =>
    rw [List.mem_ite_nil_right, List.mem_singleton]
    constructor
    · rintro ⟨inside, rfl⟩
      exact ⟨c, rest, rfl, inside, rfl⟩
    · rintro ⟨_, _, same, inside, rfl⟩
      cases same
      exact ⟨inside, rfl⟩

/-- A run ends behind each piece of the text that it may take. -/
theorem mem_runEnds_iff {s : CharSet} {groups : List (Nat × Span)} {least : Nat} {most : Option Nat} {before : Option Char}
    {offset : Nat} {rest : List Char} {q : Place} :
    q ∈ runEnds s groups least most before offset rest ↔
      ∃ taken, Place.Leads ⟨before, offset, rest, groups⟩ taken q ∧ q.groups = groups ∧ IsRun s least most taken := by
  have stay (most : Option Nat) {rest : List Char} {least : Nat} {before : Option Char} {offset : Nat} :
      (q ∈ if least = 0 then [⟨before, offset, rest, groups⟩] else []) ↔
        q = ⟨before, offset, rest, groups⟩ ∧ IsRun s least most [] := by
    rw [isRun_nil]
    split <;> simp_all
  induction rest generalizing least most before offset with
  | nil =>
    rw [runEnds]
    refine (stay most).trans ⟨?_, ?_⟩
    · rintro ⟨rfl, run⟩
      exact ⟨[], .here _, rfl, run⟩
    · rintro ⟨taken, leads, kept, run⟩
      obtain ⟨rfl, ended⟩ := List.append_eq_nil_iff.mp leads.rest.symm
      exact ⟨leads.eq_of_nil kept, run⟩
  | cons c more ih =>
    have here_or : (q ∈ runEnds s groups least most before offset (c :: more)) ↔
        (q = ⟨before, offset, c :: more, groups⟩ ∧ IsRun s least most []) ∨
          ((most ≠ some 0 ∧ s.contains c = true) ∧
            q ∈ runEnds s groups (least - 1) (most.map (· - 1)) (some c) (offset + 1) more) := by
      rw [runEnds]
      split
      next go => rw [List.mem_append, stay most]; simp_all
      next no => rw [stay most]; simp_all
    rw [here_or]
    refine (or_congr_right (and_congr_right fun _ => ih)).trans ?_
    constructor
    · rintro (⟨rfl, run⟩ | ⟨go, taken, leads, kept, run⟩)
      · exact ⟨[], .here _, rfl, run⟩
      · exact ⟨c :: taken, Place.Leads.trans (.past rfl) leads, kept, isRun_cons.mpr ⟨go, run⟩⟩
    · rintro ⟨taken, leads, kept, run⟩
      cases taken with
      | nil => exact .inl ⟨leads.eq_of_nil kept, run⟩
      | cons d taken =>
        obtain ⟨rfl, -⟩ := List.cons.inj leads.rest
        obtain ⟨go, run⟩ := isRun_cons.mp run
        exact .inr ⟨go, taken, leads.of_cons rfl, kept, run⟩

theorem mem_ends_run {s : CharSet} {least : Nat} {most : Option Nat} {isLazy : Bool} {p q : Place} :
    q ∈ ends (.run s least most isLazy) p ↔ ∃ taken, p.Leads taken q ∧ q.groups = p.groups ∧ IsRun s least most taken := by
  rw [← mem_runEnds_iff]
  cases isLazy with
  | true => exact Iff.rfl
  | false => exact List.mem_reverse

/-- A repetition ends where it starts, or where one ends that goes on behind a match of the part. -/
theorem mem_manyEnds_iff {part : Node} {isLazy : Bool} {clock : List Char} {least : Nat} {most : Option Nat} {p q : Place} :
    q ∈ manyEnds (ends part) isLazy clock least most p ↔
      (least = 0 ∧ q = p) ∨ ∃ c rest, clock = c :: rest ∧ most ≠ some 0 ∧ ∃ r ∈ ends part p, p.offset < r.offset ∧
        q ∈ manyEnds (ends part) isLazy rest (least - 1) (most.map (· - 1)) r := by
  cases clock with
  | nil =>
    rw [manyEnds]
    split <;> simp_all
  | cons c rest =>
    have further : (q ∈ if most = some 0 then [] else (ends part p).flatMap fun r =>
        if p.offset < r.offset then manyEnds (ends part) isLazy rest (least - 1) (most.map (· - 1)) r else []) ↔
        most ≠ some 0 ∧ ∃ r ∈ ends part p, p.offset < r.offset ∧
          q ∈ manyEnds (ends part) isLazy rest (least - 1) (most.map (· - 1)) r := by
      split
      next none => simp [none]
      next some =>
        rw [List.mem_flatMap, and_iff_right some]
        refine exists_congr fun r => and_congr_right fun _ => ?_
        split
        next forward => rw [and_iff_right forward]
        next back => exact ⟨fun no => absurd no List.not_mem_nil, fun go => absurd go.1 back⟩
    have goes : (∃ d more, c :: rest = d :: more ∧ most ≠ some 0 ∧ ∃ r ∈ ends part p, p.offset < r.offset ∧
        q ∈ manyEnds (ends part) isLazy more (least - 1) (most.map (· - 1)) r) ↔ most ≠ some 0 ∧
          ∃ r ∈ ends part p, p.offset < r.offset ∧
            q ∈ manyEnds (ends part) isLazy rest (least - 1) (most.map (· - 1)) r :=
      ⟨fun ⟨_, _, same, go⟩ => (List.cons.inj same).2 ▸ go, fun go => ⟨c, rest, rfl, go⟩⟩
    rw [manyEnds, goes, ← further]
    by_cases zero : least = 0
    · rw [if_neg (by simpa using zero), and_iff_right zero]
      cases isLazy with
      | true => exact List.mem_cons
      | false =>
        rw [if_neg Bool.false_ne_true, List.mem_append, List.mem_singleton]
        exact or_comm
    · rw [if_pos zero]
      exact (or_iff_right fun here => zero here.1).symm

/-- What each match of the part keeps, its repetitions keep. -/
theorem of_mem_manyEnds {part : Node} {isLazy : Bool} (Kept : Place → Prop) (each : ∀ {p q}, Kept p → q ∈ ends part p → Kept q)
    {clock : List Char} {least : Nat} {most : Option Nat} {p q : Place} (start : Kept p)
    (mem : q ∈ manyEnds (ends part) isLazy clock least most p) : Kept q := by
  induction clock generalizing p least most with
  | nil =>
    obtain ⟨-, rfl⟩ | ⟨_, _, no, -⟩ := mem_manyEnds_iff.mp mem
    · exact start
    · cases no
  | cons _ clock ih =>
    obtain ⟨-, rfl⟩ | ⟨_, _, same, -, r, first, -, others⟩ := mem_manyEnds_iff.mp mem
    · exact start
    · cases same
      exact ih (each start first) others

/-! ## Texts of an expression -/

variable {node part : Node} {p q : Place}

/-- The texts an expression stands for; a condition on the surroundings stands for the empty one. -/
def Denotes : Node → List Char → Prop
  | .empty, t => t = []
  | .set s, t => ∃ c, s.contains c = true ∧ t = [c]
  | .seq first second, t => ∃ u v, t = u ++ v ∧ Denotes first u ∧ Denotes second v
  | .alt first second, t => Denotes first t ∨ Denotes second t
  | .run s least most _, t => IsRun s least most t
  | .many part least most _, t => ∃ pieces : List (List Char), t = pieces.flatten ∧ Admits least most pieces.length ∧
      ∀ u ∈ pieces, u ≠ [] ∧ Denotes part u
  | .group _ part, t => Denotes part t
  | .anchor _, t => t = []
  | .notAhead _, t => t = []
  | .notBehind _, t => t = []

theorem denotes_many_of_mem {isLazy : Bool} {clock : List Char} {least : Nat} {most : Option Nat}
    (each : ∀ {p q}, q ∈ ends part p → ∃ taken, p.Leads taken q ∧ Denotes part taken)
    (mem : q ∈ manyEnds (ends part) isLazy clock least most p) :
    ∃ taken, p.Leads taken q ∧ Denotes (.many part least most isLazy) taken := by
  induction clock generalizing p least most with
  | nil =>
    obtain ⟨zero, rfl⟩ | ⟨_, _, no, -⟩ := mem_manyEnds_iff.mp mem
    · exact ⟨[], .here _, [], rfl, admits_zero.mpr zero, by simp⟩
    · cases no
  | cons _ clock ih =>
    obtain ⟨zero, rfl⟩ | ⟨_, _, same, further, r, first, forward, others⟩ := mem_manyEnds_iff.mp mem
    · exact ⟨[], .here _, [], rfl, admits_zero.mpr zero, by simp⟩
    · cases same
      obtain ⟨u, leads, is⟩ := each first
      obtain ⟨_, leads', pieces, rfl, count, are⟩ := ih others
      have some : u ≠ [] := by
        rintro rfl
        exact absurd leads.offset (Nat.ne_of_gt forward)
      exact ⟨u ++ pieces.flatten, leads.trans leads', u :: pieces, rfl, admits_succ.mpr ⟨further, count⟩,
        List.forall_mem_cons.mpr ⟨⟨some, is⟩, are⟩⟩

/-- What a match takes is one of the texts of the expression. -/
theorem denotes_of_mem (mem : q ∈ ends node p) : ∃ taken, p.Leads taken q ∧ Denotes node taken := by
  induction node generalizing p q with
  | set s =>
    obtain ⟨c, rest, eq, inside, rfl⟩ := mem_ends_set.mp mem
    exact ⟨[c], .past eq, c, inside, rfl⟩
  | seq first second ih ih' =>
    obtain ⟨r, early, late⟩ := List.mem_flatMap.mp mem
    obtain ⟨u, leads, is⟩ := ih early
    obtain ⟨v, leads', is'⟩ := ih' late
    exact ⟨u ++ v, leads.trans leads', u, v, rfl, is, is'⟩
  | alt first second ih ih' =>
    rcases List.mem_append.mp mem with one | other
    · exact (ih one).imp fun _ found => ⟨found.1, .inl found.2⟩
    · exact (ih' other).imp fun _ found => ⟨found.1, .inr found.2⟩
  | run s least most isLazy =>
    obtain ⟨taken, leads, -, run⟩ := mem_ends_run.mp mem
    exact ⟨taken, leads, run⟩
  | many part least most isLazy ih => exact denotes_many_of_mem ih mem
  | group n part ih =>
    obtain ⟨r, inner, rfl⟩ := List.mem_map.mp mem
    obtain ⟨taken, leads, is⟩ := ih inner
    exact ⟨taken, ⟨leads.rest, leads.offset, leads.before⟩, is⟩
  | empty =>
    obtain rfl := List.mem_singleton.mp mem
    exact ⟨[], .here _, rfl⟩
  | anchor a =>
    obtain rfl := List.mem_singleton.mp (List.mem_ite_nil_right.mp mem).2
    exact ⟨[], .here _, rfl⟩
  | notAhead part =>
    obtain rfl := List.mem_singleton.mp (List.mem_ite_nil_right.mp mem).2
    exact ⟨[], .here _, rfl⟩
  | notBehind s =>
    obtain rfl := List.mem_singleton.mp (List.mem_ite_nil_left.mp mem).2
    exact ⟨[], .here _, rfl⟩

/-- No set of the expression holds the character. -/
def avoids (c : Char) : Node → Bool
  | .empty => true
  | .set s => !s.contains c
  | .seq first second => avoids c first && avoids c second
  | .alt first second => avoids c first && avoids c second
  | .run s _ _ _ => !s.contains c
  | .many part _ _ _ => avoids c part
  | .group _ part => avoids c part
  | .anchor _ => true
  | .notAhead _ => true
  | .notBehind _ => true

theorem Denotes.notMem {c : Char} (away : avoids c node = true) {t : List Char} (is : Denotes node t) : c ∉ t := by
  induction node generalizing t with
  | set s =>
    obtain ⟨d, inside, rfl⟩ := is
    rintro mem
    obtain rfl := List.mem_singleton.mp mem
    rw [avoids, inside] at away
    cases away
  | seq first second ih ih' =>
    obtain ⟨u, v, rfl, is, is'⟩ := is
    obtain ⟨away, away'⟩ := (Bool.and_eq_true _ _).mp away
    exact fun mem => (List.mem_append.mp mem).elim (ih away is) (ih' away' is')
  | alt first second ih ih' =>
    obtain ⟨away, away'⟩ := (Bool.and_eq_true _ _).mp away
    exact is.elim (ih away) (ih' away')
  | run s least most isLazy =>
    intro mem
    rw [avoids, is.among c mem] at away
    cases away
  | many part least most isLazy ih =>
    obtain ⟨pieces, rfl, -, are⟩ := is
    intro mem
    obtain ⟨u, piece, mem⟩ := List.mem_flatten.mp mem
    exact ih away (are u piece).2 mem
  | group n part ih => exact ih away is
  | empty | anchor a | notAhead part | notBehind s => exact is ▸ List.not_mem_nil

/-- Every match takes a character other than this one. -/
def takesBeside (c : Char) : Node → Bool
  | .empty => false
  | .set s => !s.contains c
  | .seq first second => takesBeside c first || takesBeside c second
  | .alt first second => takesBeside c first && takesBeside c second
  | .run s least _ _ => least ≠ 0 && !s.contains c
  | .many part least _ _ => least ≠ 0 && takesBeside c part
  | .group _ part => takesBeside c part
  | .anchor _ => false
  | .notAhead _ => false
  | .notBehind _ => false

/-- Where every match takes another character than this one, every text of the expression has one. -/
theorem Denotes.exists_ne {c : Char} (beside : takesBeside c node = true) {t : List Char} (is : Denotes node t) :
    ∃ d ∈ t, d ≠ c := by
  induction node generalizing t with
  | set s =>
    obtain ⟨d, inside, rfl⟩ := is
    refine ⟨d, List.mem_singleton_self d, ?_⟩
    rintro rfl
    rw [takesBeside, inside] at beside
    cases beside
  | seq first second ih ih' =>
    obtain ⟨u, v, rfl, is, is'⟩ := is
    rcases (Bool.or_eq_true _ _).mp beside with beside | beside
    · exact (ih beside is).imp fun _ found => ⟨List.mem_append_left _ found.1, found.2⟩
    · exact (ih' beside is').imp fun _ found => ⟨List.mem_append_right _ found.1, found.2⟩
  | alt first second ih ih' =>
    obtain ⟨beside, beside'⟩ := (Bool.and_eq_true _ _).mp beside
    exact is.elim (ih beside) (ih' beside')
  | run s least most isLazy =>
    obtain ⟨some, away⟩ := (Bool.and_eq_true _ _).mp beside
    have pos : 0 < t.length := Nat.lt_of_lt_of_le (Nat.pos_of_ne_zero (of_decide_eq_true some)) is.count.enough
    obtain ⟨d, mem⟩ := List.exists_mem_of_length_pos pos
    refine ⟨d, mem, ?_⟩
    rintro rfl
    rw [is.among d mem] at away
    cases away
  | many part least most isLazy ih =>
    obtain ⟨some, beside⟩ := (Bool.and_eq_true _ _).mp beside
    obtain ⟨pieces, rfl, count, are⟩ := is
    have pos : 0 < pieces.length := Nat.lt_of_lt_of_le (Nat.pos_of_ne_zero (of_decide_eq_true some)) count.enough
    obtain ⟨u, piece⟩ := List.exists_mem_of_length_pos pos
    obtain ⟨d, mem, ne⟩ := ih beside (are u piece).2
    exact ⟨d, List.mem_flatten.mpr ⟨u, piece, mem⟩, ne⟩
  | group n part ih => exact ih beside is
  | empty | anchor a | notAhead part | notBehind s => cases beside

/-! ## What is taken -/

/-- The expression has no groups. -/
def groupless : Node → Bool
  | .seq first second => groupless first && groupless second
  | .alt first second => groupless first && groupless second
  | .many part _ _ _ => groupless part
  | .group _ _ => false
  | _ => true

/-- An expression without groups leaves those that were there. -/
theorem groups_of_mem_ends (none : groupless node = true) (mem : q ∈ ends node p) : q.groups = p.groups := by
  induction node generalizing p q with
  | set s =>
    obtain ⟨c, rest, -, -, rfl⟩ := mem_ends_set.mp mem
    rfl
  | seq first second ih ih' =>
    obtain ⟨none, none'⟩ := (Bool.and_eq_true _ _).mp none
    obtain ⟨r, early, late⟩ := List.mem_flatMap.mp mem
    rw [ih' none' late, ih none early]
  | alt first second ih ih' =>
    obtain ⟨none, none'⟩ := (Bool.and_eq_true _ _).mp none
    exact (List.mem_append.mp mem).elim (ih none) (ih' none')
  | run s least most isLazy =>
    obtain ⟨-, -, kept, -⟩ := mem_ends_run.mp mem
    exact kept
  | many part least most isLazy ih =>
    exact of_mem_manyEnds (fun r => r.groups = p.groups) (fun kept mem => (ih none mem).trans kept) rfl mem
  | group n part => cases none
  | empty => rw [List.mem_singleton.mp mem]
  | anchor a => rw [List.mem_singleton.mp (List.mem_ite_nil_right.mp mem).2]
  | notAhead part => rw [List.mem_singleton.mp (List.mem_ite_nil_right.mp mem).2]
  | notBehind s => rw [List.mem_singleton.mp (List.mem_ite_nil_left.mp mem).2]

/-- What a match takes that leads from one place to another. -/
structure Takes (node : Node) (p : Place) (taken : List Char) (q : Place) : Prop where
  leads : p.Leads taken q
  avoids : ∀ c, avoids c node = true → c ∉ taken
  beside : ∀ c, takesBeside c node = true → ∃ d ∈ taken, d ≠ c
  groups : groupless node = true → q.groups = p.groups

/-- A place where a match can end lies behind the one where it starts. -/
theorem exists_taken (mem : q ∈ ends node p) : ∃ taken, Takes node p taken q := by
  obtain ⟨taken, leads, is⟩ := denotes_of_mem mem
  exact ⟨taken, leads, fun c away => is.notMem away, fun c beside => is.exists_ne beside,
    fun none => groups_of_mem_ends none mem⟩

theorem offset_le_of_mem_ends (mem : q ∈ ends node p) : p.offset ≤ q.offset := by
  obtain ⟨taken, takes⟩ := exists_taken mem
  rw [takes.leads.offset]
  exact Nat.le_add_right _ _

end CodeHygiene.Regex
