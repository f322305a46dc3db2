import CodeHygiene.Proofs.Delimiter
import CodeHygiene.Proofs.Position
import CodeHygiene.Proofs.Returns
import CodeHygiene.Proofs.Thresholds

/-!
What is measured for its comments is measured once.

The two searches for bodies go on behind the last body that was measured: at an offset in a brace language, after
a number of lines in an indented one. One invariant serves both (`Laid`): functions behind a place, each with its
body before the next function.

Proved:
(1) Functions that are laid out one behind the other have bodies that do not overlap, and none is declared in the
    body of another (`Laid.apart`, `Laid.outside`).
(2) Both searches lay functions out so (`laid_braces`, `laid_indented`), whatever braces are missing and whatever
    declarations are passed over.
(3) A line of a body that is not blank is counted as comment or as code, and not as both (`classifyFrom_total`).
(4) A body that is reported has a line of comment and a line of code (`two_lines_of_flagged`), so the function
    behind it stands on a later line (`line_lt_of_flagged`).

Together: `text_counts_once`.
-/

namespace CodeHygiene

/-! ## Lines and offsets -/

namespace Text

theorem countNonBlank_le (text : List Char) : countNonBlank text ≤ text.count '\n' + 1 := by
  rw [← length_lines]
  exact List.countP_le_length

theorem lineAt_mono {a b : Nat} (le : a ≤ b) (text : List Char) : lineAt text a ≤ lineAt text b := by
  have fewer := (List.take_sublist_take_left le (l := text)).count_le '\n'
  unfold lineAt
  omega

/-- Line feeds between two offsets set their lines apart. -/
theorem lineAt_add_count {a b : Nat} (le : a ≤ b) (text : List Char) :
    lineAt text a + (slice text a b).count '\n' = lineAt text b := by
  obtain ⟨n, rfl⟩ := Nat.exists_eq_add_of_le le
  unfold lineAt slice
  rw [Nat.add_sub_cancel_left, List.take_add, List.count_append]
  omega

end Text

namespace Measure.Commentary

/-! ## (1) Functions one behind the other -/

/-- A function that is measured: where it is declared (an offset in a brace language, the number of a line in an
indented one), and its body. -/
structure Measured where
  declared : Nat
  body : Commented

/-- Functions from a place on, each with its body before the next function. -/
def Laid : Nat → List Measured → Prop
  | _, [] => True
  | place, f :: more =>
    place ≤ f.declared ∧ f.declared < f.body.start ∧ f.body.start ≤ f.body.stop ∧ Laid f.body.stop more

variable {place : Nat} {functions : List Measured} {f g : Measured}

theorem Laid.of_mem (laid : Laid place functions) (mem : f ∈ functions) :
    place ≤ f.declared ∧ f.declared < f.body.start ∧ f.body.start ≤ f.body.stop := by
  induction functions generalizing place with
  | nil => cases mem
  | cons first more ih =>
    obtain ⟨low, before, ordered, later⟩ := laid
    rcases List.mem_cons.mp mem with rfl | mem
    · exact ⟨low, before, ordered⟩
    · have := ih later mem
      omega

theorem Laid.apart (laid : Laid place functions) : functions.Pairwise fun f g => f.body.stop ≤ g.declared := by
  induction functions generalizing place with
  | nil => exact List.Pairwise.nil
  | cons first more ih =>
    obtain ⟨-, -, -, later⟩ := laid
    refine List.pairwise_cons.mpr ⟨fun g mem => ?_, ih later⟩
    exact (later.of_mem mem).1

theorem Laid.mono {earlier : Nat} (laid : Laid place functions) (le : earlier ≤ place) : Laid earlier functions := by
  cases functions with
  | nil => trivial
  | cons first more =>
    obtain ⟨low, rest⟩ := laid
    exact ⟨le.trans low, rest⟩

/-- No function is declared in the body of one. -/
theorem Laid.outside (laid : Laid place functions) (mem : f ∈ functions) (mem' : g ∈ functions) :
    ¬(f.body.start ≤ g.declared ∧ g.declared < f.body.stop) := by
  induction functions generalizing place with
  | nil => cases mem
  | cons first more ih =>
    obtain ⟨-, before, ordered, later⟩ := laid
    rcases List.mem_cons.mp mem with rfl | behind
    · rcases List.mem_cons.mp mem' with rfl | behind'
      · omega
      · have := later.of_mem behind'
        omega
    · rcases List.mem_cons.mp mem' with rfl | behind'
      · have := later.of_mem behind
        omega
      · exact ih later behind behind'

/-! ## (2) Where functions stand -/

/-- A function is declared at a place of the text and has the body: what stands between its braces, or the lines
under its signature. -/
def StandsAt (l : Language) (content : List Char) (declared : Nat) (b : Commented) : Prop :=
  match pattern? l with
  | some r =>
    ∃ h ∈ r.all content, h.start = declared ∧ isDeclaration l r content h = true ∧ b.line = Text.lineAt content declared ∧
      ∃ opening, braceAfter? content h.stop = some opening ∧ b.start = opening + 1 ∧
        closing? content opening = some b.stop
  | none =>
    ∃ line rest indent signature, (Text.lines content).drop (declared - 1) = line :: rest ∧ b.line = declared ∧
      header? line rest = some (indent, signature) ∧ b.start = declared + signature + 1 ∧
      b.stop = b.start + ((rest.drop signature).takeWhile (isInside indent)).length

/-- The lines of a body. -/
def bodyLines (l : Language) (content : List Char) (b : Commented) : List Line :=
  match pattern? l with
  | some _ => Text.lines (Text.slice content b.start b.stop)
  | none => ((Text.lines content).drop (b.start - 1)).take (b.stop - b.start)

/-- How many lines of a body are not blank. -/
def countLines (l : Language) (content : List Char) (b : Commented) : Nat :=
  (bodyLines l content b).countP fun line => !Text.isBlankLine line

/-- A line that is not blank is one of comment or one of code. -/
theorem classifyFrom_total (marks : CommentMarks) (inBlock : Bool) (body : List Line) :
    (classifyFrom marks inBlock body).comment + (classifyFrom marks inBlock body).code =
      body.countP fun line => !Text.isBlankLine line := by
  induction body generalizing inBlock with
  | nil => rfl
  | cons raw rest ih =>
    rw [classifyFrom, List.countP_cons, Text.trim_isEmpty]
    by_cases blank : Text.isBlankLine raw = true
    · simpa [blank] using ih inBlock
    · rw [Bool.not_eq_true] at blank
      simp only [blank, Bool.false_eq_true, reduceIte, Bool.not_false]
      -- Whatever mode the line leaves, it adds one to one of the two counts.
      have counted : ∀ inBlock, (classifyFrom marks inBlock rest).comment + 1 +
          (classifyFrom marks inBlock rest).code = (rest.countP fun line => !Text.isBlankLine line) + 1 := by
        intro inBlock
        rw [← ih inBlock]
        omega
      cases inBlock with
      | true => exact counted _
      | false =>
        cases Text.after? marks.blockStart (Text.trim raw) with
        | some opened => exact counted _
        | none =>
          by_cases marked : Text.startsWith marks.line (Text.trim raw) = true
          · simpa [marked] using counted false
          · simpa [marked, ← Nat.add_assoc] using ih false

theorem le_of_braceAfter? {content : List Char} {offset opening : Nat} (found : braceAfter? content offset = some opening) :
    offset ≤ opening := by
  unfold braceAfter? at found
  dsimp only at found
  split at found
  · cases found
    omega
  · cases found

theorem lt_of_closing? {content : List Char} {opening closing : Nat} (found : closing? content opening = some closing) :
    opening < closing := by
  unfold closing? Delimiter.closing? at found
  split at found
  · cases found
  · split at found
    · cases found
    · exact Delimiter.le_of_scan found

/-- The search behind an offset. -/
theorem laid_braces (l : Language) (r : Regex) (known : pattern? l = some r) (content : List Char) (resume : Nat)
    {hits : List Regex.Hit} (among : ∀ h ∈ hits, h ∈ r.all content) :
    ∃ functions : List Measured, functions.map Measured.body = braceBodiesFrom l r content resume hits ∧
      Laid resume functions ∧ ∀ f ∈ functions, StandsAt l content f.declared f.body ∧
        f.body.counts.comment + f.body.counts.code = countLines l content f.body := by
  induction hits generalizing resume with
  | nil => exact ⟨[], rfl, trivial, by simp⟩
  | cons h rest ih =>
    obtain ⟨found, others⟩ := List.forall_mem_cons.mp among
    rw [braceBodiesFrom]
    by_cases passed : (decide (h.start < resume) || !isDeclaration l r content h) = true
    · rw [if_pos passed]
      exact ih resume others
    rw [if_neg passed]
    rw [Bool.or_eq_true, not_or, decide_eq_true_eq, Bool.not_eq_true', Bool.not_eq_false] at passed
    cases braced : braceAfter? content h.stop with
    | none => exact ih resume others
    | some opening =>
      dsimp only
      cases closed : closing? content opening with
      | none => exact ih resume others
      | some closing =>
        obtain ⟨functions, bodies, laid, stand⟩ := ih closing others
        obtain ⟨p, q, inside, -, mem, rfl⟩ := Regex.matches_of_mem_all found
        have forward := Regex.offset_le_of_mem_ends mem
        have behind := le_of_braceAfter? braced
        have later := lt_of_closing? closed
        refine ⟨⟨p.offset, _⟩ :: functions, by rw [List.map_cons, bodies], ?_, ?_⟩
        · exact ⟨Nat.le_of_not_lt passed.1, by dsimp only at *; omega, later, laid⟩
        · refine List.forall_mem_cons.mpr ⟨⟨?_, ?_⟩, stand⟩
          · unfold StandsAt
            rw [known]
            exact ⟨_, found, rfl, passed.2, rfl, opening, braced, rfl, closed⟩
          · unfold countLines bodyLines
            rw [known]
            exact classifyFrom_total _ _ _

/-- The search behind some lines; the first `covered` of those that are left belong to a body already measured. -/
theorem laid_indented (l : Language) (known : pattern? l = none) (content : List Char) (number covered : Nat)
    {lines : List Line} (there : (Text.lines content).drop number = lines) :
    ∃ functions : List Measured, functions.map Measured.body = indentedBodiesFrom (number + 1) covered lines ∧
      Laid (number + 1 + covered) functions ∧ ∀ f ∈ functions, StandsAt l content f.declared f.body ∧
        f.body.counts.comment + f.body.counts.code = countLines l content f.body := by
  induction lines generalizing number covered with
  | nil => exact ⟨[], by cases covered <;> rfl, trivial, by simp⟩
  | cons line rest ih =>
    have behind : (Text.lines content).drop (number + 1) = rest := by
      rw [← List.drop_drop, there]
      rfl
    unfold indentedBodiesFrom
    cases covered with
    | succ more =>
      obtain ⟨functions, bodies, laid, stand⟩ := ih (number + 1) more behind
      exact ⟨functions, bodies, by rwa [Nat.add_right_comm, Nat.add_assoc] at laid, stand⟩
    | zero =>
      cases header : header? line rest with
      | none =>
        obtain ⟨functions, bodies, laid, stand⟩ := ih (number + 1) 0 behind
        exact ⟨functions, bodies, laid.mono (by omega), stand⟩
      | some found =>
        obtain ⟨indent, signature⟩ := found
        obtain ⟨functions, bodies, laid, stand⟩ := ih (number + 1)
          (signature + ((rest.drop signature).takeWhile (isInside indent)).length) behind
        refine ⟨⟨number + 1, _⟩ :: functions, by rw [List.map_cons, bodies], ?_, ?_⟩
        · refine ⟨Nat.le_refl _, by dsimp only; omega, by dsimp only; omega, laid.mono ?_⟩
          dsimp only
          omega
        · refine List.forall_mem_cons.mpr ⟨⟨?_, ?_⟩, stand⟩
          · unfold StandsAt
            rw [known]
            exact ⟨line, rest, indent, signature, there, rfl, header, rfl, rfl⟩
          · unfold countLines bodyLines
            rw [known]
            dsimp only
            rw [classifyFrom_total, show number + 1 + signature + 1 - 1 = number + 1 + signature by omega, ← List.drop_drop, behind,
              Nat.add_sub_cancel_left, ← List.prefix_iff_eq_take.mp (List.takeWhile_prefix _)]

/-! ## (4) Bodies that are reported -/

variable {least : Int} {limit : Quantity}

theorem two_lines_of_flagged (pos : 1 ≤ least) (nonneg : limit.IsNonnegative) {b : Commented}
    (flagged : gauge.isFlagged least limit b = true) : 1 ≤ b.counts.comment ∧ 1 ≤ b.counts.code := by
  rw [Gauge.isFlagged, Bool.and_eq_true, decide_eq_true_eq] at flagged
  obtain ⟨reaching, exceeded⟩ := flagged
  have exceeded : limit.toFloat < ratio b.counts.comment b.counts.code := of_decide_eq_true exceeded
  have code : 1 ≤ b.counts.code := by
    have reaching : least ≤ (b.counts.code : Int) := reaching
    omega
  refine ⟨?_, code⟩
  by_contra none
  have zero : b.counts.comment = 0 := by omega
  rw [zero] at exceeded
  exact Real.not_lt_zero_div (Quantity.zero_toFloat_le nonneg) _ exceeded

variable {l : Language} {content : List Char}

/-- A body with two lines ends on a later line than it begins. -/
theorem line_lt_of_flagged (stands : StandsAt l content f.declared f.body) (stands' : StandsAt l content g.declared g.body)
    (before : f.declared < f.body.start) (ordered : f.body.start ≤ f.body.stop) (apart : f.body.stop ≤ g.declared)
    (several : 2 ≤ countLines l content f.body) : f.body.line < g.body.line := by
  unfold StandsAt at stands stands'
  unfold countLines bodyLines at several
  cases known : pattern? l with
  | none =>
    rw [known] at stands stands'
    obtain ⟨line, rest, indent, signature, -, own, -⟩ := stands
    obtain ⟨line', rest', indent', signature', -, own', -⟩ := stands'
    omega
  | some r =>
    rw [known] at stands stands' several
    obtain ⟨h, -, -, -, own, -⟩ := stands
    obtain ⟨h', -, -, -, own', -⟩ := stands'
    have feeds := several.trans (Text.countNonBlank_le (Text.slice content f.body.start f.body.stop))
    have inside := Text.lineAt_add_count ordered content
    have first := Text.lineAt_mono before.le content
    have last := Text.lineAt_mono apart content
    omega

/-! ## Measured once -/

/-- Functions of a text whose bodies are measured, each text at most once. -/
structure MeasuredOnce (l : Language) (content : List Char) (functions : List Measured) : Prop where
  /-- These are the bodies that are measured, and each is that of a function in the text. -/
  bodies : functions.map Measured.body = bodies l content
  stands : ∀ f ∈ functions, StandsAt l content f.declared f.body
  /-- A body comes behind its declaration, and the next declaration behind the body. -/
  ordered : ∀ f ∈ functions, f.declared < f.body.start ∧ f.body.start ≤ f.body.stop
  apart : functions.Pairwise fun f g => f.body.stop ≤ g.declared
  disjoint : functions.Pairwise fun f g => f.body.stop ≤ g.body.start
  /-- A function in a body that is measured is not measured itself. -/
  outside : ∀ f ∈ functions, ∀ g ∈ functions, ¬(f.body.start ≤ g.declared ∧ g.declared < f.body.stop)
  /-- Every line that is not blank is counted once. -/
  total : ∀ f ∈ functions, f.body.counts.comment + f.body.counts.code = countLines l content f.body

theorem exists_measuredOnce (l : Language) (content : List Char) : ∃ functions, MeasuredOnce l content functions := by
  have found : ∃ (place : Nat) (functions : List Measured), functions.map Measured.body = bodies l content ∧
      Laid place functions ∧ ∀ f ∈ functions, StandsAt l content f.declared f.body ∧
        f.body.counts.comment + f.body.counts.code = countLines l content f.body := by
    unfold bodies
    cases known : pattern? l with
    | some r => exact ⟨0, laid_braces l r known content 0 fun h mem => mem⟩
    | none => exact ⟨1, laid_indented l known content 0 0 rfl⟩
  obtain ⟨place, functions, same, laid, each⟩ := found
  refine ⟨functions, same, fun f mem => (each f mem).1, fun f mem => (laid.of_mem mem).2, laid.apart, ?_,
    fun f mem g mem' => laid.outside mem mem', fun f mem => (each f mem).2⟩
  refine laid.apart.imp_of_mem fun {f g} _ mem' behind => ?_
  exact behind.trans (laid.of_mem mem').2.1.le

/-- Whatever the text, its language and the thresholds, functions are measured once, a violation counts each line of
its body that is not blank, and the lines of the violations go up. -/
theorem text_counts_once (content : List Char) (tag : String) (pos : 1 ≤ least) (nonneg : limit.IsNonnegative) :
    ∃ found, violations content least limit tag = .ok found ∧
      (found.map fun v => v.line.getD 0).Pairwise (· < ·) ∧
      ∀ l, Language.ofTag? tag = some l → ∃ functions, MeasuredOnce l content functions ∧
        ∀ v ∈ found, ∃ f ∈ functions, v = toViolation limit f.body ∧
          ∃ comment code, counts? "comment_lines" v = some (comment, code) ∧
            comment + code = countLines l content f.body := by
  rw [violations_eq, inLanguage]
  cases Language.ofTag? tag with
  | none =>
    refine ⟨[], rfl, .nil, ?_⟩
    intro l known
    cases known
  | some l =>
    obtain ⟨functions, once⟩ := exists_measuredOnce l content
    have flagged : ∀ f ∈ functions, gauge.isFlagged least limit f.body = true → 2 ≤ countLines l content f.body := by
      intro f mem flagged
      have := two_lines_of_flagged pos nonneg flagged
      have := once.total f mem
      omega
    have chosen : gauge.chosen least limit (bodies l content) =
        .ok ((functions.filter (gauge.isFlagged least limit ∘ Measured.body)).map (gauge.report limit ∘ Measured.body)) := by
      rw [gauge.chosen_eq pos, ← once.bodies, List.filter_map, List.map_map]
    refine ⟨_, chosen, ?_, ?_⟩
    · rw [List.map_map, List.pairwise_map, List.pairwise_filter]
      refine once.apart.imp_of_mem fun {f g} mem mem' apart own _ => ?_
      have := line_lt_of_flagged (once.stands f mem) (once.stands g mem') (once.ordered f mem).1 (once.ordered f mem).2 apart
        (flagged f mem own)
      exact Int.ofNat_lt.mpr this
    · rintro _ ⟨⟩
      refine ⟨functions, once, fun v told => ?_⟩
      obtain ⟨f, inside, rfl⟩ := List.mem_map.mp told
      have mem := (List.mem_filter.mp inside).1
      exact ⟨f, mem, rfl, f.body.counts.comment, f.body.counts.code, gauge.counts_report limit f.body, once.total f mem⟩

/-- A function on the line where another ends, with a function in its body. -/
def neighbours : List Char :=
  "function f() \x7b\n// a\nx\n\x7d function g() \x7b\n// b\n// c\nfunction h() \x7b // d\n\x7d \x7d".toList

theorem bodies_neighbours : bodies .javascript neighbours = [⟨1, 14, 22, ⟨1, 1⟩⟩, ⟨4, 38, 71, ⟨2, 2⟩⟩] := by
  decide +kernel

/-- The function in the body is not reported, and the other two are on lines of their own. -/
theorem text_counts_once_neighbours :
    1 ≤ (1 : Int) ∧ (Quantity.whole 0).IsNonnegative ∧
      ∃ found, violations neighbours 1 (.whole 0) "javascript" = .ok found ∧
        found.map (·.line) = [some 1, some 4] ∧
        (found.map fun v => v.line.getD 0).Pairwise (· < ·) ∧
        ∃ functions, MeasuredOnce .javascript neighbours functions ∧ functions.length = 2 := by
  have pos : 1 ≤ (1 : Int) := by decide
  have nonneg : (Quantity.whole 0).IsNonnegative := Int.le_refl 0
  have javascript : Language.ofTag? "javascript" = some .javascript := by decide
  obtain ⟨found, run, rising, each⟩ := text_counts_once neighbours "javascript" pos nonneg
  obtain ⟨functions, once, -⟩ := each .javascript javascript
  refine ⟨pos, nonneg, found, run, ?_, rising, functions, once, ?_⟩
  · simp only [violations_eq, inLanguage, javascript, bodies_neighbours] at run
    cases run
    rfl
  · have counted := congrArg List.length once.bodies
    rwa [List.length_map, bodies_neighbours] at counted

end Measure.Commentary

end CodeHygiene
