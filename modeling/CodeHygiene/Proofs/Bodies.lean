import CodeHygiene.Proofs.Delimiter
import CodeHygiene.Proofs.Measures

/-!
What is measured in a text with returns where functions have braces.

Returns can change where a body ends: they count in the window of a search and in the gap before a body, and a
backslash at the end of a line takes the return in place of the line feed. That braces are found alike is therefore a
condition (`BracesAlike`).

Proved:
(1) The scan passes over returns and stops at the same delimiter if no backslash stands before one
    (`Delimiter.scan_thin`); so braces are found alike in a text that fits into a window (`bracesAlike_of_fits`).
(2) Where they are, functions have the same documentation (`Documentation.functions_thin`) and the same comments
    (`Commentary.exists_bodies_thin`).
(3) Where declarations are found alike too, they are the same stubs (`Stub.braceStubs_thin`). Those of JavaScript and
    Rust always are (`Stub.declarationsAlike`); in Java a return before a brace may stand for what is thrown.
-/

namespace CodeHygiene

open Text (thin thinOffset ReturnsEndLines Ended)

/-! ## Closing delimiters -/

namespace Delimiter

variable {o c : Char}

/-- A mode that takes the next character, whatever it is, does not stand before a return, and no return is a
quote. -/
def Mode.Ready (next : Option Char) : Mode → Prop
  | .blockOpening | .blockClosing | .holeOpening => next ≠ some '\r'
  | .quoted q | .holeQuoted _ q => q ≠ '\r'
  | .escape q | .holeEscape _ q => q ≠ '\r' ∧ next ≠ some '\r'
  | .code | .lineComment | .block | .hole _ => True

theorem isQuote_return : isQuote '\r' = false := by decide

theorem Mode.Ready.step_return {m : Mode} (h : m.Ready (some '\r')) (next : Option Char) : m.step '\r' next = m := by
  cases m <;> simp_all [Mode.Ready, Mode.step, quotedStep, holeStep, isQuote_return, eq_comm]

theorem Mode.Ready.past_return {m : Mode} (h : m.Ready (some '\r')) (next : Option Char) : m.Ready next := by
  cases m <;> simp_all [Mode.Ready]

theorem Mode.Ready.step {m : Mode} {x : Char} {next : Option Char} (h : m.Ready (some x)) (ne : x ≠ '\r')
    (escape : x = '\\' → next ≠ some '\r') : (m.step x next).Ready next := by
  cases m with
  | code => trivial
  | lineComment =>
    rw [Mode.step]
    split <;> trivial
  | blockOpening => trivial
  | block =>
    rw [Mode.step]
    split
    next both =>
      obtain ⟨-, slash⟩ := by simpa using both
      rw [Mode.Ready, slash]
      decide
    next => trivial
  | blockClosing => trivial
  | quoted q =>
    rw [Mode.step, quotedStep]
    split
    next back => exact ⟨h, escape back⟩
    split
    next => trivial
    split
    next both =>
      have brace : next = some '\x7b' := by simp_all
      rw [Mode.Ready, brace]
      decide
    split
    next => trivial
    next => exact h
  | escape q => exact h.1
  | holeOpening => trivial
  | hole braces =>
    rw [Mode.step, holeStep]
    split
    next => exact ne
    split
    next => trivial
    split
    next =>
      split
      next => exact (by decide : templateQuote ≠ '\r')
      next => trivial
    next => trivial
  | holeQuoted braces q =>
    rw [Mode.step]
    split
    next back => exact ⟨h, escape back⟩
    split
    next => trivial
    next => exact h
  | holeEscape braces q => exact h.1

/-- Of the next character only a few matter, and they are seen alike. -/
theorem Mode.step_congr {m : Mode} {x : Char} {next next' : Option Char} (slash : next = some '/' ↔ next' = some '/')
    (brace : next = some '\x7b' ↔ next' = some '\x7b') : m.step x next = m.step x next' := by
  cases m with
  | block => simp only [Mode.step, slash]
  | quoted q => simp only [Mode.step, quotedStep, brace]
  | _ => rfl

/-- The scan passes over a return. -/
theorem scan_return (plain : o ≠ '\r' ∧ c ≠ '\r') {m : Mode} (ready : m.Ready (some '\r')) (depth offset : Nat)
    (rest : List Char) : scan o c m depth offset ('\r' :: rest) = scan o c m depth (offset + 1) rest := by
  by_cases code : m = .code
  · subst code
    exact scan_code_plain plain.1.symm plain.2.symm isQuote_return (fun no => absurd no (by decide)) depth offset
  · rw [scan_cons code, ready.step_return]

/-- Without returns the scan answers with the same delimiter. -/
theorem scan_thin (plain : o ≠ '\r' ∧ c ≠ '\r') {text : List Char} (lines : ReturnsEndLines text)
    (escapes : ¬['\\', '\r'] <:+: text) {m : Mode} (ready : ∀ x rest, text = x :: rest → m.Ready (some x))
    (depth offset offset' : Nat) :
    scan o c m depth offset' (thin text) =
      (scan o c m depth offset text).map fun i => offset' + thinOffset text (i - offset) := by
  induction text generalizing m depth offset offset' with
  | nil => simp
  | cons x rest ih =>
    have fewer : ¬['\\', '\r'] <:+: rest := fun inside => escapes (inside.trans (List.suffix_cons x rest).isInfix)
    have escape (back : x = '\\') : rest.head? ≠ some '\r' := by
      intro ret
      obtain ⟨more, rfl⟩ := List.head?_eq_some_iff.mp ret
      subst back
      exact escapes (List.prefix_append ['\\', '\r'] more).isInfix
    have own := ready x rest rfl
    have later {m : Mode} (after : m.Ready rest.head?) (depth : Nat) :
        scan o c m depth (offset' + (thin [x]).length) (thin rest) =
          (scan o c m depth (offset + 1) rest).map fun i => offset' + thinOffset (x :: rest) (i - offset) := by
      have ready (y : Char) (more : List Char) (eq : rest = y :: more) : m.Ready (some y) := by
        rw [eq] at after
        exact after
      rw [ih lines.2 fewer ready depth (offset + 1)]
      refine Option.map_congr fun i found => ?_
      obtain ⟨n, rfl⟩ := Nat.exists_eq_add_of_le (le_of_scan found)
      rw [Nat.add_sub_cancel_left, show offset + 1 + n - offset = n + 1 by omega, Text.thinOffset_cons, Nat.add_assoc]
    by_cases ret : x = '\r'
    · subst ret
      rw [scan_return plain own, Text.thin_cons_return]
      exact later (own.past_return _) depth
    · have one : thin [x] = [x] := Text.thin_cons ret []
      rw [one] at later
      rw [Text.thin_cons ret]
      have slash := Text.head_thin lines.2 (d := '/') (by decide) (by decide)
      by_cases code : m = .code
      · subst code
        have star := Text.head_thin lines.2 (d := '*') (by decide) (by decide)
        simp only [scan_code, slash, star]
        split
        next => exact later (m := .lineComment) trivial depth
        split
        next both => exact later (m := .blockOpening) (by rw [both.2, Mode.Ready]; decide) depth
        split
        next => exact later (m := .quoted x) ret depth
        split
        next => exact later (m := .code) trivial (depth + 1)
        split
        next =>
          cases depth with
          | zero => rw [Option.map_some, Nat.sub_self]; rfl
          | succ depth => exact later (m := .code) trivial depth
        next => exact later (m := .code) trivial depth
      · have brace := Text.head_thin lines.2 (d := '\x7b') (by decide) (by decide)
        rw [scan_cons code, scan_cons code, m.step_congr slash brace]
        exact later (own.step ret escape) depth

theorem exists_drop_of_scan {m : Mode} {depth offset i : Nat} {text : List Char}
    (found : scan o c m depth offset text = some i) : ∃ rest, text.drop (i - offset) = c :: rest := by
  induction text generalizing m depth offset with
  | nil => simp at found
  | cons x text ih =>
    have later {m : Mode} {depth : Nat} (found : scan o c m depth (offset + 1) text = some i) :
        ∃ rest, (x :: text).drop (i - offset) = c :: rest := by
      obtain ⟨n, rfl⟩ := Nat.exists_eq_add_of_le (le_of_scan found)
      rw [show offset + 1 + n - offset = n + 1 by omega]
      have further := ih found
      rwa [Nat.add_sub_cancel_left] at further
    by_cases code : m = .code
    · subst code
      rw [scan_code] at found
      split at found
      next => exact later found
      split at found
      next => exact later found
      split at found
      next => exact later found
      split at found
      next => exact later found
      split at found
      next closer =>
        cases depth with
        | zero =>
          obtain rfl := Option.some.inj found
          exact ⟨text, by rw [Nat.sub_self, closer]; rfl⟩
        | succ depth => exact later found
      next => exact later found
    · rw [scan_cons code] at found
      exact later found

end Delimiter

namespace Measure

variable {text : List Char}

/-! ## Braces -/

/-- An opening brace stands there. -/
def OpensAt (text : List Char) (offset : Nat) : Prop := ∃ rest, text.drop offset = '\x7b' :: rest

/-- The brace that closes one, and the brace behind a signature, are found in a text as they are found without
returns. -/
structure BracesAlike (text : List Char) : Prop where
  closing : ∀ opening, OpensAt text opening →
    closing? (thin text) (thinOffset text opening) = (closing? text opening).map (thinOffset text)
  behind : ∀ offset, Commentary.braceAfter? (thin text) (thinOffset text offset) =
    (Commentary.braceAfter? text offset).map (thinOffset text)

theorem drop_of_closing? {opening closing : Nat} (opens : OpensAt text opening)
    (found : closing? text opening = some closing) : ∃ behind, text.drop closing = '\x7d' :: behind := by
  obtain ⟨rest, here⟩ := opens
  rw [closing?, Delimiter.closing?, here] at found
  have found := ((Delimiter.scan_take (Delimiter.apart_of_closerOf? (o := '\x7b') rfl)).mp found).1
  obtain ⟨behind, eq⟩ := Delimiter.exists_drop_of_scan found
  refine ⟨behind, ?_⟩
  have later : rest = text.drop (opening + 1) := by rw [← List.drop_drop, here]; rfl
  rwa [later, List.drop_drop, Nat.add_sub_cancel' (Delimiter.le_of_scan found)] at eq

theorem between_thin {opening closing : Nat} (opens : OpensAt text opening) :
    between (thin text) (thinOffset text opening) (thinOffset text closing) = thin (between text opening closing) := by
  obtain ⟨rest, here⟩ := opens
  rw [between, between, Text.thin_slice, Text.thinOffset_succ here (by decide)]

theorem returnsEndLines_between (lines : ReturnsEndLines text) (opening closing : Nat) :
    ReturnsEndLines (between text opening closing) := lines.slice _ _

theorem braceAfter?_eq {offset : Nat} (short : Text.indentation (text.drop offset) < Commentary.braceReach) :
    Commentary.braceAfter? text offset =
      if (text.drop (offset + Text.indentation (text.drop offset))).head? = some '\x7b'
        then some (offset + Text.indentation (text.drop offset)) else none := by
  have left : Commentary.braceReach - Text.indentation (text.drop offset) ≠ 0 := by omega
  rw [Commentary.braceAfter?, Text.indentation_take short, List.drop_take, List.head?_take, if_neg left, List.drop_drop]

/-- In a text that fits into a window, with no backslash at the end of a line and no gap as wide as the reach, braces
are found as they are without returns. -/
theorem bracesAlike_of_fits (lines : ReturnsEndLines text) (fits : text.length ≤ Delimiter.defaultWindow.toNat)
    (escapes : ¬['\\', '\r'] <:+: text) (gaps : ∀ offset, Text.indentation (text.drop offset) < Commentary.braceReach) :
    BracesAlike text where
  closing := by
    rintro opening ⟨rest, here⟩
    have behind : (thin text).drop (thinOffset text opening) = '\x7b' :: thin rest := by
      rw [Text.thin_drop, here, Text.thin_cons (by decide)]
    have total := congrArg List.length here
    rw [List.length_drop, List.length_cons] at total
    have shorter := Text.length_thin_le rest
    have later : text.drop (opening + 1) = rest := by rw [← List.drop_drop, here]; rfl
    rw [closing?, closing?, Delimiter.closing?, Delimiter.closing?, here, behind]
    show Delimiter.scan _ _ _ _ _ (List.take _ _) = (Delimiter.scan _ _ _ _ _ (List.take _ _)).map _
    have inner : ¬['\\', '\r'] <:+: rest := fun inside => escapes (inside.trans (later ▸ (List.drop_suffix _ text).isInfix))
    rw [List.take_of_length_le (by omega), List.take_of_length_le (by omega),
      Delimiter.scan_thin (m := .code) (by decide) (later ▸ lines.drop _) inner (fun _ _ _ => trivial) 0 (opening + 1)]
    refine Option.map_congr fun i found => ?_
    obtain ⟨n, rfl⟩ := Nat.exists_eq_add_of_le (Delimiter.le_of_scan found)
    rw [Nat.add_sub_cancel_left, ← Text.thinOffset_succ here (by decide), Text.thinOffset_add text (opening + 1), later]
    rfl
  behind := by
    intro offset
    have short := gaps offset
    have gap := Text.indentation_thin (text.drop offset)
    have shorter : Text.indentation ((thin text).drop (thinOffset text offset)) < Commentary.braceReach := by
      rw [Text.thin_drop, gap]
      exact Nat.lt_of_le_of_lt (Text.thinOffset_le_self _ _) short
    have there : thinOffset text offset + Text.indentation (thin (text.drop offset)) =
        thinOffset text (offset + Text.indentation (text.drop offset)) := by
      rw [gap, Text.thinOffset_add]
      rfl
    rw [braceAfter?_eq short, braceAfter?_eq shorter, Text.thin_drop, there, Text.thin_drop]
    simp only [Text.head_thin (lines.drop _) (d := '\x7b') (by decide) (by decide)]
    split <;> rfl

/-! ## What the expressions see of returns -/

/-- The expression is the same to texts with returns, and so are the names it captures. -/
def Documentation.namesAlike (r : Regex) : Bool :=
  Regex.indifferent false r.node &&
    ["name", "alt"].all fun name => (r.named? name).all fun n => Regex.returnFree false n r.node false

/-- The expression is the same to texts with returns, and so is the name it captures. -/
def Commentary.nameAlike (r : Regex) : Bool :=
  Regex.indifferent false r.node && (r.named? "name").all fun n => Regex.returnFree false n r.node false

theorem expressions_alike (l : Language) :
    (Documentation.pattern? l).all Documentation.namesAlike = true ∧
    Regex.sight true Documentation.marker.node .unknown .full = some ⟨true, false⟩ ∧
    (Commentary.pattern? l).all Commentary.nameAlike = true ∧
    (Stub.declarations l).all (fun r => Regex.endsIn '\x7b' r.node && Regex.returnFree false 1 r.node false) = true ∧
    Regex.sight true Stub.commentStart.node .unknown .full = some ⟨true, false⟩ ∧
    (l ∈ [Language.javascript, .rust, .python] → (Stub.declarations l).all (fun r => Regex.indifferent false r.node) = true) := by
  cases l <;> decide +kernel

/-! ## Functions with a comment before them -/

namespace Documentation

theorem pattern_namesAlike : ∀ l, (pattern? l).all namesAlike = true := fun l => (expressions_alike l).1

theorem marker_sight : Regex.sight true marker.node .unknown .full = some ⟨true, false⟩ := (expressions_alike .python).2.1

theorem dropMarker_thin {line : Line} (own : Ended line) : dropMarker (thin line) = thin (dropMarker line) := by
  rw [dropMarker, dropMarker, matches_thin marker_sight rfl own]
  cases marker.atStart? line with
  | none => rfl
  | some h => exact Text.thin_drop line h.stop

theorem countDocLines_thin {doc : List Char} (lines : ReturnsEndLines doc) : countDocLines (thin doc) = countDocLines doc := by
  rw [countDocLines, countDocLines, Text.lines_thin, List.countP_map]
  refine List.countP_congr fun line mem => ?_
  rw [Function.comp_apply, dropMarker_thin (Text.ended_of_mem_lines lines mem), Text.isBlankLine_thin]

theorem bodyAfter?_thin (alike : BracesAlike text) (offset : Nat) :
    bodyAfter? (thin text) (thinOffset text offset) =
      (bodyAfter? text offset).map fun braces => (thinOffset text braces.1, thinOffset text braces.2) := by
  rw [bodyAfter?, bodyAfter?, Text.thin_drop, Text.find?_thin (by decide)]
  cases found : Text.find? ['\x7b'] (text.drop offset) with
  | none => rfl
  | some gap =>
    obtain ⟨rest, here⟩ := Text.drop_of_find? found
    rw [List.drop_drop] at here
    have there : thinOffset text offset + thinOffset (text.drop offset) gap = thinOffset text (offset + gap) := by
      rw [Text.thinOffset_add]
      rfl
    simp only [Option.map_some, Option.bind_eq_bind, Option.bind_some, Text.thin_take, Text.contains_thin (c := ';') (by decide), there]
    split
    next => rfl
    next =>
      rw [alike.closing _ ⟨rest, here⟩]
      cases closing? text (offset + gap) <;> rfl

theorem opensAt_of_bodyAfter? {offset opening closing : Nat} (found : bodyAfter? text offset = some (opening, closing)) :
    OpensAt text opening := by
  obtain ⟨gap, first, found⟩ := Option.bind_eq_some_iff.mp found
  obtain ⟨rest, here⟩ := Text.drop_of_find? first
  split at found
  next => cases found
  next =>
    obtain ⟨closing, -, same⟩ := Option.bind_eq_some_iff.mp found
    obtain ⟨rfl, -⟩ := Prod.mk.inj (Option.some.inj same)
    exact ⟨rest, by rwa [List.drop_drop] at here⟩

theorem groupText?_thin (text : List Char) (r : Regex) (h : Regex.Hit) (name : String) :
    groupText? r (thin text) (h.thinned text) name = (groupText? r text h name).map thin := by
  rw [groupText?, groupText?]
  cases r.named? name with
  | none => rfl
  | some n => exact h.groupText?_thinned text n

theorem documentedAt?_thin (lines : ReturnsEndLines text) (alike : BracesAlike text) {r : Regex} (known : namesAlike r = true)
    {h : Regex.Hit} (found : Regex.Matches r.node text h) :
    documentedAt? r (thin text) (h.thinned text) = documentedAt? r text h := by
  rw [documentedAt?, documentedAt?, show (h.thinned text).stop = thinOffset text h.stop from rfl, bodyAfter?_thin alike]
  cases body : bodyAfter? text h.stop with
  | none => rfl
  | some braces =>
    obtain ⟨opening, closing⟩ := braces
    have opens := opensAt_of_bodyAfter? body
    have name (name : String) (mem : name ∈ ["name", "alt"]) :
        groupText? r (thin text) (h.thinned text) name = groupText? r text h name := by
      have free := List.all_eq_true.mp ((Bool.and_eq_true _ _).mp known).2 name mem
      rw [groupText?, groupText?]
      cases numbered : r.named? name with
      | none => rfl
      | some n =>
        rw [numbered] at free
        exact Regex.groupText?_of_free lines (Regex.severalLines _) free found
    have doc : countDocLines (((groupText? r text h "doc").map thin).getD []) =
        countDocLines ((groupText? r text h "doc").getD []) := by
      cases listed : groupText? r text h "doc" with
      | none => rfl
      | some part =>
        obtain ⟨n, -, there⟩ := Option.bind_eq_some_iff.mp listed
        obtain ⟨s, -, rfl⟩ := Option.map_eq_some_iff.mp there
        exact countDocLines_thin (lines.slice _ _)
    have line : Text.lineAt (thin text) ((((r.named? "decl").bind (h.thinned text).group?).map (·.start)).getD (h.thinned text).start) =
        Text.lineAt text ((((r.named? "decl").bind h.group?).map (·.start)).getD h.start) := by
      cases r.named? "decl" with
      | none => exact Text.lineAt_thin text h.start
      | some n =>
        rw [Option.bind_some, Option.bind_some, h.group?_thinned]
        cases h.group? n with
        | none => exact Text.lineAt_thin text h.start
        | some s => exact Text.lineAt_thin text s.start
    simp only [Option.map_some, Option.bind_eq_bind, Option.bind_some, groupText?_thin text r h "doc", name "name" (by simp),
      name "alt" (by simp), doc, line, between_thin opens, Text.countNonBlank_thin]

theorem braceFunctions_thin (lines : ReturnsEndLines text) (alike : BracesAlike text) {r : Regex} (known : namesAlike r = true) :
    braceFunctions r (thin text) = braceFunctions r text := by
  rw [braceFunctions, braceFunctions,
    Regex.all_thin lines (Regex.severalLines _) ((Bool.and_eq_true _ _).mp known).1, List.filterMap_map]
  refine congrArg (List.mergeSort · _) (List.filterMap_congr fun h mem => ?_)
  exact documentedAt?_thin lines alike known (Regex.matches_of_mem_all mem)

/-- Functions with documentation are the same. -/
theorem functions_thin (lines : ReturnsEndLines text) {l : Language} (alike : l ≠ .python → BracesAlike text) :
    functions l (thin text) = functions l text := by
  have known := pattern_namesAlike l
  rw [functions, functions]
  cases pattern : pattern? l with
  | some r =>
    rw [pattern] at known
    exact braceFunctions_thin lines (alike fun none => by subst none; cases pattern) known
  | none =>
    rw [Text.lines_thin]
    exact indentedFunctions_thin 1 fun line mem => Text.ended_of_mem_lines lines mem

theorem violations_thin (lines : ReturnsEndLines text) (least : Int) (limit : Quantity) {tag : String}
    (alike : ∀ l, Language.ofTag? tag = some l → l ≠ .python → BracesAlike text) :
    violations (thin text) least limit tag = violations text least limit tag := by
  rw [violations, violations]
  cases language : Language.ofTag? tag with
  | none => rfl
  | some l => simp only [functions_thin lines (alike l language)]

end Documentation

/-! ## Functions by their comments -/

namespace Commentary

theorem pattern_nameAlike : ∀ l, (pattern? l).all nameAlike = true := fun l => (expressions_alike l).2.2.1

theorem classify_thin (marks : CommentMarks) {body : List Char} (lines : ReturnsEndLines body) :
    classify marks (thin body) = classify marks body := by
  rw [classify, classify, Text.lines_thin]
  exact classifyFrom_thin marks false fun line mem => Text.ended_of_mem_lines lines mem

/-- A return ends a word, and so does what stands behind it. -/
theorem takeWhile_not_isBlank_thin {part : List Char} (lines : ReturnsEndLines part) :
    (thin part).takeWhile (fun c => !Text.isBlank c) = part.takeWhile fun c => !Text.isBlank c := by
  induction part with
  | nil => rfl
  | cons c rest ih =>
    by_cases ret : c = '\r'
    · subst ret
      rcases lines.thin_of_return with rfl | ⟨more, rfl⟩ <;> rfl
    · rw [Text.thin_cons ret, List.takeWhile_cons, List.takeWhile_cons, ih lines.2]

theorem firstWord_thin {part : List Char} (lines : ReturnsEndLines part) : firstWord (thin part) = firstWord part := by
  induction part with
  | nil => rfl
  | cons c rest ih =>
    by_cases ret : c = '\r'
    · subst ret
      rw [Text.thin_cons_return, ih lines.2]
      rfl
    · rw [firstWord, firstWord, Text.trimLeft, Text.trimLeft, Text.thin_cons ret, List.dropWhile_cons, List.dropWhile_cons]
      split
      next => exact ih lines.2
      next => rw [← Text.thin_cons ret, takeWhile_not_isBlank_thin lines]

theorem isDeclaration_thin (lines : ReturnsEndLines text) (l : Language) {r : Regex} (known : nameAlike r = true) {h : Regex.Hit}
    (found : Regex.Matches r.node text h) : isDeclaration l r (thin text) (h.thinned text) = isDeclaration l r text h := by
  cases l with
  | java =>
    have name : (r.named? "name").bind ((h.thinned text).groupText? (thin text)) = (r.named? "name").bind (h.groupText? text) := by
      have free := ((Bool.and_eq_true _ _).mp known).2
      cases numbered : r.named? "name" with
      | none => rfl
      | some n =>
        rw [numbered] at free
        exact Regex.groupText?_of_free lines (Regex.severalLines _) free found
    have word : firstWord ((h.thinned text).text (thin text)) = firstWord (h.text text) := by
      have own : ReturnsEndLines (h.text text) := lines.slice _ _
      rw [Regex.Hit.text_thinned, firstWord_thin own]
    simp only [isDeclaration, name, word]
  | _ => rfl

theorem opensAt_of_braceAfter? {offset opening : Nat} (found : braceAfter? text offset = some opening) :
    OpensAt text opening := by
  rw [braceAfter?] at found
  split at found
  next first =>
    obtain rfl := Option.some.inj found
    rw [List.drop_take, List.head?_take, List.drop_drop] at first
    split at first
    next => cases first
    next => exact List.head?_eq_some_iff.mp first
  next => cases found

/-- A body by its offsets in the thin text. -/
def Commented.thinned (text : List Char) (b : Commented) : Commented :=
  { b with start := thinOffset text b.start, stop := thinOffset text b.stop }

theorem braceBodiesFrom_thin (lines : ReturnsEndLines text) (alike : BracesAlike text) (l : Language) {r : Regex}
    (known : nameAlike r = true) {hits : List Regex.Hit} (among : ∀ h ∈ hits, Regex.Matches r.node text h) {resume : Nat}
    (stands : resume = 0 ∨ ∃ rest, text.drop resume = '\x7d' :: rest) :
    braceBodiesFrom l r (thin text) (thinOffset text resume) (hits.map (Regex.Hit.thinned text)) =
      (braceBodiesFrom l r text resume hits).map (Commented.thinned text) := by
  induction hits generalizing resume with
  | nil => rfl
  | cons h rest ih =>
    obtain ⟨found, others⟩ := List.forall_mem_cons.mp among
    have before : thinOffset text h.start < thinOffset text resume ↔ h.start < resume := by
      rcases stands with rfl | ⟨behind, here⟩
      · simp
      · exact Text.thinOffset_lt_iff lines here (by decide)
    rw [List.map_cons, braceBodiesFrom, braceBodiesFrom, isDeclaration_thin lines l known found,
      show (h.thinned text).start = thinOffset text h.start from rfl, show (h.thinned text).stop = thinOffset text h.stop from rfl]
    simp only [before, alike.behind]
    split
    next => exact ih others stands
    next =>
      cases braced : braceAfter? text h.stop with
      | none => exact ih others stands
      | some opening =>
        have opens := opensAt_of_braceAfter? braced
        simp only [Option.map_some, alike.closing opening opens]
        cases closed : closing? text opening with
        | none => exact ih others stands
        | some closing =>
          have later := ih others (.inr (drop_of_closing? opens closed))
          obtain ⟨behind, here⟩ := opens
          simp only [Option.map_some, later, between_thin ⟨behind, here⟩, classify_thin _ (returnsEndLines_between lines opening closing),
            Text.lineAt_thin, ← Text.thinOffset_succ here (by decide)]
          rfl

theorem exists_bodies_thin (lines : ReturnsEndLines text) {l : Language} (alike : l ≠ .python → BracesAlike text) :
    ∃ f : Commented → Commented, (∀ b, (f b).counts = b.counts ∧ (f b).line = b.line) ∧
      bodies l (thin text) = (bodies l text).map f := by
  have known := pattern_nameAlike l
  rw [bodies, bodies]
  cases pattern : pattern? l with
  | some r =>
    rw [pattern] at known
    refine ⟨Commented.thinned text, fun b => ⟨rfl, rfl⟩, ?_⟩
    have hits := Regex.all_thin lines (Regex.severalLines _) ((Bool.and_eq_true _ _).mp known).1
    simp only [hits]
    exact braceBodiesFrom_thin lines (alike fun none => by subst none; cases pattern) l known
      (fun h mem => Regex.matches_of_mem_all mem) (.inl rfl)
  | none =>
    refine ⟨id, fun b => ⟨rfl, rfl⟩, ?_⟩
    rw [List.map_id, Text.lines_thin]
    exact indentedBodiesFrom_thin 1 0 fun line mem => Text.ended_of_mem_lines lines mem

theorem violations_thin (lines : ReturnsEndLines text) (least : Int) (limit : Quantity) {tag : String}
    (alike : ∀ l, Language.ofTag? tag = some l → l ≠ .python → BracesAlike text) :
    violations (thin text) least limit tag = violations text least limit tag := by
  rw [violations, violations]
  cases language : Language.ofTag? tag with
  | none => rfl
  | some l =>
    obtain ⟨f, same, eq⟩ := exists_bodies_thin lines (alike l language)
    have counts (b : Commented) : (f b).counts.comment = b.counts.comment ∧ (f b).counts.code = b.counts.code := by
      rw [(same b).1]
      exact ⟨rfl, rfl⟩
    have alike := select_map (fun b : Commented => b.counts.comment) (fun b => b.counts.code) counts
    simp only [eq, alike]
    cases select (·.counts.comment) (·.counts.code) least limit (bodies l text) with
    | error fault => rfl
    | ok chosen =>
      refine congrArg Except.ok ?_
      show (chosen.map f).map (toViolation limit) = chosen.map (toViolation limit)
      rw [List.map_map]
      refine List.map_congr_left fun b _ => ?_
      rw [Function.comp_apply, toViolation, toViolation, (same b).1, (same b).2]

end Commentary

/-! ## Stubs -/

namespace Stub

theorem declarations_endsIn : ∀ l, (declarations l).all (fun r =>
    Regex.endsIn '\x7b' r.node && Regex.returnFree false 1 r.node false) = true := fun l => (expressions_alike l).2.2.2.1

theorem commentStart_sight : Regex.sight true commentStart.node .unknown .full = some ⟨true, false⟩ :=
  (expressions_alike .python).2.2.2.2.1

/-- The declarations of a language are found in a text as they are found without returns. -/
def DeclarationsAlike (l : Language) (text : List Char) : Prop :=
  ∀ r ∈ declarations l, r.all (thin text) = (r.all text).map (Regex.Hit.thinned text)

theorem declarations_indifferent : ∀ l ∈ [Language.javascript, .rust, .python],
    (declarations l).all (fun r => Regex.indifferent false r.node) = true := fun l => (expressions_alike l).2.2.2.2.2

theorem declarationsAlike (lines : ReturnsEndLines text) {l : Language} (among : l ∈ [Language.javascript, .rust, .python]) :
    DeclarationsAlike l text := fun r mem =>
  Regex.all_thin lines (Regex.severalLines _) (List.all_eq_true.mp (declarations_indifferent l among) r mem)

theorem significant_thin {body : List Char} (lines : ReturnsEndLines body) : significant (thin body) = significant body := by
  rw [significant, significant, Text.lines_thin, List.filter_map, List.map_map]
  have ended (line : Line) (mem : line ∈ Text.lines body) : Ended line := Text.ended_of_mem_lines lines mem
  rw [List.filter_congr (q := fun line => !Text.isBlankLine line && (commentStart.atStart? line).isNone)]
  · exact List.map_congr_left fun line mem => (ended line (List.mem_of_mem_filter mem)).trim
  · intro line mem
    rw [Function.comp_apply, Text.isBlankLine_thin, matches_thin commentStart_sight rfl (ended line mem), Option.isNone_map]

/-- A declaration ends in the brace that opens the body. -/
theorem opensAt_stop {l : Language} {r : Regex} (mem : r ∈ declarations l) {h : Regex.Hit} (found : Regex.Matches r.node text h) :
    OpensAt text (h.stop - 1) ∧ (h.thinned text).stop - 1 = thinOffset text (h.stop - 1) := by
  have last := ((Bool.and_eq_true _ _).mp (List.all_eq_true.mp (declarations_endsIn l) r mem)).1
  obtain ⟨n, rest, stop, here⟩ := found.drop_of_endsIn last
  rw [Regex.Hit.thinned, stop, Nat.add_sub_cancel, Text.thinOffset_succ here (by decide)]
  exact ⟨⟨rest, here⟩, rfl⟩

theorem stubAt?_thin (lines : ReturnsEndLines text) (alike : BracesAlike text) {l : Language} {r : Regex} (mem : r ∈ declarations l)
    {h : Regex.Hit} (found : Regex.Matches r.node text h) :
    stubAt? l (thin text) (h.thinned text) = stubAt? l text h := by
  have free := ((Bool.and_eq_true _ _).mp (List.all_eq_true.mp (declarations_endsIn l) r mem)).2
  have name := Regex.groupText?_of_free lines (Regex.severalLines _) free found
  obtain ⟨opens, stop⟩ := opensAt_stop mem found
  rw [stubAt?, stubAt?, stop, name, alike.closing _ opens]
  cases closed : closing? text (h.stop - 1) with
  | none => rfl
  | some closing =>
    have inner := returnsEndLines_between lines (h.stop - 1) closing
    simp only [Option.map_some, Option.bind_eq_bind, Option.bind_some, between_thin opens, significant_thin inner,
      Text.lineAt_thin, Regex.occursIn_thin inner (Regex.severalLines _) workLeft_indifferent]

/-- A stub by the offset of its brace in the thin text. -/
def entryThinned (text : List Char) (e : Nat × Stub) : Nat × Stub := (thinOffset text e.1, e.2)

/-- Stubs by the offsets of opening braces. -/
def Opened (text : List Char) (found : List (Nat × Stub)) : Prop := ∀ e ∈ found, OpensAt text e.1

theorem thinOffset_le_iff (lines : ReturnsEndLines text) {a : Nat} (opens : OpensAt text a) (b : Nat) :
    thinOffset text a ≤ thinOffset text b ↔ a ≤ b := by
  obtain ⟨rest, here⟩ := opens
  rw [← Nat.not_lt, ← Nat.not_lt, Text.thinOffset_lt_iff lines here (by decide)]

theorem thinOffset_eq_iff (lines : ReturnsEndLines text) {a b : Nat} (opens : OpensAt text a) (opens' : OpensAt text b) :
    thinOffset text a = thinOffset text b ↔ a = b := by
  rw [Nat.le_antisymm_iff, Nat.le_antisymm_iff, thinOffset_le_iff lines opens, thinOffset_le_iff lines opens']

theorem addAt_thin (lines : ReturnsEndLines text) {found : List (Nat × Stub)} (opened : Opened text found) {opening : Nat}
    (opens : OpensAt text opening) (s : Stub) :
    addAt (found.map (entryThinned text)) (thinOffset text opening) s = (addAt found opening s).map (entryThinned text) := by
  have known : (found.map (entryThinned text)).any (·.1 == thinOffset text opening) = found.any (·.1 == opening) := by
    rw [List.any_map, Bool.eq_iff_iff, List.any_eq_true, List.any_eq_true]
    refine exists_congr fun e => and_congr_right fun mem => ?_
    rw [Function.comp_apply, beq_iff_eq, beq_iff_eq]
    exact thinOffset_eq_iff lines (opened e mem) opens
  rw [addAt, addAt, known]
  split
  next => rfl
  next => rw [List.map_append]; rfl

theorem opened_addAt {found : List (Nat × Stub)} (opened : Opened text found) {opening : Nat} (opens : OpensAt text opening)
    (s : Stub) : Opened text (addAt found opening s) := by
  rw [addAt]
  split
  next => exact opened
  next =>
    intro e mem
    rcases List.mem_append.mp mem with before | own
    · exact opened e before
    · rw [List.mem_singleton.mp own]
      exact opens

/-- What a declaration adds to the stubs before it. -/
def enter (l : Language) (content : List Char) (found : List (Nat × Stub)) (h : Regex.Hit) : List (Nat × Stub) :=
  (stubAt? l content h).elim found (addAt found (h.stop - 1))

theorem braceStubs_eq (l : Language) (content : List Char) :
    braceStubs l content = ((((declarations l).flatMap (·.all content)).foldl (enter l content) []).mergeSort
      fun a b => a.1 ≤ b.1).map (·.2) := by
  rw [braceStubs]
  congr
  funext found h
  rw [enter]
  cases stubAt? l content h <;> rfl

theorem foldl_enter_thin (lines : ReturnsEndLines text) (alike : BracesAlike text) {l : Language} {hits : List Regex.Hit}
    (among : ∀ h ∈ hits, ∃ r ∈ declarations l, Regex.Matches r.node text h) {found : List (Nat × Stub)}
    (opened : Opened text found) :
    (hits.map (Regex.Hit.thinned text)).foldl (enter l (thin text)) (found.map (entryThinned text)) =
        (hits.foldl (enter l text) found).map (entryThinned text) ∧
      Opened text (hits.foldl (enter l text) found) := by
  induction hits generalizing found with
  | nil => exact ⟨rfl, opened⟩
  | cons h rest ih =>
    obtain ⟨⟨r, mem, matched⟩, others⟩ := List.forall_mem_cons.mp among
    obtain ⟨opens, stop⟩ := opensAt_stop mem matched
    rw [List.map_cons, List.foldl_cons, List.foldl_cons, enter, enter, stubAt?_thin lines alike mem matched, stop]
    cases stubAt? l text h with
    | none => exact ih others opened
    | some s =>
      simp only [Option.elim_some, addAt_thin lines opened opens]
      exact ih others (opened_addAt opened opens s)

theorem braceStubs_thin (lines : ReturnsEndLines text) (alike : BracesAlike text) {l : Language} (same : DeclarationsAlike l text) :
    braceStubs l (thin text) = braceStubs l text := by
  have hits : (declarations l).flatMap (·.all (thin text)) =
      ((declarations l).flatMap (·.all text)).map (Regex.Hit.thinned text) := by
    rw [List.map_flatMap]
    exact List.flatMap_congr fun r mem => same r mem
  have among (h : Regex.Hit) (mem : h ∈ (declarations l).flatMap (·.all text)) :
      ∃ r ∈ declarations l, Regex.Matches r.node text h := by
    obtain ⟨r, own, found⟩ := List.mem_flatMap.mp mem
    exact ⟨r, own, Regex.matches_of_mem_all found⟩
  have none : Opened text [] := fun e listed => absurd listed List.not_mem_nil
  obtain ⟨folded, opened⟩ := foldl_enter_thin lines alike among none
  rw [braceStubs_eq, braceStubs_eq, hits, show [] = List.map (entryThinned text) [] from rfl, folded, ← List.map_mergeSort, List.map_map]
  · rfl
  · intro a mem b mem'
    exact decide_eq_decide.mpr (thinOffset_le_iff lines (opened a mem) b.1).symm

theorem violations_thin (lines : ReturnsEndLines text) {tag : String}
    (alike : ∀ l, Language.ofTag? tag = some l → l ≠ .python → BracesAlike text ∧ DeclarationsAlike l text) :
    violations (thin text) tag = violations text tag := by
  have braces (l : Language) (language : Language.ofTag? tag = some l) (ne : l ≠ .python) :
      braceStubs l (thin text) = braceStubs l text :=
    braceStubs_thin lines (alike l language ne).1 (alike l language ne).2
  rw [violations, violations]
  cases language : Language.ofTag? tag with
  | none => rfl
  | some l =>
    cases l with
    | python =>
      simp only [Text.lines_thin, indentedStubs_thin 1 fun line mem => Text.ended_of_mem_lines lines mem]
    | javascript => simp only [braces .javascript language (by decide)]
    | rust => simp only [braces .rust language (by decide)]
    | go => simp only [braces .go language (by decide)]
    | java => simp only [braces .java language (by decide)]

end Stub

/-- Functions in braces, of the language of a tag, are found in a text as they are found without returns. -/
def Alike (tag : String) (text : List Char) : Prop :=
  ∀ l, Language.ofTag? tag = some l → l ≠ .python → BracesAlike text ∧ Stub.DeclarationsAlike l text

theorem alike_of_fits (lines : ReturnsEndLines text) (fits : text.length ≤ Delimiter.defaultWindow.toNat)
    (escapes : ¬['\\', '\r'] <:+: text) (gaps : ∀ offset, Text.indentation (text.drop offset) < Commentary.braceReach)
    {l : Language} (among : l ∈ [Language.javascript, .rust, .python]) : Alike l.tag text := by
  intro l' language _
  obtain rfl : l' = l := by
    have own : Language.ofTag? l.tag = some l := by cases l <;> decide
    exact Option.some.inj (language.symm.trans own)
  exact ⟨bracesAlike_of_fits lines fits escapes gaps, Stub.declarationsAlike lines among⟩

end Measure

end CodeHygiene
