import CodeHygiene.Measure.Commentary
import CodeHygiene.Measure.Literal
import CodeHygiene.Measure.Stub
import CodeHygiene.Proofs.Indifference

/-!
What is measured line by line in a text with returns: repeated literals, and functions with indented bodies.

Proved:
(1) Each literal occurs as often as without returns, and is told on the same line (`Literal.violations_thin`).
(2) A function is found on the same line with the same docstring and the same code (`Documentation.indentedFunctions_thin`),
    with as many lines of comment (`Commentary.indentedBodiesFrom_thin`), and is a stub in both texts or in neither
    (`Stub.indentedStubs_thin`).
-/

namespace CodeHygiene.Measure

open Text (thin thinOffset ReturnsEndLines Ended)
open Regex (Sight)

variable {text : List Char}

/-! ## What the expressions see of returns -/

theorem expressions_sight :
    (Regex.indifferent false Literal.pattern.node = true ∧
      Regex.returnFree false 1 Literal.pattern.node false = true ∧ Regex.returnFree false 2 Literal.pattern.node false = true) ∧
    (Regex.sight true Documentation.defPattern.node .unknown .full = some ⟨true, false⟩ ∧
      Regex.returnFree true 1 Documentation.defPattern.node false = true ∧
      Regex.returnFree true 2 Documentation.defPattern.node false = true) ∧
    (Regex.sight true Commentary.defPattern.node .unknown .full = some ⟨true, false⟩ ∧
      Regex.returnFree true 1 Commentary.defPattern.node false = true ∧
      Regex.indifferent true Commentary.signatureEnd.node = true ∧ Regex.indifferent true Commentary.oneLiner.node = true) ∧
    Regex.indifferent false Stub.workLeft.node = true := by
  decide +kernel

/-! ## Literals -/

namespace Literal

theorem pattern_indifferent : Regex.indifferent false pattern.node = true := expressions_sight.1.1

theorem pattern_returnFree :
    Regex.returnFree false 1 pattern.node false = true ∧ Regex.returnFree false 2 pattern.node false = true :=
  expressions_sight.1.2

/-- The literals are the same, at the offsets that they stand for. -/
theorem literals_thin (lines : ReturnsEndLines text) :
    literals (thin text) = (literals text).map fun found => (thinOffset text found.1, found.2) := by
  have alone := Regex.severalLines text
  rw [literals, literals, Regex.all_thin lines alone pattern_indifferent, List.map_map, List.map_map]
  refine List.map_congr_left fun h mem => ?_
  have found := Regex.matches_of_mem_all mem
  have one := Regex.groupText?_of_free lines alone pattern_returnFree.1 found
  have other := Regex.groupText?_of_free lines alone pattern_returnFree.2 found
  simp only [Function.comp_apply, one, other]
  rfl

/-- A repeated literal by its offset in the thin text. -/
def Repeated.thinned (text : List Char) (r : Repeated) : Repeated := { r with offset := thinOffset text r.offset }

theorem count_thinned (text : List Char) (seen : List Repeated) (offset : Nat) (literal : List Char) :
    count (seen.map (Repeated.thinned text)) (thinOffset text offset) literal =
      (count seen offset literal).map (Repeated.thinned text) := by
  have any : (seen.map (Repeated.thinned text)).any (·.literal == literal) = seen.any (·.literal == literal) := by
    rw [List.any_map]
    rfl
  rw [count, count, any]
  split
  · rw [List.map_map, List.map_map]
    refine List.map_congr_left fun r _ => ?_
    show (if r.literal == literal then _ else _) = Repeated.thinned text (if r.literal == literal then _ else _)
    split <;> rfl
  · rw [List.map_append]
    rfl

theorem counted_thin (lines : ReturnsEndLines text) (minLength : Int) :
    counted (thin text) minLength = (counted text minLength).map (Repeated.thinned text) := by
  rw [counted, counted, literals_thin lines, List.filter_map, List.foldl_map]
  have step (found : List (Nat × List Char)) (seen : List Repeated) :
      found.foldl (fun seen e => count seen (thinOffset text e.1) e.2) (seen.map (Repeated.thinned text)) =
        (found.foldl (fun seen e => count seen e.1 e.2) seen).map (Repeated.thinned text) :=
    List.foldl_hom _ fun seen e => count_thinned text seen e.1 e.2
  exact step _ []

theorem violations_thin (lines : ReturnsEndLines text) (most : Quantity) (minLength : Int) :
    violations (thin text) most minLength = violations text most minLength := by
  rw [violations, violations, counted_thin lines, List.filter_map, List.map_map]
  refine List.map_congr_left fun r _ => ?_
  show _ = _
  simp only [Function.comp_apply, Repeated.thinned, Text.lineAt_thin]

end Literal

/-! ## Lines -/

theorem isInside_thin {line : Line} (h : Ended line) (indent : Nat) : isInside indent (thin line) = isInside indent line := by
  rw [isInside, isInside, Text.isBlankLine_thin]
  cases blank : Text.isBlankLine line
  · rw [h.indentation blank]
  · rfl

/-- What is told apart by lines alike is told apart alike in both texts. -/
theorem takeWhile_thin {p : Line → Bool} {body : List Line} (same : ∀ line ∈ body, p (thin line) = p line) :
    (body.map thin).takeWhile p = (body.takeWhile p).map thin := by
  induction body with
  | nil => rfl
  | cons line rest ih =>
    obtain ⟨first, others⟩ := List.forall_mem_cons.mp same
    rw [List.map_cons, List.takeWhile_cons, List.takeWhile_cons, first, ih others]
    split <;> rfl

theorem matches_thin {r : Regex} {k : Sight} (known : Regex.sight true r.node .unknown .full = some k)
    (opened : k.atReturn = true) {line : Line} (h : Ended line) :
    r.atStart? (thin line) = (r.atStart? line).map (Regex.Hit.thinned line) :=
  Regex.atStart?_thin h.returns (fun _ => h.single) known opened

/-! ## Indented functions with a docstring -/

namespace Documentation

theorem defPattern_sight : Regex.sight true defPattern.node .unknown .full = some ⟨true, false⟩ := expressions_sight.2.1.1

theorem defPattern_returnFree :
    Regex.returnFree true 1 defPattern.node false = true ∧ Regex.returnFree true 2 defPattern.node false = true :=
  expressions_sight.2.1.2

theorem docstringRest_thin {quote : List Char} (clean : '\r' ∉ quote) (some : quote ≠ []) {ls : List Line}
    (ended : ∀ line ∈ ls, Ended line) :
    docstringRest quote (ls.map thin) = ((docstringRest quote ls).1, (docstringRest quote ls).2.map thin) := by
  induction ls with
  | nil => rfl
  | cons line rest ih =>
    obtain ⟨first, others⟩ := List.forall_mem_cons.mp ended
    rw [List.map_cons, docstringRest, docstringRest, first.holds clean some, Text.isBlankLine_thin, ih others]
    split <;> rfl

theorem docstring_thin {ls : List Line} (ended : ∀ line ∈ ls, Ended line) :
    docstring (ls.map thin) = ((docstring ls).1, (docstring ls).2.map thin) := by
  cases ls with
  | nil => rfl
  | cons line rest =>
    obtain ⟨first, others⟩ := List.forall_mem_cons.mp ended
    rw [List.map_cons, docstring, docstring, first.trim]
    cases quoted : tripleQuotes.find? fun q => Text.startsWith q (Text.trim line) with
    | none => rfl
    | some quote =>
      have quotes : ∀ q ∈ tripleQuotes, '\r' ∉ q ∧ q ≠ [] := by decide
      obtain ⟨clean, some⟩ := quotes quote (List.mem_of_find?_eq_some quoted)
      simp only [docstringRest_thin clean some others]
      split <;> rfl

theorem docstringRest_suffix (quote : List Char) (ls : List Line) : (docstringRest quote ls).2 <:+ ls := by
  induction ls with
  | nil => exact List.suffix_refl _
  | cons line rest ih =>
    rw [docstringRest]
    split
    · exact List.suffix_cons _ _
    · exact ih.trans (List.suffix_cons _ _)

theorem docstring_suffix (ls : List Line) : (docstring ls).2 <:+ ls := by
  cases ls with
  | nil => exact List.suffix_refl _
  | cons line rest =>
    rw [docstring]
    split
    · exact List.suffix_refl _
    · split
      · exact List.suffix_cons _ _
      · exact (docstringRest_suffix _ rest).trans (List.suffix_cons _ _)

theorem countCode_thin (indent : Nat) {body : List Line} (ended : ∀ line ∈ body, Ended line) :
    countCode indent (body.map thin) = countCode indent body := by
  rw [countCode, countCode, takeWhile_thin fun line mem => isInside_thin (ended line mem) indent, List.countP_map]
  refine List.countP_congr fun line mem => ?_
  have own := ended line ((List.takeWhile_prefix _).subset mem)
  simp only [Function.comp_apply, Text.isBlankLine_thin, own.trim]

theorem documentedOn?_thin (number : Nat) {line : Line} {rest : List Line} (own : Ended line)
    (ended : ∀ line ∈ rest, Ended line) :
    documentedOn? number (thin line) (rest.map thin) = documentedOn? number line rest := by
  rw [documentedOn?, documentedOn?, matches_thin defPattern_sight rfl own]
  cases matched : defPattern.atStart? line with
  | none => rfl
  | some h =>
    have found := Regex.matches_of_atStart? matched
    have indent := Regex.groupText?_of_free own.returns (fun _ => own.single) defPattern_returnFree.1 found
    have name := Regex.groupText?_of_free own.returns (fun _ => own.single) defPattern_returnFree.2 found
    have body (line : Line) (mem : line ∈ (docstring rest).2) : Ended line := ended line ((docstring_suffix rest).subset mem)
    simp only [Option.map_some, Option.bind_eq_bind, Option.bind_some, indent, name, docstring_thin ended,
      countCode_thin _ body]

theorem indentedFunctions_thin (number : Nat) {ls : List Line} (ended : ∀ line ∈ ls, Ended line) :
    indentedFunctions number (ls.map thin) = indentedFunctions number ls := by
  induction ls generalizing number with
  | nil => rfl
  | cons line rest ih =>
    obtain ⟨first, others⟩ := List.forall_mem_cons.mp ended
    rw [List.map_cons, indentedFunctions, indentedFunctions, documentedOn?_thin number first others, ih (number + 1) others]

end Documentation

/-! ## Indented functions by their comments -/

namespace Commentary

theorem classifyFrom_thin (marks : CommentMarks) (inBlock : Bool) {ls : List Line} (ended : ∀ line ∈ ls, Ended line) :
    classifyFrom marks inBlock (ls.map thin) = classifyFrom marks inBlock ls := by
  induction ls generalizing inBlock with
  | nil => rfl
  | cons line rest ih =>
    obtain ⟨first, others⟩ := List.forall_mem_cons.mp ended
    rw [List.map_cons, classifyFrom, classifyFrom, first.trim]
    simp only [fun inBlock => ih inBlock others]

theorem defPattern_sight : Regex.sight true defPattern.node .unknown .full = some ⟨true, false⟩ := expressions_sight.2.2.1.1

theorem defPattern_returnFree : Regex.returnFree true 1 defPattern.node false = true := expressions_sight.2.2.1.2.1

theorem signatureEnd_indifferent : Regex.indifferent true signatureEnd.node = true := expressions_sight.2.2.1.2.2.1

theorem oneLiner_indifferent : Regex.indifferent true oneLiner.node = true := expressions_sight.2.2.1.2.2.2

theorem signatureLines?_thin {ls : List Line} (ended : ∀ line ∈ ls, Ended line) :
    signatureLines? (ls.map thin) = signatureLines? ls := by
  rw [signatureLines?, signatureLines?, ← List.map_take]
  have reached (line : Line) (mem : line ∈ ls.take signatureReach) : Ended line := ended line (List.mem_of_mem_take mem)
  generalize ls.take signatureReach = reach at reached
  induction reach with
  | nil => rfl
  | cons line rest ih =>
    obtain ⟨first, others⟩ := List.forall_mem_cons.mp reached
    rw [List.map_cons, List.findIdx?_cons, List.findIdx?_cons, ih others,
      Regex.occursIn_thin first.returns (fun _ => first.single) signatureEnd_indifferent]

theorem header?_thin {line : Line} {rest : List Line} (own : Ended line) (ended : ∀ line ∈ rest, Ended line) :
    header? (thin line) (rest.map thin) = header? line rest := by
  rw [header?, header?, matches_thin defPattern_sight rfl own]
  cases matched : defPattern.atStart? line with
  | none => rfl
  | some h =>
    have indent := Regex.groupText?_of_free own.returns (fun _ => own.single) defPattern_returnFree
      (Regex.matches_of_atStart? matched)
    have signature := signatureLines?_thin (List.forall_mem_cons.mpr ⟨own, ended⟩)
    rw [List.map_cons] at signature
    simp only [Option.map_some, Option.bind_eq_bind, Option.bind_some, indent, signature,
      Regex.occursIn_thin own.returns (fun _ => own.single) oneLiner_indifferent]

theorem indentedBodiesFrom_thin (number covered : Nat) {ls : List Line} (ended : ∀ line ∈ ls, Ended line) :
    indentedBodiesFrom number covered (ls.map thin) = indentedBodiesFrom number covered ls := by
  induction ls generalizing number covered with
  | nil => rfl
  | cons line rest ih =>
    obtain ⟨own, others⟩ := List.forall_mem_cons.mp ended
    cases covered with
    | succ more => exact ih (number + 1) more others
    | zero =>
      rw [List.map_cons, indentedBodiesFrom, indentedBodiesFrom]
      simp only [header?_thin own others]
      cases header? line rest with
      | none => exact ih (number + 1) 0 others
      | some found =>
        obtain ⟨indent, signature⟩ := found
        have later (line : Line) (mem : line ∈ rest.drop signature) : Ended line := others line (List.mem_of_mem_drop mem)
        have body : ((rest.map thin).drop signature).takeWhile (isInside indent) =
            ((rest.drop signature).takeWhile (isInside indent)).map thin := by
          rw [← List.map_drop]
          exact takeWhile_thin fun line mem => isInside_thin (later line mem) indent
        have inside (line : Line) (mem : line ∈ (rest.drop signature).takeWhile (isInside indent)) : Ended line :=
          later line ((List.takeWhile_prefix _).subset mem)
        simp only [body, List.length_map, classifyFrom_thin _ _ inside, ih _ _ others]

end Commentary

/-! ## Indented stubs -/

namespace Stub

theorem workLeft_indifferent : Regex.indifferent false workLeft.node = true := expressions_sight.2.2.2

theorem indentedBody_thin (indent : Nat) (quote : Option (List Char)) {ls : List Line} (ended : ∀ line ∈ ls, Ended line) :
    indentedBody indent quote (ls.map thin) = indentedBody indent quote ls := by
  induction ls generalizing quote with
  | nil => rfl
  | cons raw rest ih =>
    obtain ⟨first, others⟩ := List.forall_mem_cons.mp ended
    rw [List.map_cons, indentedBody.eq_def, indentedBody.eq_def indent quote (raw :: rest)]
    simp only [first.trim, fun quote => ih quote others]
    cases empty : (Text.trim raw).isEmpty with
    | true => rfl
    | false => rw [first.indentation (Text.isBlankLine_of_trim fun none => by simp [none] at empty)]

theorem stubOn?_thin (number : Nat) {line : Line} {rest : List Line} (own : Ended line) (ended : ∀ line ∈ rest, Ended line) :
    stubOn? number (thin line) (rest.map thin) = stubOn? number line rest := by
  rw [stubOn?, stubOn?, matches_thin Documentation.defPattern_sight rfl own]
  cases matched : Documentation.defPattern.atStart? line with
  | none => rfl
  | some h =>
    have found := Regex.matches_of_atStart? matched
    have indent := Regex.groupText?_of_free own.returns (fun _ => own.single) Documentation.defPattern_returnFree.1 found
    have name := Regex.groupText?_of_free own.returns (fun _ => own.single) Documentation.defPattern_returnFree.2 found
    have window : (thin line :: rest.map thin).take markerReach = ((line :: rest).take markerReach).map thin := by
      rw [← List.map_cons, List.map_take]
    have reached : ReturnsEndLines (Text.unlines ((line :: rest).take markerReach)) :=
      Text.returnsEndLines_unlines fun line mem =>
        (List.forall_mem_cons.mpr ⟨own, ended⟩ line (List.mem_of_mem_take mem) : Ended line).returns
    have marked := Regex.occursIn_thin reached (Regex.severalLines _) workLeft_indifferent
    simp only [Option.map_some, Option.bind_eq_bind, Option.bind_some, indent, name, indentedBody_thin _ _ ended, window,
      ← Text.thin_unlines, marked]

theorem indentedStubs_thin (number : Nat) {ls : List Line} (ended : ∀ line ∈ ls, Ended line) :
    indentedStubs number (ls.map thin) = indentedStubs number ls := by
  induction ls generalizing number with
  | nil => rfl
  | cons line rest ih =>
    obtain ⟨first, others⟩ := List.forall_mem_cons.mp ended
    rw [List.map_cons, indentedStubs, indentedStubs, stubOn?_thin number first others, ih (number + 1) others]

end Stub

end CodeHygiene.Measure
