import CodeHygiene.Proofs.Returns
import CodeHygiene.Repository.CodeLines
import Mathlib.Data.List.Infix

/-!
Lines of code, against the lines that keep text when their comments are taken out.

Read from left to right, a line that begins outside a block with a mark is a comment as a whole; from any other line
blocks are taken out, as many as there are, and the last one may go on (`leaves`). The count takes out one block of a line,
looks for it before it looks for a mark, and looks for a mark again in what is left (`counts`).

Proved:
(1) Blocks are taken out one after the other (`withoutBlocks_of_none`, `withoutBlocks_of_some`), and blanks around a line do
    not matter (`keeps_trim`).
(2) A line behaves alike in both readings exactly where it fits (`counts_eq_leaves_iff`): with a mark it opens no block, or
    one that ends on it and does not begin in the mark; without one it has one block, or the others on it end on it and what
    is left behind the first is code in both readings; and no mark stands where a block has just been taken out.
(3) A line with one block, or with a mark and none, fits (`HasOneBlock.fits`).
(4) So all lines behave alike exactly where all fit, and then as many are counted as keep text (`comments_are_taken_out`). A
    block that is opened in a comment swallows what follows (`comment_opens_block`).
-/

namespace CodeHygiene.Repository

open Text (isBlankLine trim isBlankLine_append isBlankLine_trim)

variable {text before after rest : List Char}

/-! ## Marks -/

/-- Whether a text begins with the mark of a comment. -/
def isMarked (text : List Char) : Bool := lineMarks.any fun m => Text.startsWith m text

theorem isBlank_of_mem_lineMarks {m : List Char} (among : m ∈ lineMarks) {c : Char} (mem : c ∈ m) : Text.isBlank c = false := by
  have visible : (lineMarks.all fun m => m.all fun c => !Text.isBlank c) = true := by decide
  simpa using List.all_eq_true.mp (List.all_eq_true.mp visible m among) c mem

/-- A mark has no blanks, so it does not reach over one. -/
theorem isMarked_append {blanks : List Char} (blank : ∀ c, blanks.head? = some c → Text.isBlank c = true) (text : List Char) :
    isMarked (text ++ blanks) = isMarked text := by
  rw [Bool.eq_iff_iff, isMarked, isMarked, List.any_eq_true, List.any_eq_true]
  refine exists_congr fun m => and_congr_right fun among => ?_
  rw [Text.startsWith_iff, Text.startsWith_iff]
  exact ⟨Text.prefix_of_prefix_append (fun _ => isBlank_of_mem_lineMarks among) blank,
    fun starts => starts.trans (List.prefix_append _ _)⟩

/-! ## Blocks -/

/-- What is left of a text when its blocks are taken out, read from inside a block or from outside, and whether a block is
open behind it. -/
def withoutBlocks (inBlock : Bool) : List Char → List Char × Bool
  | [] => ([], inBlock)
  | [c] => (if inBlock then [] else [c], inBlock)
  | c :: d :: rest =>
    if inBlock then
      if c = '*' ∧ d = '/' then withoutBlocks false rest else withoutBlocks true (d :: rest)
    else if c = '/' ∧ d = '*' then withoutBlocks true rest
    else (withoutBlocks false (d :: rest)).map (c :: ·) id

theorem cutAt?_cons {piece : List Char} (c : Char) (text : List Char) : cutAt? piece (c :: text) =
    if Text.startsWith piece (c :: text) then some ([], (c :: text).drop piece.length)
    else (cutAt? piece text).map fun cut => (c :: cut.1, cut.2) := by
  rw [cutAt?, cutAt?, Text.find?]
  split
  next => simp
  next =>
    cases Text.find? piece text with
    | none => rfl
    | some n => simp [Nat.succ_add]

/-- What ends the block that a text is read from, or opens the next one. -/
def delimiter (inBlock : Bool) : List Char := if inBlock then ['*', '/'] else ['/', '*']

theorem startsWith_pair {a b c d : Char} {rest : List Char} :
    Text.startsWith [a, b] (c :: d :: rest) = true ↔ c = a ∧ d = b := by
  rw [Text.startsWith_iff, List.cons_prefix_cons, List.cons_prefix_cons, and_iff_left List.nil_prefix, eq_comm, @eq_comm _ b]

theorem cutAt?_singleton (inBlock : Bool) (c : Char) : cutAt? (delimiter inBlock) [c] = none := by
  have short : Text.startsWith (delimiter inBlock) [c] = false := by
    cases inBlock <;> simp [delimiter, Text.startsWith, Text.after?]
  rw [cutAt?_cons, short]
  cases inBlock <;> rfl

/-- Up to the next delimiter nothing changes. -/
theorem withoutBlocks_eq (inBlock : Bool) (text : List Char) : withoutBlocks inBlock text =
    match cutAt? (delimiter inBlock) text with
    | none => (if inBlock then [] else text, inBlock)
    | some (before, after) =>
      ((if inBlock then [] else before) ++ (withoutBlocks (!inBlock) after).1, (withoutBlocks (!inBlock) after).2) := by
  fun_induction withoutBlocks inBlock text with
  | case1 inBlock => cases inBlock <;> rfl
  | case2 inBlock c => rw [cutAt?_singleton]
  | case3 c d rest closes ih =>
    have here : Text.startsWith (delimiter true) (c :: d :: rest) = true := startsWith_pair.mpr closes
    rw [cutAt?_cons, here]
    rfl
  | case4 c d rest goesOn ih =>
    have here : Text.startsWith (delimiter true) (c :: d :: rest) = false :=
      Bool.eq_false_iff.mpr fun starts => goesOn (startsWith_pair.mp starts)
    rw [cutAt?_cons, here, ih]
    cases cutAt? (delimiter true) (d :: rest) <;> rfl
  | case5 inBlock c d rest outside opens ih =>
    obtain rfl : inBlock = false := by simpa using outside
    have here : Text.startsWith (delimiter false) (c :: d :: rest) = true := startsWith_pair.mpr opens
    rw [cutAt?_cons, here]
    rfl
  | case6 inBlock c d rest outside goesOn ih =>
    obtain rfl : inBlock = false := by simpa using outside
    have here : Text.startsWith (delimiter false) (c :: d :: rest) = false :=
      Bool.eq_false_iff.mpr fun starts => goesOn (startsWith_pair.mp starts)
    rw [cutAt?_cons, here, ih]
    cases cutAt? (delimiter false) (d :: rest) <;> rfl

/-- A text without a delimiter is left as it is outside a block, and not at all inside. -/
theorem withoutBlocks_of_none {inBlock : Bool} (cut : cutAt? (delimiter inBlock) text = none) :
    withoutBlocks inBlock text = (if inBlock then [] else text, inBlock) := by
  rw [withoutBlocks_eq, cut]

/-- At a delimiter the text is read on from the other side. -/
theorem withoutBlocks_of_some {inBlock : Bool} (cut : cutAt? (delimiter inBlock) text = some (before, after)) :
    withoutBlocks inBlock text =
      ((if inBlock then [] else before) ++ (withoutBlocks (!inBlock) after).1, (withoutBlocks (!inBlock) after).2) := by
  rw [withoutBlocks_eq, cut]

/-! ## Blanks around a text -/

/-- Whether something is left of a text that is not blank, and whether a block is open behind it. -/
def keeps (inBlock : Bool) (text : List Char) : Bool × Bool :=
  (!isBlankLine (withoutBlocks inBlock text).1, (withoutBlocks inBlock text).2)

theorem ne_of_isBlank {c : Char} (blank : Text.isBlank c = true) : c ≠ '/' ∧ c ≠ '*' := by
  have visible : Text.isBlank '/' = false ∧ Text.isBlank '*' = false := by decide
  constructor <;> rintro rfl <;> simp [visible] at blank

theorem keeps_cons_blank (inBlock : Bool) {c : Char} (blank : Text.isBlank c = true) (text : List Char) :
    keeps inBlock (c :: text) = keeps inBlock text := by
  have ne := ne_of_isBlank blank
  cases text with
  | nil => cases inBlock <;> simp [keeps, withoutBlocks, isBlankLine, blank]
  | cons d rest => cases inBlock <;> simp [keeps, withoutBlocks, ne, isBlankLine, blank]

theorem withoutBlocks_of_blank (inBlock : Bool) (blank : ∀ c ∈ text, Text.isBlank c = true) :
    withoutBlocks inBlock text = (if inBlock then [] else text, inBlock) := by
  fun_induction withoutBlocks inBlock text with
  | case1 inBlock => cases inBlock <;> rfl
  | case2 => rfl
  | case3 c d rest closes ih => exact absurd closes.1 (ne_of_isBlank (blank c List.mem_cons_self)).2
  | case4 c d rest goesOn ih => exact ih fun x mem => blank x (List.mem_cons_of_mem _ mem)
  | case5 inBlock c d rest outside opens ih => exact absurd opens.1 (ne_of_isBlank (blank c List.mem_cons_self)).1
  | case6 inBlock c d rest outside goesOn ih =>
    rw [ih fun x mem => blank x (List.mem_cons_of_mem _ mem)]
    cases inBlock
    · rfl
    · exact absurd rfl outside

/-- Blanks behind a text are left outside a block. -/
theorem withoutBlocks_append {blanks : List Char} (blank : ∀ c ∈ blanks, Text.isBlank c = true) (inBlock : Bool)
    (text : List Char) : withoutBlocks inBlock (text ++ blanks) =
      ((withoutBlocks inBlock text).1 ++ (if (withoutBlocks inBlock text).2 then [] else blanks), (withoutBlocks inBlock text).2) := by
  fun_induction withoutBlocks inBlock text with
  | case1 inBlock => exact withoutBlocks_of_blank inBlock blank
  | case2 inBlock c =>
    have left := withoutBlocks_of_blank inBlock blank
    cases blanks with
    | nil => cases inBlock <;> rfl
    | cons d blanks =>
      have ne := ne_of_isBlank (blank d List.mem_cons_self)
      cases inBlock <;> simp [withoutBlocks, ne, left]
  | case3 c d rest closes ih => simp [withoutBlocks, closes, ih]
  | case4 c d rest goesOn ih => simpa [withoutBlocks, goesOn] using ih
  | case5 inBlock c d rest outside opens ih => simp [withoutBlocks, outside, opens, ih]
  | case6 inBlock c d rest outside goesOn ih =>
    rw [List.cons_append] at ih
    simp [withoutBlocks, outside, goesOn, ih]

theorem keeps_trim (inBlock : Bool) (text : List Char) : keeps inBlock (trim text) = keeps inBlock text := by
  obtain ⟨front, back, eq, leads, trails⟩ := Text.exists_eq_trim text
  have first (rest : List Char) : keeps inBlock (front ++ rest) = keeps inBlock rest := by
    clear eq
    induction front with
    | nil => rfl
    | cons c front ih =>
      obtain ⟨blank, others⟩ := List.forall_mem_cons.mp leads
      rw [List.cons_append, keeps_cons_blank inBlock blank, ih others]
  have all : back.all Text.isBlank = true := List.all_eq_true.mpr trails
  conv_rhs => rw [eq]
  rw [first, keeps, keeps, withoutBlocks_append trails, isBlankLine, isBlankLine, List.all_append]
  split <;> simp [all]

/-! ## Lines -/

/-- What a count goes through: whether each line is counted, and whether a block is open behind it. -/
def trace (step : Bool → List Char → Bool × Bool) (inBlock : Bool) : List (List Char) → List (Bool × Bool)
  | [] => []
  | line :: rest => step inBlock line :: trace step (step inBlock line).2 rest

/-- What is told of a text outside a block: whether it is code once its first block is taken out, and whether that goes on. -/
def tells (text : List Char) : Bool × Bool :=
  (!((withoutBlock text).1.isEmpty || isMarked (withoutBlock text).1), (withoutBlock text).2)

/-- Whether a line is counted, and whether a block is open behind it. -/
def counts (inBlock : Bool) (raw : List Char) : Bool × Bool :=
  let line := trim raw
  if line.isEmpty then (false, inBlock)
  else
    let (code, isOpen) := codeOf inBlock line
    (!(code.isEmpty || isMarked code), isOpen)

theorem countCodeFrom_eq (inBlock : Bool) (lines : List (List Char)) :
    countCodeFrom inBlock lines = (trace counts inBlock lines).countP (·.1) := by
  induction lines generalizing inBlock with
  | nil => rfl
  | cons raw rest ih =>
    rw [countCodeFrom, trace, List.countP_cons, ← ih, counts]
    simp only [← isMarked.eq_def]
    split
    next => simp
    next =>
      generalize ((codeOf inBlock (trim raw)).1.isEmpty || isMarked (codeOf inBlock (trim raw)).1) = gone
      cases gone <;> simp [Nat.add_comm]

/-- Whether text is left on a line, and whether a block is open behind it: outside a block a line that begins with a mark is
a comment as a whole, and opens no block. From any other line its blocks are taken out. -/
def leaves (inBlock : Bool) (line : List Char) : Bool × Bool :=
  if !inBlock && isMarked (trim line) then (false, false) else keeps inBlock line

/-- How many lines keep text when all comments are taken out. -/
def linesWithText (content : List Char) : Nat := (trace leaves false (Text.lines content)).countP (·.1)

/-- One block is all that is to be taken out of a text: no mark is taken for that of a comment where it is none, and further
blocks end in the text and leave as much of it as if they were not there. -/
def TakesOne (text : List Char) : Prop :=
  match cutAt? blockOpen text with
  | none => isMarked text = false
  | some (before, after) =>
    match cutAt? blockClose after with
    | none => isMarked (trim before) = false
    | some (_, rest) => (withoutBlocks false rest).2 = false ∧
      if isBlankLine before then (isBlankLine rest || isMarked (trim rest)) = isBlankLine (withoutBlocks false rest).1
      else isMarked (trim before) = false

/-- A line behaves alike in both readings. Behind the block in which it begins, and without a mark, one block is all that is
to be taken out of it; with a mark it has none, or one that ends on it and does not begin in the mark. -/
def Fits (inBlock : Bool) (line : List Char) : Prop :=
  if inBlock then ∀ inner rest, cutAt? blockClose (trim line) = some (inner, rest) → TakesOne (trim rest)
  else if isMarked (trim line) then
    ∀ before after, cutAt? blockOpen (trim line) = some (before, after) →
      isMarked (trim before) = true ∧ (cutAt? blockClose after).isSome = true
  else TakesOne (trim line)

theorem isMarked_trim (line : List Char) : isMarked (trim line) = isMarked (Text.trimLeft line) := by
  obtain ⟨back, eq, blank⟩ := Text.exists_trimLeft_eq line
  rw [eq, isMarked_append fun c first => blank c (List.mem_of_mem_head? first)]

/-- What stands before a block that was taken out decides whether the rest of the line counts. -/
theorem isMarked_around (visible : isBlankLine before = false) (rest : List Char) :
    isMarked (trim (trim before ++ ' ' :: trim rest)) = isMarked (trim before) := by
  have some : trim before ≠ [] := fun empty => by
    have := Text.trim_isEmpty before
    rw [empty, visible] at this
    cases this
  rw [isMarked_trim, Text.trimLeft_trim_append some]
  refine isMarked_append (fun c first => ?_) _
  cases first
  decide

theorem trim_around_isEmpty (before rest : List Char) :
    (trim (trim before ++ ' ' :: trim rest)).isEmpty = (isBlankLine before && isBlankLine rest) := by
  have space : Text.isBlank ' ' = true := by decide
  rw [Text.trim_isEmpty, isBlankLine, List.all_append, List.all_cons, space, Bool.true_and]
  exact congrArg₂ _ (isBlankLine_trim before) (isBlankLine_trim rest)

theorem isMarked_behind (blank : isBlankLine before = true) (rest : List Char) :
    isMarked (trim (trim before ++ ' ' :: trim rest)) = isMarked (trim rest) := by
  have space : Text.trimLeft (' ' :: trim rest) = Text.trimLeft (trim rest) := List.dropWhile_cons_of_pos (by decide)
  rw [Text.trim_of_blank blank, List.nil_append, isMarked_trim, space]
  by_cases none : trim rest = []
  · rw [none]
    rfl
  · have first := Text.trimLeft_trim_append none []
    rw [List.append_nil] at first
    rw [first]

theorem eq_of_cutAt? {piece : List Char} (cut : cutAt? piece text = some (before, after)) : text = before ++ (piece ++ after) := by
  induction text generalizing before with
  | nil =>
    obtain ⟨n, found, eq⟩ := Option.map_eq_some_iff.mp cut
    rw [Text.find?] at found
    split at found
    next none =>
      cases found
      cases eq
      rw [none]
      rfl
    next => cases found
  | cons c text ih =>
    rw [cutAt?_cons] at cut
    split at cut
    next starts =>
      obtain ⟨behind, eq⟩ := Text.startsWith_iff.mp starts
      cases cut
      rw [← eq, List.drop_left]
      rfl
    next =>
      obtain ⟨⟨b, a⟩, found, same⟩ := Option.map_eq_some_iff.mp cut
      cases same
      exact congrArg (c :: ·) (ih found)

theorem withoutBlock_of_none (cut : cutAt? blockOpen text = none) : withoutBlock text = (text, false) := by
  rw [withoutBlock, cut]

theorem withoutBlock_of_open (cut : cutAt? blockOpen text = some (before, after)) (close : cutAt? blockClose after = none) :
    withoutBlock text = (trim before, true) := by
  rw [withoutBlock, cut]
  simp only [close]

theorem withoutBlock_of_closed {inner : List Char} (cut : cutAt? blockOpen text = some (before, after))
    (close : cutAt? blockClose after = some (inner, rest)) :
    withoutBlock text = (trim (trim before ++ ' ' :: trim rest), false) := by
  rw [withoutBlock, cut]
  simp only [close]

/-! ## Both readings -/

/-- Outside a block, what is told of a text that is not taken for a comment. -/
theorem tells_eq_iff (raw : List Char) : tells (trim raw) = keeps false (trim raw) ↔ TakesOne (trim raw) := by
  rw [tells, keeps, TakesOne]
  cases cut : cutAt? blockOpen (trim raw) with
  | none =>
    have all : withoutBlocks false (trim raw) = (trim raw, false) := withoutBlocks_of_none cut
    rw [withoutBlock_of_none cut, all, Text.trim_isEmpty, isBlankLine_trim]
    cases blank : isBlankLine raw with
    | true =>
      rw [Text.trim_of_blank blank]
      decide
    | false => simp
  | some parts =>
    obtain ⟨before, after⟩ := parts
    have all : withoutBlocks false (trim raw) = (before ++ (withoutBlocks true after).1, (withoutBlocks true after).2) :=
      withoutBlocks_of_some cut
    cases close : cutAt? blockClose after with
    | none =>
      have goesOn : withoutBlocks true after = ([], true) := withoutBlocks_of_none close
      simp only [withoutBlock_of_open cut close, all, goesOn, close, List.append_nil, Text.trim_isEmpty]
      cases blank : isBlankLine before with
      | true =>
        rw [Text.trim_of_blank blank]
        decide
      | false => simp
    | some parts =>
      obtain ⟨inner, rest⟩ := parts
      have behind : withoutBlocks true after = withoutBlocks false rest := withoutBlocks_of_some close
      simp only [withoutBlock_of_closed cut close, all, behind, close, trim_around_isEmpty, isBlankLine_append]
      cases blank : isBlankLine before with
      | true =>
        rw [isMarked_behind blank, Prod.mk.injEq, and_comm, eq_comm]
        simp only [Bool.true_and, Bool.not_inj_iff, if_true]
      | false =>
        rw [isMarked_around blank, Prod.mk.injEq, and_comm, eq_comm]
        simp

/-- A line with a mark does not begin with a block. -/
theorem isBlankLine_before_block (raw : List Char) (marked : isMarked (trim raw) = true)
    (cut : cutAt? blockOpen (trim raw) = some (before, after)) : isBlankLine before = false := by
  have eq := eq_of_cutAt? cut
  cases before with
  | nil =>
    rw [eq] at marked
    cases marked
  | cons x more =>
    have first : (trim raw).head? = some x := by
      rw [eq]
      rfl
    rw [isBlankLine, List.all_cons, Text.isBlank_of_head?_trim first, Bool.false_and]

/-- Outside a block, what is told of a text that is taken for a comment. -/
theorem tells_eq_nothing_iff (raw : List Char) (marked : isMarked (trim raw) = true) : tells (trim raw) = (false, false) ↔
    ∀ before after, cutAt? blockOpen (trim raw) = some (before, after) →
      isMarked (trim before) = true ∧ (cutAt? blockClose after).isSome = true := by
  rw [tells]
  cases cut : cutAt? blockOpen (trim raw) with
  | none =>
    simp [withoutBlock_of_none cut, marked]
  | some parts =>
    obtain ⟨before, after⟩ := parts
    have visible := isBlankLine_before_block raw marked cut
    cases close : cutAt? blockClose after with
    | none => simp [withoutBlock_of_open cut close, close]
    | some parts =>
      obtain ⟨inner, rest⟩ := parts
      simp [withoutBlock_of_closed cut close, close, trim_around_isEmpty, visible, isMarked_around visible]

/-- A line behaves alike in both readings exactly where it fits. -/
theorem counts_eq_leaves_iff (inBlock : Bool) (raw : List Char) : counts inBlock raw = leaves inBlock raw ↔ Fits inBlock raw := by
  rw [counts, leaves, Fits, ← keeps_trim]
  cases empty : (trim raw).isEmpty with
  | true =>
    rw [List.isEmpty_iff.mp empty]
    cases inBlock with
    | true => exact iff_of_true rfl nofun
    | false => exact iff_of_true rfl (by decide : isMarked [] = false)
  | false =>
    cases inBlock with
    | true =>
      simp only [codeOf, Bool.not_true, Bool.false_and, Bool.false_eq_true, if_false, if_true]
      cases close : cutAt? blockClose (trim raw) with
      | none =>
        have all : withoutBlocks true (trim raw) = ([], true) := withoutBlocks_of_none close
        simp [keeps, all, isBlankLine]
      | some parts =>
        obtain ⟨inner, rest⟩ := parts
        have all : withoutBlocks true (trim raw) = withoutBlocks false rest := withoutBlocks_of_some close
        have same : keeps true (trim raw) = keeps false (trim rest) := by
          rw [keeps_trim false, keeps, all]
          rfl
        rw [same]
        refine (tells_eq_iff rest).trans ⟨fun takes _ _ eq => ?_, fun fits => fits inner rest rfl⟩
        cases eq
        exact takes
    | false =>
      cases marked : isMarked (trim raw) with
      | true => exact tells_eq_nothing_iff raw marked
      | false => exact tells_eq_iff raw

/-! ## Lines with one block -/

theorem isMarked_of_prefix {first second : List Char} (before : first <+: second) (marked : isMarked first = true) :
    isMarked second = true := by
  obtain ⟨m, among, starts⟩ := List.any_eq_true.mp marked
  exact List.any_eq_true.mpr ⟨m, among, Text.startsWith_iff.mpr ((Text.startsWith_iff.mp starts).trans before)⟩

/-- A mark is one whatever follows it. -/
theorem isMarked_trim_append (marked : isMarked (trim text) = true) (rest : List Char) : isMarked (trim (text ++ rest)) = true := by
  rw [isMarked_trim, Text.trimLeft] at marked ⊢
  rw [List.dropWhile_append]
  split
  next empty =>
    rw [List.isEmpty_iff.mp empty] at marked
    cases marked
  next => exact isMarked_of_prefix (List.prefix_append _ _) marked

/-- One block at most opens in a text, and no mark stands behind the end of a block. -/
structure HasOneBlock (text : List Char) : Prop where
  single : ∀ before after, text = before ++ (blockOpen ++ after) → ¬ blockOpen <:+: after
  unmarked : ∀ before after, text = before ++ (blockClose ++ after) → isMarked (trim after) = false

theorem all_behind_iff (piece : List Char) (test : List Char → Bool) :
    (text.tails.all fun tail => (Text.after? piece tail).all test) = true ↔
      ∀ before after, text = before ++ (piece ++ after) → test after = true := by
  simp only [List.all_eq_true, Option.all_eq_true, Text.after?_eq_some_iff, List.mem_tails]
  constructor
  · rintro each before after rfl
    exact each _ (List.suffix_append _ _) after rfl
  · rintro each tail ⟨before, rfl⟩ after rfl
    exact each before after rfl

theorem hasOneBlock_iff : HasOneBlock text ↔
    (text.tails.all fun tail => (Text.after? blockOpen tail).all fun after => !Text.holds blockOpen after) = true ∧
    (text.tails.all fun tail => (Text.after? blockClose tail).all fun after => !isMarked (trim after)) = true := by
  simp only [all_behind_iff, Bool.not_eq_true', Bool.eq_false_iff, ne_eq, Text.holds_iff]
  exact ⟨fun ⟨single, unmarked⟩ => ⟨single, fun before after eq => by simp [unmarked before after eq]⟩,
    fun ⟨single, unmarked⟩ => ⟨single, fun before after eq => by simpa using unmarked before after eq⟩⟩

instance (text : List Char) : Decidable (HasOneBlock text) := decidable_of_iff _ hasOneBlock_iff.symm

theorem HasOneBlock.within {part : List Char} (h : HasOneBlock text) (inside : part <:+: text) : HasOneBlock part := by
  obtain ⟨front, back, rfl⟩ := inside
  constructor
  · rintro before after rfl again
    refine h.single (front ++ before) (after ++ back) (by simp) ?_
    exact again.trans (List.prefix_append after back).isInfix
  · rintro before after rfl
    have behind := h.unmarked (front ++ before) (after ++ back) (by simp)
    by_contra marked
    rw [isMarked_trim_append (by simpa using marked)] at behind
    cases behind

/-- What stands before a block has no mark where the text has none. -/
theorem isMarked_before (unmarked : isMarked (trim text) = false) (eq : trim text = before ++ after) :
    isMarked (trim before) = false := by
  by_contra marked
  have all := isMarked_trim_append (by simpa using marked) after
  have again : isMarked (trim (trim text)) = isMarked (trim text) := by
    rw [isMarked_trim]
    by_cases none : trim text = []
    · rw [none]
      rfl
    · have first := Text.trimLeft_trim_append none []
      rw [List.append_nil] at first
      rw [first]
  rw [← eq, again, unmarked] at all
  cases all

theorem cutAt?_eq_none {piece : List Char} (away : ¬ piece <:+: text) : cutAt? piece text = none := by
  have none : Text.holds piece text = false := by
    by_contra holds
    exact away (Text.holds_iff.mp (by simpa using holds))
  exact Option.map_eq_none_iff.mpr (Option.not_isSome_iff_eq_none.mp (Bool.not_eq_true _ ▸ none))

theorem HasOneBlock.takesOne (h : HasOneBlock (trim text)) (unmarked : isMarked (trim text) = false) : TakesOne (trim text) := by
  rw [TakesOne]
  cases cut : cutAt? blockOpen (trim text) with
  | none => exact unmarked
  | some parts =>
    obtain ⟨before, after⟩ := parts
    have eq := eq_of_cutAt? cut
    have plain := isMarked_before unmarked eq
    cases close : cutAt? blockClose after with
    | none => simpa only [close] using plain
    | some parts =>
      obtain ⟨inner, rest⟩ := parts
      have behind := eq_of_cutAt? close
      have last : ¬ blockOpen <:+: rest := fun again =>
        h.single before after eq (again.trans ⟨inner ++ blockClose, [], by rw [behind]; simp⟩)
      have left : withoutBlocks false rest = (rest, false) := withoutBlocks_of_none (cutAt?_eq_none last)
      have code := h.unmarked (before ++ (blockOpen ++ inner)) rest (by rw [eq, behind]; simp)
      simp only [close, left, code, plain, Bool.or_false, ite_self, and_self]

/-- A line with one block, or with a mark and none, fits. -/
theorem HasOneBlock.fits (h : HasOneBlock text) (inComment : isMarked (trim text) = true → ¬ blockOpen <:+: text) (inBlock : Bool) :
    Fits inBlock text := by
  have own := h.within (Text.trim_infix text)
  rw [Fits]
  cases inBlock with
  | true =>
    intro inner rest cut
    have eq := eq_of_cutAt? cut
    have inside : trim rest <:+: trim text := (Text.trim_infix rest).trans ⟨inner ++ blockClose, [], by rw [eq]; simp⟩
    exact (own.within inside).takesOne (own.unmarked inner rest eq)
  | false =>
    cases marked : isMarked (trim text) with
    | true =>
      intro before after cut
      have opens : blockOpen <:+: trim text := ⟨before, after, by rw [eq_of_cutAt? cut]; simp⟩
      exact absurd (opens.trans (Text.trim_infix text)) (inComment marked)
    | false => exact own.takesOne marked

/-! ## Texts -/

/-- Each line fits, whatever block the lines before it leave open. -/
def EachFits (inBlock : Bool) : List (List Char) → Prop
  | [] => True
  | line :: rest => Fits inBlock line ∧ EachFits (leaves inBlock line).2 rest

theorem trace_eq_iff (inBlock : Bool) (lines : List (List Char)) :
    trace counts inBlock lines = trace leaves inBlock lines ↔ EachFits inBlock lines := by
  induction lines generalizing inBlock with
  | nil => exact iff_of_true rfl trivial
  | cons line rest ih =>
    rw [trace, trace, EachFits, List.cons.injEq, counts_eq_leaves_iff, ← ih]
    refine and_congr_right fun fits => ?_
    rw [(counts_eq_leaves_iff inBlock line).mpr fits]

theorem eachFits_of_forall {inBlock : Bool} {lines : List (List Char)} (fits : ∀ line ∈ lines, ∀ inBlock, Fits inBlock line) :
    EachFits inBlock lines := by
  induction lines generalizing inBlock with
  | nil => trivial
  | cons line rest ih =>
    exact ⟨fits line List.mem_cons_self inBlock, ih fun line mem => fits line (List.mem_cons_of_mem _ mem)⟩

/-- Every line of a text is counted where text is left on it when all comments are taken out, and blocks are open alike,
exactly where each line fits. Then as many lines are counted as keep text; in particular where each line has one block, or a
mark and none. -/
theorem comments_are_taken_out (content : List Char) :
    (trace counts false (Text.lines content) = trace leaves false (Text.lines content) ↔
      EachFits false (Text.lines content)) ∧
    (EachFits false (Text.lines content) → countCodeLines content = linesWithText content) ∧
    ((∀ line ∈ Text.lines content, HasOneBlock line ∧ (isMarked (trim line) = true → ¬ blockOpen <:+: line)) →
      countCodeLines content = linesWithText content) := by
  have counted (fits : EachFits false (Text.lines content)) : countCodeLines content = linesWithText content := by
    rw [countCodeLines, countCodeFrom_eq, (trace_eq_iff false _).mpr fits, linesWithText]
  refine ⟨trace_eq_iff false _, counted, fun each => counted (eachFits_of_forall fun line mem inBlock => ?_)⟩
  obtain ⟨oneBlock, inComment⟩ := each line mem
  exact oneBlock.fits inComment inBlock

/-- Two lines keep text: one behind the end of a block, and one with two blocks on it. In the second text each line has one
block at most. -/
theorem comments_are_taken_out_twoBlocks :
    (EachFits false (Text.lines "/* a\n b */ f()\n// c\ng /* d */ /* e */".toList) ∧
      countCodeLines "/* a\n b */ f()\n// c\ng /* d */ /* e */".toList = 2) ∧
    countCodeLines "x\n/* a */ y // b\nz /* c\n*/\n# d */".toList = 3 := by
  obtain ⟨alike, counted, -⟩ := comments_are_taken_out "/* a\n b */ f()\n// c\ng /* d */ /* e */".toList
  have fits := alike.mp (by decide)
  have two : linesWithText "/* a\n b */ f()\n// c\ng /* d */ /* e */".toList = 2 := by decide
  obtain ⟨-, -, counted'⟩ := comments_are_taken_out "x\n/* a */ y // b\nz /* c\n*/\n# d */".toList
  have three : linesWithText "x\n/* a */ y // b\nz /* c\n*/\n# d */".toList = 3 := by decide
  exact ⟨⟨fits, (counted fits).trans two⟩, (counted' (by decide)).trans three⟩

/-- A comment of one line that opens a block takes the lines below it with it. -/
theorem comment_opens_block :
    countCodeLines "// a/*\nx\ny".toList = 0 ∧ linesWithText "// a/*\nx\ny".toList = 2 := by decide

end CodeHygiene.Repository
