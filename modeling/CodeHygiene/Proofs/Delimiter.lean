import CodeHygiene.Delimiter
import Mathlib.Data.List.Infix

/-!
The scan for a closing delimiter against a grammar of what may stand between two delimiters.

The grammar is a family of relations on texts, written without the automaton. `Body o c body after`
says that `body` may stand between `o` and `c`; `after` is what follows it in the text, which matters
to a slash at its end. Literals are `Escaped` texts between quotes, template literals are `Template`,
and what stands in their interpolations is `Hole`.

Proved:
- `scan_body`: the scan passes over a body, at every depth and from every offset.
- `exists_body_of_scan`: where the scan comes to an answer, a body stands before the closer.
- `scan_take`: a window only takes away the answers that lie past it.
- `closingFrom?_eq_some_iff`: an offset is answered exactly when a body stands between the delimiter
  that was asked about and a closer there, and the closer lies in the window.
-/

namespace CodeHygiene.Delimiter

/-! ## The grammar -/

/-- Characters of a kind, and backslashes with the character after each. -/
inductive Escaped (plain : Char → Prop) : List Char → Prop
  | nil : Escaped plain []
  | pair (x : Char) {rest : List Char} : Escaped plain rest → Escaped plain ('\\' :: x :: rest)
  | char {x : Char} {rest : List Char} :
      x ≠ '\\' → plain x → Escaped plain rest → Escaped plain (x :: rest)

/-- What may stand in an interpolation. -/
inductive Hole : List Char → Prop
  | nil : Hole []
  | char {x : Char} {rest : List Char} :
      x ≠ '\x7b' → x ≠ '\x7d' → isQuote x = false → Hole rest → Hole (x :: rest)
  | braces {inner rest : List Char} :
      Hole inner → Hole rest → Hole ('\x7b' :: (inner ++ '\x7d' :: rest))
  | quoted {q : Char} {items rest : List Char} :
      isQuote q = true → Escaped (· ≠ q) items → Hole rest → Hole (q :: (items ++ q :: rest))

/-- What may follow the quote that opens a template literal, the quote that closes it included. -/
inductive Template : List Char → Prop
  | close : Template [templateQuote]
  | pair (x : Char) {rest : List Char} : Template rest → Template ('\\' :: x :: rest)
  | hole {inner rest : List Char} :
      Hole inner → Template rest → Template ('$' :: '\x7b' :: (inner ++ '\x7d' :: rest))
  /-- A dollar stands for itself unless a brace follows it. -/
  | char {x : Char} {rest : List Char} :
      x ≠ '\\' → x ≠ templateQuote → ¬(x = '$' ∧ rest.head? = some '\x7b') → Template rest →
        Template (x :: rest)

/-- What may stand between the opener `o` and the closer `c`, when `after` follows it in the text. -/
inductive Body (o c : Char) : (body after : List Char) → Prop
  | nil (after : List Char) : Body o c [] after
  | char {x : Char} {rest after : List Char} :
      x ≠ o → x ≠ c → isQuote x = false → x ≠ '/' → Body o c rest after → Body o c (x :: rest) after
  | slash {rest after : List Char} :
      (rest ++ after).head? ≠ some '/' → (rest ++ after).head? ≠ some '*' → Body o c rest after →
        Body o c ('/' :: rest) after
  | nested {inner rest after : List Char} :
      Body o c inner (c :: (rest ++ after)) → Body o c rest after →
        Body o c (o :: (inner ++ c :: rest)) after
  | lineComment {line rest after : List Char} :
      '\n' ∉ line → Body o c rest after → Body o c ('/' :: '/' :: (line ++ '\n' :: rest)) after
  | blockComment {text rest after : List Char} :
      ¬['*', '/'] <:+: text → Body o c rest after →
        Body o c ('/' :: '*' :: (text ++ '*' :: '/' :: rest)) after
  /-- A plain literal ends with its quote or with its line. -/
  | literal {q e : Char} {items rest after : List Char} :
      q = '\'' ∨ q = '"' → Escaped (fun x => x ≠ q ∧ x ≠ '\n') items → e = q ∨ e = '\n' →
        Body o c rest after → Body o c (q :: (items ++ e :: rest)) after
  | template {text rest after : List Char} :
      Template text → Body o c rest after → Body o c (templateQuote :: (text ++ rest)) after

/-! ## Openers and closers -/

/-- Delimiters differ from each other and from all that opens a comment or a literal. -/
structure Apart (o c : Char) : Prop where
  ne : o ≠ c
  openNotQuote : isQuote o = false
  closeNotQuote : isQuote c = false
  openNotSlash : o ≠ '/'
  closeNotSlash : c ≠ '/'

theorem apart_of_closerOf? {o c : Char} (h : closerOf? o = some c) : Apart o c := by
  unfold closerOf? at h
  split at h
  · cases h; constructor <;> decide
  · cases h; constructor <;> decide
  · cases h; constructor <;> decide
  · cases h

theorem isQuote_iff {x : Char} : isQuote x = true ↔ (x = '\'' ∨ x = '"') ∨ x = templateQuote := by
  simp only [isQuote, Bool.or_eq_true, decide_eq_true_eq]
  tauto

theorem ne_templateQuote {q : Char} (h : q = '\'' ∨ q = '"') : q ≠ templateQuote := by
  rcases h with rfl | rfl <;> decide

theorem ne_backslash_of_isQuote {q : Char} (h : isQuote q = true) : q ≠ '\\' := by
  rintro rfl
  exact absurd h (by decide)

/-- A template literal has a first character. -/
theorem Template.head?_append {text : List Char} (h : Template text) (rest : List Char) :
    (text ++ rest).head? = text.head? := by
  cases h <;> rfl

variable {o c : Char}

/-! ## One step of the scan -/

@[simp] theorem scan_nil (m : Mode) (depth offset : Nat) : scan o c m depth offset [] = none := by
  cases m <;> rfl

/-- Outside code a character only changes the mode. -/
theorem scan_cons {m : Mode} (h : m ≠ .code) (depth offset : Nat) (x : Char) (rest : List Char) :
    scan o c m depth offset (x :: rest) = scan o c (m.step x rest.head?) depth (offset + 1) rest := by
  cases m <;> first | rfl | exact absurd rfl h

/-- In code, whatever the depth. -/
theorem scan_code (depth offset : Nat) (x : Char) (rest : List Char) :
    scan o c .code depth offset (x :: rest) =
      if x = '/' ∧ rest.head? = some '/' then scan o c .lineComment depth (offset + 1) rest
      else if x = '/' ∧ rest.head? = some '*' then scan o c .blockOpening depth (offset + 1) rest
      else if isQuote x = true then scan o c (.quoted x) depth (offset + 1) rest
      else if x = o then scan o c .code (depth + 1) (offset + 1) rest
      else if x = c then
        match depth with
        | 0 => some offset
        | depth + 1 => scan o c .code depth (offset + 1) rest
      else scan o c .code depth (offset + 1) rest := by
  cases depth <;> simp only [scan, Bool.and_eq_true, decide_eq_true_eq]

theorem scan_code_plain {x : Char} {rest : List Char} (hopen : x ≠ o) (hclose : x ≠ c)
    (hquote : isQuote x = false) (hslash : x = '/' → rest.head? ≠ some '/' ∧ rest.head? ≠ some '*')
    (depth offset : Nat) :
    scan o c .code depth offset (x :: rest) = scan o c .code depth (offset + 1) rest := by
  have hline : ¬(x = '/' ∧ rest.head? = some '/') := fun h => (hslash h.1).1 h.2
  have hblock : ¬(x = '/' ∧ rest.head? = some '*') := fun h => (hslash h.1).2 h.2
  simp only [scan_code, hline, hblock, hquote, hopen, hclose, if_false, Bool.false_eq_true]

theorem scan_code_line (depth offset : Nat) (rest : List Char) :
    scan o c .code depth offset ('/' :: '/' :: rest) = scan o c .lineComment depth (offset + 2) rest := by
  rw [scan_code, if_pos ⟨rfl, rfl⟩, scan_cons (by simp)]
  rfl

theorem scan_code_block (depth offset : Nat) (rest : List Char) :
    scan o c .code depth offset ('/' :: '*' :: rest) = scan o c .block depth (offset + 2) rest := by
  rw [scan_code, if_neg (by simp), if_pos ⟨rfl, rfl⟩, scan_cons (by simp)]
  rfl

theorem scan_code_quote {q : Char} (hq : isQuote q = true) (depth offset : Nat) (rest : List Char) :
    scan o c .code depth offset (q :: rest) = scan o c (.quoted q) depth (offset + 1) rest := by
  have hslash : q ≠ '/' := by rintro rfl; exact absurd hq (by decide)
  simp only [scan_code, hslash, false_and, if_false, hq, if_true]

theorem scan_code_open (h : Apart o c) (depth offset : Nat) (rest : List Char) :
    scan o c .code depth offset (o :: rest) = scan o c .code (depth + 1) (offset + 1) rest := by
  simp only [scan_code, h.openNotSlash, false_and, if_false, h.openNotQuote, Bool.false_eq_true, if_true]

theorem scan_code_close (h : Apart o c) (depth offset : Nat) (rest : List Char) :
    scan o c .code (depth + 1) offset (c :: rest) = scan o c .code depth (offset + 1) rest := by
  simp only [scan_code, h.closeNotSlash, false_and, if_false, h.closeNotQuote, Bool.false_eq_true,
    h.ne.symm, if_true]

theorem scan_code_end (h : Apart o c) (offset : Nat) (rest : List Char) :
    scan o c .code 0 offset (c :: rest) = some offset := by
  simp only [scan_code, h.closeNotSlash, false_and, if_false, h.closeNotQuote, Bool.false_eq_true,
    h.ne.symm, if_true]

/-- A backslash in a literal takes the next character with it. -/
theorem scan_quoted_pair (q : Char) (depth offset : Nat) (x : Char) (rest : List Char) :
    scan o c (.quoted q) depth offset ('\\' :: x :: rest) = scan o c (.quoted q) depth (offset + 2) rest := by
  rw [scan_cons (by simp), scan_cons (by simp [Mode.step, quotedStep])]
  simp only [Mode.step, quotedStep, if_true]

theorem scan_holeQuoted_pair (braces : Nat) (q : Char) (depth offset : Nat) (x : Char) (rest : List Char) :
    scan o c (.holeQuoted braces q) depth offset ('\\' :: x :: rest)
      = scan o c (.holeQuoted braces q) depth (offset + 2) rest := by
  rw [scan_cons (by simp), scan_cons (by simp [Mode.step])]
  simp only [Mode.step, if_true]

theorem scan_quoted_char {q x : Char} (hq : q ≠ templateQuote) (hback : x ≠ '\\') (hx : x ≠ q ∧ x ≠ '\n')
    (depth offset : Nat) (rest : List Char) :
    scan o c (.quoted q) depth offset (x :: rest) = scan o c (.quoted q) depth (offset + 1) rest := by
  rw [scan_cons (by simp)]
  simp only [Mode.step, quotedStep, hback, hx.1, hx.2, hq, if_false, decide_false, Bool.and_false,
    Bool.false_and, Bool.false_eq_true]

theorem scan_quoted_end {q e : Char} (hq : q = '\'' ∨ q = '"') (he : e = q ∨ e = '\n') (depth offset : Nat)
    (rest : List Char) :
    scan o c (.quoted q) depth offset (e :: rest) = scan o c .code depth (offset + 1) rest := by
  have hstep : Mode.step (.quoted q) e rest.head? = .code := by
    rcases hq with rfl | rfl <;> rcases he with rfl | rfl <;> simp [Mode.step, quotedStep, templateQuote]
  rw [scan_cons (by simp), hstep]

theorem scan_template_char {x : Char} {rest : List Char} (hback : x ≠ '\\') (hquote : x ≠ templateQuote)
    (hdollar : ¬(x = '$' ∧ rest.head? = some '\x7b')) (depth offset : Nat) :
    scan o c (.quoted templateQuote) depth offset (x :: rest)
      = scan o c (.quoted templateQuote) depth (offset + 1) rest := by
  rw [scan_cons (by simp)]
  simp only [Mode.step, quotedStep, hback, hquote, if_false, Bool.and_eq_true, decide_eq_true_eq, and_true,
    hdollar, ne_eq, not_true_eq_false, decide_false, Bool.false_eq_true, Bool.and_false]

/-- A dollar and a brace open an interpolation, and the brace that closes it leads back. -/
theorem scan_template_hole (depth offset : Nat) (rest : List Char) :
    scan o c (.quoted templateQuote) depth offset ('$' :: '\x7b' :: rest)
      = scan o c (.hole 1) depth (offset + 2) rest := by
  have hstep : Mode.step (.quoted templateQuote) '$' (some '\x7b') = .holeOpening := by decide
  rw [scan_cons (by simp), List.head?_cons, hstep, scan_cons (by simp)]
  rfl

theorem scan_hole_end (depth offset : Nat) (rest : List Char) :
    scan o c (.hole 1) depth offset ('\x7d' :: rest)
      = scan o c (.quoted templateQuote) depth (offset + 1) rest := by
  rw [scan_cons (by simp)]
  rfl

theorem scan_hole_open (braces depth offset : Nat) (rest : List Char) :
    scan o c (.hole braces) depth offset ('\x7b' :: rest)
      = scan o c (.hole (braces + 1)) depth (offset + 1) rest := by
  rw [scan_cons (by simp)]
  rfl

theorem scan_hole_close {braces : Nat} (hb : 0 < braces) (depth offset : Nat) (rest : List Char) :
    scan o c (.hole (braces + 1)) depth offset ('\x7d' :: rest)
      = scan o c (.hole braces) depth (offset + 1) rest := by
  have hdeep : ¬braces + 1 ≤ 1 := by omega
  have hstep : Mode.step (.hole (braces + 1)) '\x7d' rest.head? = .hole braces := by
    simp [Mode.step, holeStep, isQuote, templateQuote, hdeep]
  rw [scan_cons (by simp), hstep]

theorem scan_hole_quote {q : Char} (hq : isQuote q = true) (braces depth offset : Nat) (rest : List Char) :
    scan o c (.hole braces) depth offset (q :: rest)
      = scan o c (.holeQuoted braces q) depth (offset + 1) rest := by
  rw [scan_cons (by simp)]
  simp only [Mode.step, holeStep, hq, if_true]

theorem scan_hole_char {x : Char} (hopen : x ≠ '\x7b') (hclose : x ≠ '\x7d') (hquote : isQuote x = false)
    (braces depth offset : Nat) (rest : List Char) :
    scan o c (.hole braces) depth offset (x :: rest) = scan o c (.hole braces) depth (offset + 1) rest := by
  rw [scan_cons (by simp)]
  simp only [Mode.step, holeStep, hquote, hopen, hclose, if_false, Bool.false_eq_true]

theorem scan_holeQuoted_char {q x : Char} (hback : x ≠ '\\') (hx : x ≠ q) (braces depth offset : Nat)
    (rest : List Char) :
    scan o c (.holeQuoted braces q) depth offset (x :: rest)
      = scan o c (.holeQuoted braces q) depth (offset + 1) rest := by
  rw [scan_cons (by simp)]
  simp only [Mode.step, hback, hx, if_false]

theorem scan_holeQuoted_end {q : Char} (hback : q ≠ '\\') (braces depth offset : Nat) (rest : List Char) :
    scan o c (.holeQuoted braces q) depth offset (q :: rest)
      = scan o c (.hole braces) depth (offset + 1) rest := by
  rw [scan_cons (by simp)]
  simp only [Mode.step, hback, if_false, if_true]

/-! ## The scan passes over what the grammar admits -/

theorem scan_line {line : List Char} (h : '\n' ∉ line) (depth offset : Nat) (rest : List Char) :
    scan o c .lineComment depth offset (line ++ '\n' :: rest)
      = scan o c .code depth (offset + line.length + 1) rest := by
  induction line generalizing offset with
  | nil => rfl
  | cons x line ih =>
    obtain ⟨hx, hline⟩ : x ≠ '\n' ∧ '\n' ∉ line := by simpa [eq_comm] using h
    rw [List.cons_append, scan_cons (by simp)]
    simp only [Mode.step, hx, if_false, ih hline, List.length_cons]
    congr 1; omega

/-- A block goes on up to where it ends. -/
theorem step_block {x : Char} {text : List Char} (h : ¬['*', '/'] <+: x :: text) (rest : List Char) :
    Mode.step .block x (text ++ '*' :: '/' :: rest).head? = .block := by
  -- A slash after this star would end `text` too early.
  have hgo : ¬(x = '*' ∧ (text ++ '*' :: '/' :: rest).head? = some '/') := by
    rintro ⟨rfl, hhead⟩
    cases text with
    | nil => simp at hhead
    | cons y text =>
      obtain rfl : y = '/' := by simpa using hhead
      exact h ⟨text, rfl⟩
  simpa [Mode.step] using hgo

theorem scan_block {text : List Char} (h : ¬['*', '/'] <:+: text) (depth offset : Nat) (rest : List Char) :
    scan o c .block depth offset (text ++ '*' :: '/' :: rest)
      = scan o c .code depth (offset + text.length + 2) rest := by
  induction text generalizing offset with
  | nil => rfl
  | cons x text ih =>
    obtain ⟨hx, htext⟩ : ¬['*', '/'] <+: x :: text ∧ ¬['*', '/'] <:+: text := by
      simpa [List.infix_cons_iff] using h
    rw [List.cons_append, scan_cons (by simp), step_block hx, ih htext, List.length_cons]
    congr 1; omega

theorem scan_items {q : Char} (hq : q ≠ templateQuote) {items : List Char}
    (h : Escaped (fun x => x ≠ q ∧ x ≠ '\n') items) (depth offset : Nat) (rest : List Char) :
    scan o c (.quoted q) depth offset (items ++ rest)
      = scan o c (.quoted q) depth (offset + items.length) rest := by
  induction h generalizing offset with
  | nil => rfl
  | pair x _ ih =>
    simp only [List.cons_append, scan_quoted_pair, ih, List.length_cons]
    congr 1; omega
  | char hback hx _ ih =>
    rw [List.cons_append, scan_quoted_char hq hback hx, ih, List.length_cons]
    congr 1; omega

theorem scan_holeItems {q : Char} {items : List Char} (h : Escaped (· ≠ q) items) (braces depth offset : Nat)
    (rest : List Char) :
    scan o c (.holeQuoted braces q) depth offset (items ++ rest)
      = scan o c (.holeQuoted braces q) depth (offset + items.length) rest := by
  induction h generalizing offset with
  | nil => rfl
  | pair x _ ih =>
    simp only [List.cons_append, scan_holeQuoted_pair, ih, List.length_cons]
    congr 1; omega
  | char hback hx _ ih =>
    rw [List.cons_append, scan_holeQuoted_char hback hx, ih, List.length_cons]
    congr 1; omega

/-- In an interpolation, with `braces` of them open. -/
theorem scan_hole {inner : List Char} (h : Hole inner) {braces : Nat} (hb : 0 < braces) (depth offset : Nat)
    (rest : List Char) :
    scan o c (.hole braces) depth offset (inner ++ rest)
      = scan o c (.hole braces) depth (offset + inner.length) rest := by
  induction h generalizing braces offset rest with
  | nil => rfl
  | char hopen hclose hquote _ ih =>
    rw [List.cons_append, scan_hole_char hopen hclose hquote, ih hb, List.length_cons]
    congr 1; omega
  | braces _ _ ihInner ihTail =>
    simp only [List.cons_append, List.append_assoc]
    rw [scan_hole_open, ihInner (by omega), scan_hole_close hb, ihTail hb]
    congr 1
    simp only [List.length_cons, List.length_append]
    omega
  | quoted hq hitems _ ih =>
    simp only [List.cons_append, List.append_assoc]
    rw [scan_hole_quote hq, scan_holeItems hitems, scan_holeQuoted_end (ne_backslash_of_isQuote hq), ih hb]
    congr 1
    simp only [List.length_cons, List.length_append]
    omega

theorem scan_template {text : List Char} (h : Template text) (depth offset : Nat) (rest : List Char) :
    scan o c (.quoted templateQuote) depth offset (text ++ rest)
      = scan o c .code depth (offset + text.length) rest := by
  induction h generalizing offset with
  | close => rfl
  | pair x _ ih =>
    simp only [List.cons_append, scan_quoted_pair, ih, List.length_cons]
    congr 1; omega
  | hole hinner _ ih =>
    simp only [List.cons_append, List.append_assoc]
    rw [scan_template_hole, scan_hole hinner (by omega), scan_hole_end, ih]
    congr 1
    simp only [List.length_cons, List.length_append]
    omega
  | char hback hquote hdollar htail ih =>
    rw [← htail.head?_append rest] at hdollar
    rw [List.cons_append, scan_template_char hback hquote hdollar, ih, List.length_cons]
    congr 1; omega

/-- The scan passes over a body, however deep it stands. -/
theorem scan_body (hoc : Apart o c) {body after : List Char} (h : Body o c body after) (depth offset : Nat) :
    scan o c .code depth offset (body ++ after) = scan o c .code depth (offset + body.length) after := by
  induction h generalizing depth offset with
  | nil after => rfl
  | char hopen hclose hquote hslash _ ih =>
    rw [List.cons_append, scan_code_plain hopen hclose hquote (fun h => absurd h hslash), ih, List.length_cons]
    congr 1; omega
  | slash hline hblock _ ih =>
    rw [List.cons_append, scan_code_plain hoc.openNotSlash.symm hoc.closeNotSlash.symm (by decide)
      (fun _ => ⟨hline, hblock⟩), ih, List.length_cons]
    congr 1; omega
  | nested _ _ ihInner ihRest =>
    simp only [List.cons_append, List.append_assoc]
    rw [scan_code_open hoc, ihInner, scan_code_close hoc, ihRest]
    congr 1
    simp only [List.length_cons, List.length_append]
    omega
  | lineComment hline _ ih =>
    simp only [List.cons_append, List.append_assoc]
    rw [scan_code_line, scan_line hline, ih]
    congr 1
    simp only [List.length_cons, List.length_append]
    omega
  | blockComment htext _ ih =>
    simp only [List.cons_append, List.append_assoc]
    rw [scan_code_block, scan_block htext, ih]
    congr 1
    simp only [List.length_cons, List.length_append]
    omega
  | literal hq hitems he _ ih =>
    simp only [List.cons_append, List.append_assoc]
    rw [scan_code_quote (isQuote_iff.mpr (Or.inl hq)), scan_items (ne_templateQuote hq) hitems,
      scan_quoted_end hq he, ih]
    congr 1
    simp only [List.length_cons, List.length_append]
    omega
  | template htext _ ih =>
    rw [List.cons_append, List.append_assoc, scan_code_quote (by decide), scan_template htext, ih]
    congr 1
    simp only [List.length_cons, List.length_append]
    omega

/-! ## Where the scan comes to an answer, the grammar admits what it passed -/

section Answers

variable {depth offset i : Nat} {text : List Char}

theorem exists_line_of_scan (h : scan o c .lineComment depth offset text = some i) :
    ∃ line rest, text = line ++ '\n' :: rest ∧ '\n' ∉ line := by
  induction text generalizing offset with
  | nil => simp at h
  | cons x text ih =>
    by_cases hx : x = '\n'
    · subst hx
      exact ⟨[], text, rfl, by simp⟩
    · rw [scan_cons (by simp)] at h
      simp only [Mode.step, hx, if_false] at h
      obtain ⟨line, rest, rfl, hline⟩ := ih h
      exact ⟨x :: line, rest, rfl, by simp [Ne.symm hx, hline]⟩

theorem exists_block_of_scan (h : scan o c .block depth offset text = some i) :
    ∃ inner rest, text = inner ++ '*' :: '/' :: rest ∧ ¬['*', '/'] <:+: inner := by
  induction text generalizing offset with
  | nil => simp at h
  | cons x text ih =>
    by_cases hend : x = '*' ∧ text.head? = some '/'
    · obtain ⟨rfl, hhead⟩ := hend
      obtain ⟨rest, rfl⟩ := List.head?_eq_some_iff.mp hhead
      exact ⟨[], rest, rfl, by simp⟩
    · have hstep : Mode.step .block x text.head? = .block := by
        simpa [Mode.step] using hend
      rw [scan_cons (by simp), hstep] at h
      obtain ⟨inner, rest, rfl, hinner⟩ := ih h
      refine ⟨x :: inner, rest, rfl, ?_⟩
      rw [List.infix_cons_iff, not_or]
      refine ⟨?_, hinner⟩
      rintro ⟨tail, htail⟩
      obtain ⟨rfl, rfl⟩ : '*' = x ∧ '/' :: tail = inner := by simpa using htail
      exact hend ⟨rfl, rfl⟩

-- A backslash takes two characters at once, so from here on the induction is on the length.

theorem exists_items_of_scan {q : Char} (hq : q ≠ templateQuote)
    (h : scan o c (.quoted q) depth offset text = some i) :
    ∃ items e rest, text = items ++ e :: rest ∧ Escaped (fun x => x ≠ q ∧ x ≠ '\n') items
      ∧ (e = q ∨ e = '\n') := by
  induction hn : text.length using Nat.strong_induction_on generalizing offset text with
  | _ n ih =>
    rcases text with _ | ⟨x, text⟩
    · simp at h
    simp only [List.length_cons] at hn
    by_cases hback : x = '\\'
    · subst hback
      rcases text with _ | ⟨y, text⟩
      · rw [scan_cons (by simp), scan_nil] at h
        cases h
      rw [scan_quoted_pair] at h
      simp only [List.length_cons] at hn
      obtain ⟨items, e, rest, rfl, hitems, he⟩ := ih _ (by omega) h rfl
      exact ⟨'\\' :: y :: items, e, rest, rfl, .pair y hitems, he⟩
    by_cases hend : x = q ∨ x = '\n'
    · exact ⟨[], x, text, rfl, .nil, hend⟩
    · rw [not_or] at hend
      rw [scan_quoted_char hq hback hend] at h
      obtain ⟨items, e, rest, rfl, hitems, he⟩ := ih _ (by omega) h rfl
      exact ⟨x :: items, e, rest, rfl, .char hback hend hitems, he⟩

theorem exists_holeItems_of_scan {q : Char} {braces : Nat}
    (h : scan o c (.holeQuoted braces q) depth offset text = some i) :
    ∃ items rest, text = items ++ q :: rest ∧ Escaped (· ≠ q) items := by
  induction hn : text.length using Nat.strong_induction_on generalizing offset text with
  | _ n ih =>
    rcases text with _ | ⟨x, text⟩
    · simp at h
    simp only [List.length_cons] at hn
    by_cases hend : x = q
    · subst hend
      exact ⟨[], text, rfl, .nil⟩
    by_cases hback : x = '\\'
    · subst hback
      rcases text with _ | ⟨y, text⟩
      · rw [scan_cons (by simp), scan_nil] at h
        cases h
      rw [scan_holeQuoted_pair] at h
      simp only [List.length_cons] at hn
      obtain ⟨items, rest, rfl, hitems⟩ := ih _ (by omega) h rfl
      exact ⟨'\\' :: y :: items, rest, rfl, .pair y hitems⟩
    · rw [scan_holeQuoted_char hback hend] at h
      obtain ⟨items, rest, rfl, hitems⟩ := ih _ (by omega) h rfl
      exact ⟨x :: items, rest, rfl, .char hback hend hitems⟩

theorem exists_hole_of_scan {braces : Nat} (hb : 0 < braces)
    (h : scan o c (.hole braces) depth offset text = some i) :
    ∃ inner rest, text = inner ++ '\x7d' :: rest ∧ Hole inner := by
  induction hn : text.length using Nat.strong_induction_on generalizing braces offset text with
  | _ n ih =>
    rcases text with _ | ⟨x, text⟩
    · simp at h
    simp only [List.length_cons] at hn
    by_cases hquote : isQuote x = true
    · rw [scan_hole_quote hquote] at h
      obtain ⟨items, rest, rfl, hitems⟩ := exists_holeItems_of_scan h
      rw [scan_holeItems hitems, scan_holeQuoted_end (ne_backslash_of_isQuote hquote)] at h
      simp only [List.length_append, List.length_cons] at hn
      obtain ⟨inner, rest, rfl, hinner⟩ := ih _ (by omega) hb h rfl
      exact ⟨x :: (items ++ x :: inner), rest, by simp, .quoted hquote hitems hinner⟩
    by_cases hopen : x = '\x7b'
    · subst hopen
      rw [scan_hole_open] at h
      -- First what stands in the inner braces, then what follows them.
      obtain ⟨inner, rest, rfl, hinner⟩ := ih _ (by omega) (by omega) h rfl
      rw [scan_hole hinner (by omega), scan_hole_close hb] at h
      simp only [List.length_append, List.length_cons] at hn
      obtain ⟨more, rest, rfl, hmore⟩ := ih _ (by omega) hb h rfl
      exact ⟨'\x7b' :: (inner ++ '\x7d' :: more), rest, by simp, .braces hinner hmore⟩
    by_cases hclose : x = '\x7d'
    · subst hclose
      exact ⟨[], text, rfl, .nil⟩
    · rw [Bool.not_eq_true] at hquote
      rw [scan_hole_char hopen hclose hquote] at h
      obtain ⟨inner, rest, rfl, hinner⟩ := ih _ (by omega) hb h rfl
      exact ⟨x :: inner, rest, rfl, .char hopen hclose hquote hinner⟩

theorem exists_template_of_scan (h : scan o c (.quoted templateQuote) depth offset text = some i) :
    ∃ literal rest, text = literal ++ rest ∧ Template literal := by
  induction hn : text.length using Nat.strong_induction_on generalizing offset text with
  | _ n ih =>
    rcases text with _ | ⟨x, text⟩
    · simp at h
    simp only [List.length_cons] at hn
    by_cases hback : x = '\\'
    · subst hback
      rcases text with _ | ⟨y, text⟩
      · rw [scan_cons (by simp), scan_nil] at h
        cases h
      rw [scan_quoted_pair] at h
      simp only [List.length_cons] at hn
      obtain ⟨literal, rest, rfl, hliteral⟩ := ih _ (by omega) h rfl
      exact ⟨'\\' :: y :: literal, rest, rfl, .pair y hliteral⟩
    by_cases hquote : x = templateQuote
    · subst hquote
      exact ⟨[templateQuote], text, rfl, .close⟩
    by_cases hdollar : x = '$' ∧ text.head? = some '\x7b'
    · obtain ⟨rfl, hhead⟩ := hdollar
      obtain ⟨text, rfl⟩ := List.head?_eq_some_iff.mp hhead
      rw [scan_template_hole] at h
      obtain ⟨inner, rest, rfl, hinner⟩ := exists_hole_of_scan (by omega) h
      rw [scan_hole hinner (by omega), scan_hole_end] at h
      simp only [List.length_append, List.length_cons] at hn
      obtain ⟨literal, rest, rfl, hliteral⟩ := ih _ (by omega) h rfl
      exact ⟨'$' :: '\x7b' :: (inner ++ '\x7d' :: literal), rest, by simp, .hole hinner hliteral⟩
    · rw [scan_template_char hback hquote hdollar] at h
      obtain ⟨literal, rest, rfl, hliteral⟩ := ih _ (by omega) h rfl
      rw [hliteral.head?_append] at hdollar
      exact ⟨x :: literal, rest, rfl, .char hback hquote hdollar hliteral⟩

/-- Before an answer stands a body with its closer: the one that is asked for, or one that leads a level
up. -/
theorem exists_body_of_scan (hoc : Apart o c) (h : scan o c .code depth offset text = some i) :
    ∃ body after, text = body ++ c :: after ∧ Body o c body (c :: after) := by
  induction hn : text.length using Nat.strong_induction_on generalizing depth offset text with
  | _ n ih =>
    rcases text with _ | ⟨x, text⟩
    · simp at h
    simp only [List.length_cons] at hn
    by_cases hclose : x = c
    · subst hclose
      exact ⟨[], text, rfl, .nil _⟩
    by_cases hline : x = '/' ∧ text.head? = some '/'
    · obtain ⟨rfl, hhead⟩ := hline
      obtain ⟨text, rfl⟩ := List.head?_eq_some_iff.mp hhead
      rw [scan_code_line] at h
      obtain ⟨line, rest, rfl, hline⟩ := exists_line_of_scan h
      rw [scan_line hline] at h
      simp only [List.length_append, List.length_cons] at hn
      obtain ⟨body, after, rfl, hbody⟩ := ih _ (by omega) h rfl
      exact ⟨'/' :: '/' :: (line ++ '\n' :: body), after, by simp, .lineComment hline hbody⟩
    by_cases hblock : x = '/' ∧ text.head? = some '*'
    · obtain ⟨rfl, hhead⟩ := hblock
      obtain ⟨text, rfl⟩ := List.head?_eq_some_iff.mp hhead
      rw [scan_code_block] at h
      obtain ⟨inner, rest, rfl, hinner⟩ := exists_block_of_scan h
      rw [scan_block hinner] at h
      simp only [List.length_append, List.length_cons] at hn
      obtain ⟨body, after, rfl, hbody⟩ := ih _ (by omega) h rfl
      exact ⟨'/' :: '*' :: (inner ++ '*' :: '/' :: body), after, by simp, .blockComment hinner hbody⟩
    by_cases hquote : isQuote x = true
    · rw [scan_code_quote hquote] at h
      rcases isQuote_iff.mp hquote with hplain | rfl
      · obtain ⟨items, e, rest, rfl, hitems, he⟩ := exists_items_of_scan (ne_templateQuote hplain) h
        rw [scan_items (ne_templateQuote hplain) hitems, scan_quoted_end hplain he] at h
        simp only [List.length_append, List.length_cons] at hn
        obtain ⟨body, after, rfl, hbody⟩ := ih _ (by omega) h rfl
        exact ⟨x :: (items ++ e :: body), after, by simp, .literal hplain hitems he hbody⟩
      · obtain ⟨literal, rest, rfl, hliteral⟩ := exists_template_of_scan h
        rw [scan_template hliteral] at h
        simp only [List.length_append] at hn
        obtain ⟨body, after, rfl, hbody⟩ := ih _ (by omega) h rfl
        exact ⟨templateQuote :: (literal ++ body), after, by simp, .template hliteral hbody⟩
    rw [Bool.not_eq_true] at hquote
    by_cases hopen : x = o
    · subst hopen
      rw [scan_code_open hoc] at h
      -- The answer one level deeper gives the inner body; its closer leads back to this level.
      obtain ⟨inner, rest, rfl, hinner⟩ := ih _ (by omega) h rfl
      rw [scan_body hoc hinner, scan_code_close hoc] at h
      simp only [List.length_append, List.length_cons] at hn
      obtain ⟨body, after, rfl, hbody⟩ := ih _ (by omega) h rfl
      exact ⟨x :: (inner ++ c :: body), after, by simp, .nested hinner hbody⟩
    · have hslash : x = '/' → text.head? ≠ some '/' ∧ text.head? ≠ some '*' :=
        fun hx => ⟨fun e => hline ⟨hx, e⟩, fun e => hblock ⟨hx, e⟩⟩
      rw [scan_code_plain hopen hclose hquote hslash] at h
      obtain ⟨body, after, rfl, hbody⟩ := ih _ (by omega) h rfl
      by_cases hx : x = '/'
      · subst hx
        exact ⟨'/' :: body, after, rfl, .slash (hslash rfl).1 (hslash rfl).2 hbody⟩
      · exact ⟨x :: body, after, rfl, .char hopen hclose hquote hx hbody⟩

end Answers

/-! ## The window -/

theorem le_of_scan {m : Mode} {depth offset i : Nat} {text : List Char}
    (h : scan o c m depth offset text = some i) : offset ≤ i := by
  induction text generalizing m depth offset with
  | nil => simp at h
  | cons x text ih =>
    by_cases hm : m = .code
    · subst hm
      rw [scan_code] at h
      repeat' split at h
      all_goals first
        | exact Nat.le_of_succ_le (ih h)
        | simp_all
    · rw [scan_cons hm] at h
      exact Nat.le_of_succ_le (ih h)

/-- Only a closer in code, with nothing else open, is an answer; what follows it does not matter. -/
theorem scan_eq_offset_iff (hoc : Apart o c) {m : Mode} {depth offset : Nat} {x : Char} {rest : List Char} :
    scan o c m depth offset (x :: rest) = some offset ↔ m = .code ∧ depth = 0 ∧ x = c := by
  have hlate : ∀ {m' : Mode} {depth' : Nat}, scan o c m' depth' (offset + 1) rest ≠ some offset :=
    fun h => absurd (le_of_scan h) (by omega)
  constructor
  · intro h
    by_cases hm : m = .code
    · subst hm
      rw [scan_code] at h
      repeat' split at h
      all_goals first
        | exact absurd h hlate
        | exact ⟨rfl, rfl, ‹x = c›⟩
    · rw [scan_cons hm] at h
      exact absurd h hlate
  · rintro ⟨rfl, rfl, rfl⟩
    exact scan_code_end hoc offset rest

theorem eq_of_scan_singleton {m : Mode} {depth offset i : Nat} {x : Char}
    (h : scan o c m depth offset [x] = some i) : i = offset := by
  by_cases hm : m = .code
  · subst hm
    rw [scan_code] at h
    repeat' split at h
    all_goals simp_all
  · rw [scan_cons hm, scan_nil] at h
    cases h

/-- A window of `n` characters takes away the answers past it and no others. -/
theorem scan_take (hoc : Apart o c) {m : Mode} {depth offset i n : Nat} {text : List Char} :
    scan o c m depth offset (text.take n) = some i ↔ scan o c m depth offset text = some i ∧ i < offset + n := by
  induction text generalizing m depth offset n with
  | nil => simp
  | cons x text ih =>
    rcases n with _ | _ | n
    · simp only [List.take_zero, scan_nil, Nat.add_zero, reduceCtorEq, false_iff, not_and]
      intro h
      have := le_of_scan h
      omega
    · rw [List.take_succ_cons, List.take_zero]
      constructor
      · intro h
        obtain rfl : i = offset := eq_of_scan_singleton h
        exact ⟨(scan_eq_offset_iff hoc).mpr ((scan_eq_offset_iff hoc).mp h), by omega⟩
      · rintro ⟨h, hi⟩
        obtain rfl : i = offset := by have := le_of_scan h; omega
        exact (scan_eq_offset_iff hoc).mpr ((scan_eq_offset_iff hoc).mp h)
    · have hhead : (text.take (n + 1)).head? = text.head? := by cases text <;> rfl
      have hrest : ∀ {m' : Mode} {depth' : Nat},
          scan o c m' depth' (offset + 1) (text.take (n + 1)) = some i
            ↔ scan o c m' depth' (offset + 1) text = some i ∧ i < offset + (n + 2) := by
        intro m' depth'
        rw [ih, show offset + 1 + (n + 1) = offset + (n + 2) by omega]
      rw [List.take_succ_cons]
      by_cases hm : m = .code
      · subst hm
        rw [scan_code, scan_code, hhead]
        repeat' split
        all_goals first
          | exact hrest
          | simp only [Option.some.injEq]; omega
      · rw [scan_cons hm, scan_cons hm, hhead]
        exact hrest

/-! ## The closing delimiter -/

/-- An offset answers for the delimiter at `opening` exactly when it is that of a closer in the window and
a body stands between the two; else there is no answer. -/
theorem closingFrom?_eq_some_iff (content : List Char) (opening window : Int) (i : Nat) :
    closingFrom? content opening window = some i ↔
      ∃ o c before body after, closerOf? o = some c ∧ content = before ++ o :: (body ++ c :: after)
        ∧ opening = before.length ∧ i = before.length + 1 + body.length ∧ i ≤ opening + window
        ∧ Body o c body (c :: after) := by
  constructor
  · intro h
    unfold closingFrom? at h
    split at h
    · cases h
    rename_i hopening
    obtain ⟨k, rfl⟩ : ∃ k : Nat, opening = k := ⟨opening.toNat, by omega⟩
    rw [Int.toNat_natCast, closing?] at h
    split at h
    · cases h
    rename_i o rest hdrop
    split at h
    · cases h
    rename_i c hcloser
    have hoc := apart_of_closerOf? hcloser
    obtain ⟨hscan, hwindow⟩ := (scan_take hoc).mp h
    obtain ⟨body, after, rfl, hbody⟩ := exists_body_of_scan hoc hscan
    rw [scan_body hoc hbody, scan_code_end hoc, Option.some.injEq] at hscan
    have hlength : k ≤ content.length := by
      by_contra hk
      rw [List.drop_eq_nil_of_le (by omega)] at hdrop
      cases hdrop
    refine ⟨o, c, content.take k, body, after, hcloser, ?_, ?_, ?_, by omega, hbody⟩
    · rw [← hdrop, List.take_append_drop]
    · simp [hlength]
    · simp only [List.length_take]; omega
  · rintro ⟨o, c, before, body, after, hcloser, rfl, rfl, rfl, hwindow, hbody⟩
    have hoc := apart_of_closerOf? hcloser
    have hdrop : (before ++ o :: (body ++ c :: after)).drop before.length = o :: (body ++ c :: after) := by
      simp
    rw [closingFrom?, if_neg (by omega), Int.toNat_natCast, closing?, hdrop]
    simp only [hcloser]
    rw [scan_take hoc, scan_body hoc hbody, scan_code_end hoc]
    exact ⟨rfl, by omega⟩

end CodeHygiene.Delimiter
