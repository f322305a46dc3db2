import CodeHygiene.Delimiter
import CodeHygiene.Language
import CodeHygiene.Proofs.Returns

/-!
What the characters of a source file belong to: code, a comment, a literal or, in Python, a docstring.

A file is read line by line from left to right; what is open at the end of a line is carried into the next (`State`). Block
comments are nested in Rust only. Literals are those of each language: with or without escapes, on one line or on several,
raw ones, regular expressions, and templates with code in them. Line comments end with the line; in some languages other
characters end a line, too (`endsLine`).

What only a parser can tell of a place is given as its answers, by line and offset (`Parsing`): whether a slash in JavaScript
divides or opens a regular expression, where text and values of attributes stand in tags, and whether a string in Python
documents what it stands in. Python is read as before 3.12: the first quote of its kind ends a string. Not covered are escapes
that Java takes for other characters before it reads them, comments that browsers take over from the page around a script, and
a first line for the interpreter of a script.

Proved:
(1) In code blanks are code, and what opens begins with a visible character (`readFrom_blanks`, `opened?_of_blank`).
(2) A block comment, and a literal of several lines, go on as long as what closes them does not stand (`readFrom_block`,
    `readFrom_literal`).
(3) Where block comments do not nest, one that fills its line is closed when its end stands there (`readFrom_block_of_closed`).
-/

namespace CodeHygiene

namespace Text

theorem isBlank_of_isWord {c : Char} (word : isWord c = true) : isBlank c = false := by
  have apart : (blankRanges.all fun r => (List.range' r.1 (r.2 + 1 - r.1)).all fun n => !isWord (Char.ofNat n)) = true := by
    decide +kernel
  refine Bool.eq_false_iff.mpr fun blank => ?_
  obtain ⟨r, among, within⟩ := List.any_eq_true.mp blank
  simp only [Bool.and_eq_true, decide_eq_true_eq] at within
  have other := List.all_eq_true.mp (List.all_eq_true.mp apart r among) c.toNat (List.mem_range'_1.mpr (by omega))
  rw [Char.ofNat_toNat, word] at other
  cases other

theorem isWord_of_isBlank {c : Char} (blank : isBlank c = true) : isWord c = false :=
  Bool.eq_false_iff.mpr fun word => by
    rw [isBlank_of_isWord word] at blank
    cases blank

end Text

namespace Lexis

open Text (startsWith isBlank isWord isWord_of_isBlank)

/-- What a character belongs to. -/
inductive Kind where
  | code
  | comment
  | literal
  | docstring
  deriving DecidableEq, Repr

/-- Comments and docstrings are for readers. -/
def Kind.isNote : Kind → Bool
  | .comment | .docstring => true
  | .code | .literal => false

/-- What a character belongs to, and whether it is the first of its comment or literal. -/
structure Mark where
  kind : Kind
  opens : Bool
  deriving DecidableEq, Repr

/-- It goes on with a comment or a docstring that was open before. -/
def Mark.continues (m : Mark) : Bool := m.kind.isNote && !m.opens

structure Literal where
  kind : Kind
  /-- What closes it. -/
  stop : List Char
  /-- A backslash takes the next character with it. -/
  escapes : Bool
  multiline : Bool
  /-- Code may stand in it, in braces behind a dollar sign. -/
  embeds : Bool
  /-- Between brackets, what closes it does not. -/
  classes : Bool
  deriving DecidableEq, Repr

inductive Mode where
  | code
  | lineComment
  /-- A block comment, with the number of those it stands in. -/
  | block (depth : Nat)
  | literal (lit : Literal) (bracketed : Bool)
  /-- Between tags. -/
  | text
  deriving DecidableEq, Repr

/-- Where the reading stands, and the braces open in each piece of code that a template holds, innermost first. -/
structure State where
  mode : Mode
  embedded : List Nat
  deriving DecidableEq, Repr

def Mode.kind : Mode → Kind
  | .code => .code
  | .lineComment | .block _ => .comment
  | .literal lit _ => lit.kind
  | .text => .literal

/-- What only a parser can tell of a place in code. -/
inductive Answer where
  | nothing
  /-- A slash opens a regular expression. -/
  | expression
  /-- A quote opens the value of an attribute. -/
  | attribute
  /-- Text between tags begins with a visible character. -/
  | text
  /-- A string documents. -/
  | documentation
  deriving DecidableEq, Repr

/-- By line, counted from one, and offset in it. -/
abbrev Parsing := Nat → Nat → Answer

/-! ## Literals -/

/-- A literal between two quotes of one line, with escapes. -/
def quoted (quote : Char) : Literal := ⟨.literal, [quote], true, false, false, false⟩

def template : Literal := ⟨.literal, [Delimiter.templateQuote], true, true, true, false⟩

def regularExpression : Literal := ⟨.literal, ['/'], true, false, false, true⟩

def raw (stop : List Char) : Literal := ⟨.literal, stop, false, true, false, false⟩

/-- Between three quotes, over several lines. -/
def tripled (quote : Char) : Literal := ⟨.literal, [quote, quote, quote], true, true, false, false⟩

/-- The literals that open with what closes them, in the order in which they are tried. -/
def literals (l : Language) (parsed : Answer) : List Literal :=
  match l with
  | .javascript =>
    if parsed = .attribute then [raw ['"'], raw ['\'']]
    else [quoted '"', quoted '\'', template] ++ if parsed = .expression then [regularExpression] else []
  | .java => [tripled '"', quoted '"', quoted '\'']
  | .go => [quoted '"', quoted '\'', raw [Delimiter.templateQuote]]
  | .rust => [{ quoted '"' with multiline := true }]
  | .python => [tripled '\'', tripled '"', quoted '\'', quoted '"'].map fun lit =>
      { lit with kind := if parsed = .documentation then .docstring else .literal }

/-- A prefix, as many number signs as close it, and a quote. -/
def rawString? (text : List Char) : Option (Nat × Literal) :=
  let mark := text.takeWhile isWord
  let hashes := (text.drop mark.length).takeWhile (· = '#')
  let behind := text.drop (mark.length + hashes.length)
  if ["r".toList, "br".toList, "cr".toList].contains mark && behind.head? = some '"' then
    some (mark.length + hashes.length + 1, raw ('"' :: hashes))
  else none

/-- A quote that is not closed behind one character names a lifetime. -/
def character? : List Char → Option (Nat × Literal)
  | '\'' :: '\\' :: _ => some (1, quoted '\'')
  | '\'' :: _ :: '\'' :: _ => some (1, quoted '\'')
  | _ => none

/-- The literal that opens at the start of a text, and the width of what opens it. -/
def literal? (l : Language) (parsed : Answer) (text : List Char) : Option (Nat × Literal) :=
  let special := if l = .rust then (rawString? text).or (character? text) else none
  special.or (((literals l parsed).find? fun lit => startsWith lit.stop text).map fun lit => (lit.stop.length, lit))

/-- What opens at the start of a text in code, and its width. -/
def opened? (l : Language) (parsed : Answer) (text : List Char) : Option (Nat × Mode) :=
  if l = .javascript && parsed = .text && text.head?.any (!isBlank ·) then some (1, .text)
  else if startsWith l.marks.line text then some (l.marks.line.length, .lineComment)
  else if l ≠ .python && startsWith l.marks.blockStart text then some (l.marks.blockStart.length, .block 0)
  else (literal? l parsed text).map fun (width, lit) => (width, .literal lit false)

/-! ## Reading -/

/-- Characters other than a line feed that end a line. -/
def endsLine : Language → Char → Bool
  | .javascript, c => c = '\r' || c = '\u2028' || c = '\u2029'
  | .java, c | .python, c => c = '\r'
  | .rust, _ | .go, _ => false

/-- The braces of the code in a template are counted, and the last one leads back into it. -/
def State.brace (s : State) (c : Char) : State :=
  match s.embedded with
  | [] => s
  | depth :: outer =>
    if c = '\x7b' then { s with embedded := (depth + 1) :: outer }
    else if c = '\x7d' then
      match depth with
      | 0 => ⟨.literal template false, outer⟩
      | depth + 1 => { s with embedded := depth :: outer }
    else s

/-- A token that begins at a character: what the character belongs to, the width of the token, and what follows. A name is one
token. -/
structure Token where
  mark : Mark
  width : Nat
  next : State

def inCode (l : Language) (parsed : Answer) (s : State) (c : Char) (rest : List Char) : Token :=
  match opened? l parsed (c :: rest) with
  | some (width, mode) => ⟨⟨mode.kind, true⟩, width, { s with mode }⟩
  | none => ⟨⟨.code, false⟩, max 1 ((c :: rest).takeWhile isWord).length, s.brace c⟩

def inBlock (l : Language) (depth : Nat) (s : State) (text : List Char) : Token :=
  if startsWith l.marks.blockEnd text then
    ⟨⟨.comment, false⟩, l.marks.blockEnd.length, { s with mode := if depth = 0 then .code else .block (depth - 1) }⟩
  else if l = .rust && startsWith l.marks.blockStart text then
    ⟨⟨.comment, false⟩, l.marks.blockStart.length, { s with mode := .block (depth + 1) }⟩
  else ⟨⟨.comment, false⟩, 1, s⟩

def inLiteral (lit : Literal) (bracketed : Bool) (s : State) (c : Char) (rest : List Char) : Token :=
  if lit.escapes && c = '\\' then ⟨⟨lit.kind, false⟩, if rest = ['\r'] then 3 else 2, s⟩
  else if !bracketed && startsWith lit.stop (c :: rest) then ⟨⟨lit.kind, false⟩, lit.stop.length, { s with mode := .code }⟩
  else if lit.embeds && startsWith ['$', '\x7b'] (c :: rest) then ⟨⟨lit.kind, false⟩, 2, ⟨.code, 0 :: s.embedded⟩⟩
  else ⟨⟨lit.kind, false⟩, 1, { s with mode := .literal lit (lit.classes && (c = '[' || bracketed && c ≠ ']')) }⟩

def token (l : Language) (parsed : Answer) (s : State) (c : Char) (rest : List Char) : Token :=
  match s.mode with
  | .code => inCode l parsed s c rest
  | .lineComment =>
    if endsLine l c then ⟨⟨.code, false⟩, 1, { s with mode := .code }⟩ else ⟨⟨.comment, false⟩, 1, s⟩
  | .block depth => inBlock l depth s (c :: rest)
  | .literal lit bracketed => inLiteral lit bracketed s c rest
  | .text =>
    if c = '<' || c = '\x7b' then inCode l parsed { s with mode := .code } c rest else ⟨⟨.literal, false⟩, 1, s⟩

/-- A line comment ends with the line, and so does a literal of one line whose line feed is not escaped. -/
def State.atLineEnd (s : State) (escaped : Bool) : State :=
  match s.mode with
  | .lineComment => { s with mode := .code }
  | .literal lit _ => if lit.multiline || escaped then s else { s with mode := .code }
  | .code | .block _ | .text => s

/-- What the characters of a line belong to from an offset on, and the state behind it. `left` characters of a token are not
read yet, which belong to `kind`. -/
def readFrom (l : Language) (parsed : Nat → Answer) (offset left : Nat) (kind : Kind) (s : State) :
    List Char → List Mark × State
  | [] => ([], s.atLineEnd (left ≠ 0))
  | c :: rest =>
    match left with
    | left + 1 =>
      let (marks, behind) := readFrom l parsed (offset + 1) left kind s rest
      (⟨kind, false⟩ :: marks, behind)
    | 0 =>
      let t := token l (parsed offset) s c rest
      let (marks, behind) := readFrom l parsed (offset + 1) (t.width - 1) t.mark.kind t.next rest
      (t.mark :: marks, behind)

def readLine (l : Language) (parsed : Nat → Answer) (s : State) (line : List Char) : List Mark × State :=
  readFrom l parsed 0 0 .code s line

def readLines (l : Language) (parsed : Parsing) (number : Nat) (s : State) : List (List Char) → List (List Mark)
  | [] => []
  | line :: rest =>
    let (marks, behind) := readLine l (parsed number) s line
    marks :: readLines l parsed (number + 1) behind rest

/-- What the characters of each line of a file belong to. -/
def marks (l : Language) (parsed : Parsing) (content : List Char) : List (List Mark) :=
  readLines l parsed 1 ⟨.code, []⟩ (Text.lines content)

/-- The same for one line, counted from one. -/
def marksAt (l : Language) (parsed : Parsing) (content : List Char) (number : Nat) : List Mark :=
  (marks l parsed content).getD (number - 1) []

/-- The characters between two offsets of a line belong to one comment or one docstring. -/
def InNote (marks : List Mark) (start stop : Nat) : Prop :=
  ∀ k < stop, start ≤ k → ∃ m ∈ marks[k]?, m.kind.isNote = true ∧ (start < k → m.opens = false)

instance (marks : List Mark) (start stop : Nat) : Decidable (InNote marks start stop) :=
  inferInstanceAs (Decidable (∀ k < stop, _))

/-- What closes the block comment or docstring that is open. -/
def Mode.stop? (l : Language) : Mode → Option (List Char)
  | .block _ => some l.marks.blockEnd
  | .literal lit _ => if lit.kind.isNote then some lit.stop else none
  | .code | .lineComment | .text => none

/-! ## What the reading does -/

variable {l : Language} {c : Char} {rest text : List Char} {s : State} {embedded : List Nat}

theorem exists_stop_of_mem_literals {parsed : Answer} {lit : Literal} (among : lit ∈ literals l parsed) :
    ∃ quote more, lit.stop = quote :: more ∧ isBlank quote = false := by
  have visible : (literals l parsed).all (fun lit => lit.stop.head?.any fun c => !isBlank c) = true := by
    cases l <;> cases parsed <;> decide
  have here := List.all_eq_true.mp visible lit among
  cases eq : lit.stop with
  | nil => simp [eq] at here
  | cons quote more => exact ⟨quote, more, rfl, by simpa [eq] using here⟩

/-- What opens in code begins with a visible character. -/
theorem opened?_of_blank {parsed : Answer} (blank : isBlank c = true) : opened? l parsed (c :: rest) = none := by
  have other {p : Char} {piece : List Char} (visible : isBlank p = false) : startsWith (p :: piece) (c :: rest) = false := by
    rw [startsWith, Text.after?, if_neg (fun same => by rw [same, blank] at visible; cases visible)]
    rfl
  have quote : c ≠ '\'' := by
    rintro rfl
    exact absurd blank (by decide)
  have literal : literal? l parsed (c :: rest) = none := by
    have raw : rawString? (c :: rest) = none := by
      rw [rawString?, List.takeWhile_cons_of_neg (by rw [isWord_of_isBlank blank]; exact Bool.false_ne_true)]
      rfl
    have character : character? (c :: rest) = none := by
      unfold character?
      split <;> simp_all
    have none : ∀ lit ∈ literals l parsed, startsWith lit.stop (c :: rest) = false := fun lit among => by
      obtain ⟨quote, more, eq, visible⟩ := exists_stop_of_mem_literals among
      rw [eq, other visible]
    rw [literal?, raw, character, List.find?_eq_none.mpr (by simpa using none)]
    simp
  have line : startsWith l.marks.line (c :: rest) = false := by cases l <;> exact other (by decide)
  have block : startsWith l.marks.blockStart (c :: rest) = false := by cases l <;> exact other (by decide)
  simp [opened?, line, block, literal, blank]

section Reading

variable {parsed : Nat → Answer} {offset left : Nat} {kind : Kind}

theorem InNote.within {marks : List Mark} {start stop i j : Nat} (h : InNote marks start stop) (le : start ≤ i) (le' : j ≤ stop) :
    InNote marks i j := by
  intro k less le''
  obtain ⟨m, there, note, first⟩ := h k (by omega) (by omega)
  exact ⟨m, there, note, fun after => first (by omega)⟩

/-- Where no token is cut, what came before does not matter. -/
theorem readFrom_kind (kind' : Kind) : readFrom l parsed offset 0 kind s text = readFrom l parsed offset 0 kind' s text := by
  cases text <;> rfl

/-- What is left of a token belongs to it. -/
theorem readFrom_left {front : List Char} (left : Nat) (width : front.length = left) (text : List Char) :
    readFrom l parsed offset left kind s (front ++ text) =
      let read := readFrom l parsed (offset + left) 0 kind s text
      (List.replicate left ⟨kind, false⟩ ++ read.1, read.2) := by
  induction front generalizing offset left with
  | nil =>
    subst width
    rfl
  | cons c front ih =>
    subst width
    rw [List.cons_append, List.length_cons, readFrom, ih _ rfl, Nat.add_right_comm, List.replicate_succ]
    rfl

theorem brace_of_blank (blank : isBlank c = true) (s : State) : s.brace c = s := by
  have opening : c ≠ '\x7b' := by
    rintro rfl
    exact absurd blank (by decide)
  have closing : c ≠ '\x7d' := by
    rintro rfl
    exact absurd blank (by decide)
  unfold State.brace
  split <;> simp [opening, closing]

theorem token_of_blank {parsed : Answer} (code : s.mode = .code) (blank : isBlank c = true) :
    token l parsed s c rest = ⟨⟨.code, false⟩, 1, s⟩ := by
  rw [token, code]
  simp only [inCode, opened?_of_blank blank, brace_of_blank blank, List.takeWhile_cons, isWord_of_isBlank blank]
  rfl

/-- Blanks in code are code. -/
theorem readFrom_blanks (code : s.mode = .code) {blanks : List Char} (blank : ∀ c ∈ blanks, isBlank c = true) (text : List Char) :
    readFrom l parsed offset 0 kind s (blanks ++ text) =
      let read := readFrom l parsed (offset + blanks.length) 0 .code s text
      (List.replicate blanks.length ⟨.code, false⟩ ++ read.1, read.2) := by
  induction blanks generalizing offset kind with
  | nil => rw [List.nil_append, readFrom_kind .code]; rfl
  | cons c blanks ih =>
    obtain ⟨here, others⟩ := List.forall_mem_cons.mp blank
    rw [List.cons_append, readFrom, token_of_blank code here]
    simp only [Nat.sub_self, ih others, List.length_cons, Nat.add_right_comm _ 1, List.replicate_succ, List.cons_append, Nat.add_assoc]

/-- Without its end a block comment goes on. -/
theorem readFrom_block (away : ¬ l.marks.blockEnd <:+: text) (depth : Nat) :
    ∃ depth', (l ≠ .rust → depth' = depth) ∧
      (readFrom l parsed offset left kind ⟨.block depth, embedded⟩ text).2 = ⟨.block depth', embedded⟩ := by
  induction text generalizing offset left kind depth with
  | nil => exact ⟨depth, fun _ => rfl, rfl⟩
  | cons c rest ih =>
    have away' : ¬ l.marks.blockEnd <:+: rest := fun inside => away (inside.trans (List.suffix_cons c rest).isInfix)
    cases left with
    | succ left => exact ih away' depth
    | zero =>
      have open' : startsWith l.marks.blockEnd (c :: rest) = false :=
        Bool.eq_false_iff.mpr fun closed => away (Text.startsWith_iff.mp closed).isInfix
      simp only [readFrom, token, inBlock, open', Bool.false_eq_true, if_false]
      split
      next nested => exact (ih away' (depth + 1)).imp fun _ inner => ⟨fun flat => absurd nested (by simp [flat]), inner.2⟩
      next => exact ih away' depth

/-- Without its end a literal of several lines goes on. -/
theorem readFrom_literal {lit : Literal} (multiline : lit.multiline = true) (pure : lit.embeds = false) (simple : lit.classes = false)
    (away : ¬ lit.stop <:+: text) :
    (readFrom l parsed offset left kind ⟨.literal lit false, embedded⟩ text).2 = ⟨.literal lit false, embedded⟩ := by
  induction text generalizing offset left kind with
  | nil => simp [readFrom, State.atLineEnd, multiline]
  | cons c rest ih =>
    have away' : ¬ lit.stop <:+: rest := fun inside => away (inside.trans (List.suffix_cons c rest).isInfix)
    cases left with
    | succ left => exact ih away'
    | zero =>
      have open' : startsWith lit.stop (c :: rest) = false :=
        Bool.eq_false_iff.mpr fun closed => away (Text.startsWith_iff.mp closed).isInfix
      simp only [readFrom, token, inLiteral, open', pure, simple, Bool.and_false, Bool.false_and, Bool.false_eq_true, if_false]
      split <;> exact ih away'

/-- A number sign in a string of several lines is no comment. -/
example : (marksAt .python (fun _ _ => .nothing) "x = '''\n# y\n'''".toList 2).map (·.kind) =
    [.literal, .literal, .literal] := by decide

/-- A token is read as a whole. -/
theorem readFrom_token {front : List Char} {t : Token} (read : token l (parsed offset) s c (front ++ text) = t)
    (width : t.width = front.length + 1) : readFrom l parsed offset 0 kind s (c :: (front ++ text)) =
      let read := readFrom l parsed (offset + 1 + front.length) 0 t.mark.kind t.next text
      (t.mark :: (List.replicate front.length ⟨t.mark.kind, false⟩ ++ read.1), read.2) := by
  subst read
  rw [readFrom, width, Nat.add_sub_cancel, readFrom_left _ rfl]

theorem readFrom_char {t : Token} (read : token l (parsed offset) s c rest = t) (width : t.width = 1) :
    readFrom l parsed offset 0 kind s (c :: rest) =
      let read := readFrom l parsed (offset + 1) 0 t.mark.kind t.next rest
      (t.mark :: read.1, read.2) := by
  subst read
  rw [readFrom, width]

/-- Nothing else than blanks is read in code when every visible character goes on with what was open before. -/
theorem readFrom_of_continues (code : s.mode = .code)
    (goesOn : ∀ x ∈ text.zip (readFrom l parsed offset 0 kind s text).1, isBlank x.1 = false → x.2.continues = true) :
    (readFrom l parsed offset 0 kind s text).2 = s := by
  induction text generalizing offset kind with
  | nil => simp [readFrom, State.atLineEnd, code]
  | cons c rest ih =>
    cases blank : isBlank c with
    | true =>
      simp only [readFrom, token_of_blank code blank] at goesOn ⊢
      exact ih fun x mem => goesOn x (List.mem_cons_of_mem _ mem)
    | false =>
      have here : (token l (parsed offset) s c rest).mark.continues = true := goesOn (c, _) List.mem_cons_self blank
      simp only [token, code, inCode, Mark.continues] at here
      split at here <;> simp [Kind.isNote] at here

/-- Where block comments do not nest and one that is open holds its end, nothing else than blanks behind it, it is closed. -/
theorem readFrom_block_of_closed (flat : l ≠ .rust) (closed : l.marks.blockEnd <:+: text)
    (alone : (text.zip (readFrom l parsed offset 0 kind ⟨.block 0, embedded⟩ text).1).Pairwise fun x y =>
      isBlank x.1 = false → isBlank y.1 = false → y.2.continues = true) :
    (readFrom l parsed offset 0 kind ⟨.block 0, embedded⟩ text).2 = ⟨.code, embedded⟩ := by
  induction text generalizing offset kind with
  | nil => cases l <;> cases List.eq_nil_of_infix_nil closed
  | cons c rest ih =>
    by_cases here : startsWith l.marks.blockEnd (c :: rest) = true
    · obtain ⟨behind, eq⟩ := Text.startsWith_iff.mp here
      obtain ⟨first, more, eq', visible⟩ : ∃ first more, l.marks.blockEnd = first :: more ∧ isBlank first = false := by
        cases l <;> exact ⟨_, _, rfl, by decide⟩
      rw [eq', List.cons_append] at eq
      obtain ⟨rfl, rfl⟩ := List.cons.inj eq
      have read : token l (parsed offset) ⟨.block 0, embedded⟩ first (more ++ behind) =
          ⟨⟨.comment, false⟩, more.length + 1, ⟨.code, embedded⟩⟩ := by
        rw [eq'] at here
        simp only [token, inBlock, eq', here, if_true, List.length_cons]
      rw [readFrom_token read rfl] at alone ⊢
      rw [List.zip_cons_cons, List.pairwise_cons, List.zip_append (List.length_replicate).symm] at alone
      exact readFrom_of_continues rfl fun x mem visible' => alone.1 x (List.mem_append_right _ mem) visible visible'
    · have closed' : l.marks.blockEnd <:+: rest :=
        (List.infix_cons_iff.mp closed).resolve_left fun starts => here (Text.startsWith_iff.mpr starts)
      have read : token l (parsed offset) ⟨.block 0, embedded⟩ c rest = ⟨⟨.comment, false⟩, 1, ⟨.block 0, embedded⟩⟩ := by
        simp [token, inBlock, here, flat]
      rw [readFrom_char read rfl] at alone ⊢
      exact ih closed' (List.pairwise_cons.mp alone).2

end Reading

end Lexis

end CodeHygiene
