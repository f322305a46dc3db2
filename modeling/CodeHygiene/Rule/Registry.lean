import CodeHygiene.Rule.Basic

/-!
A registry: a table of rules with distinct names, and the indices through which rules are looked up
by language, severity and remediation. The indices are made once, from the table (`ofRules`).

A rule for every language stands under each language that the table knows and under the reserved tag
`universal`, where a language that the table does not know is looked up.
-/

namespace CodeHygiene

/-- Rules by key. Keys stand in the order in which they first came, rules in that of the table. -/
abbrev RuleIndex := List (String × List Rule)

namespace RuleIndex

def keys (x : RuleIndex) : List String := x.map (·.1)

def bucket? (x : RuleIndex) (key : String) : Option (List Rule) := x.lookup key

def bucket (x : RuleIndex) (key : String) : List Rule := (x.bucket? key).getD []

/-- Adds a rule under a key, which is new or not. -/
def add : RuleIndex → String → Rule → RuleIndex
  | [], key, rule => [(key, [rule])]
  | (k, rules) :: rest, key, rule =>
    if k = key then (k, rules ++ [rule]) :: rest else (k, rules) :: add rest key rule

/-- Adds a rule under every key. -/
def addToAll (x : RuleIndex) (rule : Rule) : RuleIndex :=
  x.map fun (k, rules) => (k, rules ++ [rule])

/-- Whether a rule's name stands under a key; where no key is asked for, it does. -/
def admits (x : RuleIndex) (key : Option String) (rule : Rule) : Bool :=
  key.all fun k => (x.bucket k).any (·.name == rule.name)

end RuleIndex

/-- The tag under which the rules for every language stand. -/
def universalTag : String := "universal"

structure Registry where
  rules : List Rule
  byLanguage : RuleIndex
  /-- Only the rules with a language of their own. -/
  tagged : RuleIndex
  bySeverity : RuleIndex
  byRemediation : RuleIndex

/-- What rules are looked up by; what is not given does not matter. -/
structure Criteria where
  language : Option String := none
  severity : Option String := none
  remediation : Option String := none

/-- A grade as it is asked for: itself, or by a name, which need not be known. -/
inductive Asked (γ : Type) where
  | grade (g : γ)
  | name (s : String)

/-- The name that a grade is looked up by. -/
def Asked.text (write : γ → String) : Asked γ → String
  | .grade g => write g
  | .name s => s

/-- A look-up whose grades are given either way. -/
structure Query where
  language : Option String := none
  severity : Option (Asked Severity) := none
  remediation : Option (Asked Remediation) := none

def Query.criteria (q : Query) : Criteria where
  language := q.language
  severity := q.severity.map (·.text Severity.text)
  remediation := q.remediation.map (·.text Remediation.text)

namespace Registry

/-- The first name that an earlier rule has already. -/
def repeated? (seen : List String) : List Rule → Option String
  | [] => none
  | r :: rest => if seen.contains r.name then some r.name else repeated? (r.name :: seen) rest

def indexTagged (rules : List Rule) : RuleIndex :=
  rules.foldl (fun x r => match r.language with
    | none => x
    | some l => x.add l r) []

/-- An index of given keys, still without rules. -/
def emptyIndex (keys : List String) : RuleIndex := keys.map fun k => (k, [])

def indexByLanguage (rules : List Rule) : RuleIndex :=
  let tags := (indexTagged rules).keys.filter (· ≠ universalTag)
  rules.foldl (fun x r => match r.language with
    | none => x.addToAll r
    | some l => x.add l r) (emptyIndex (universalTag :: tags))

/-- The index by a key that every rule has. -/
def indexBy (key : Rule → String) (rules : List Rule) : RuleIndex :=
  rules.foldl (fun x r => x.add (key r) r) []

/-- The table with its indices, whatever the names. -/
def indexed (rules : List Rule) : Registry :=
  { rules
    byLanguage := indexByLanguage rules
    tagged := indexTagged rules
    bySeverity := indexBy (·.severity.text) rules
    byRemediation := indexBy (·.remediation.text) rules }

/-- No two rules of a registry have one name. -/
def ofRules (rules : List Rule) : Except RuleFault Registry :=
  match repeated? [] rules with
  | some name => .error (.duplicate name)
  | none => .ok (indexed rules)

def find? (t : Registry) (name : String) : Option Rule := t.rules.find? (·.name = name)

def contains (t : Registry) (name : String) : Bool := t.rules.any (·.name = name)

def size (t : Registry) : Nat := t.rules.length

/-- The rules for every language. -/
def universal (t : Registry) : List Rule := t.byLanguage.bucket universalTag

/-- The rules for files of a language. -/
def forLanguage (t : Registry) (language : String) : List Rule :=
  (t.byLanguage.bucket? language).getD t.universal

/-- The rules with exactly this language. -/
def onlyFor (t : Registry) (language : String) : List Rule := t.tagged.bucket language

/-- The rules that meet every criterion: those under the first one, as far as the others admit them. -/
def lookup (t : Registry) : Criteria → List Rule
  | ⟨some l, s, m⟩ =>
    (t.forLanguage l).filter fun r => t.bySeverity.admits s r && t.byRemediation.admits m r
  | ⟨none, some s, m⟩ => (t.bySeverity.bucket s).filter (t.byRemediation.admits m)
  | ⟨none, none, some m⟩ => t.byRemediation.bucket m
  | ⟨none, none, none⟩ => t.rules

def ask (t : Registry) (q : Query) : List Rule := t.lookup q.criteria

def structural (t : Registry) : List Rule := t.rules.filter Rule.isStructural

def ofPatterns (t : Registry) : List Rule := t.rules.filter fun r => !r.isStructural

def languages (t : Registry) : List String := t.byLanguage.keys

def severities (t : Registry) : List String := t.bySeverity.keys

/-- Whether some rule has this language as its own. -/
def hasLanguage (t : Registry) (language : String) : Bool := (t.tagged.bucket? language).isSome

end Registry

end CodeHygiene
