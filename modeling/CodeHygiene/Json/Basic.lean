import CodeHygiene.Quantity

/-!
JSON values. Objects keep the order in which their keys were first set (`Object.set`), and a whole
number stays apart from a real one.
-/

namespace CodeHygiene

inductive Json where
  | null
  | bool (b : Bool)
  | whole (n : Int)
  | real (x : Float)
  | str (s : String)
  | arr (items : List Json)
  | obj (members : List (String × Json))

namespace Json

abbrev Object := List (String × Json)

/-- A key that is already there keeps its place and takes the new value. -/
def Object.set : Object → String → Json → Object
  | [], key, value => [(key, value)]
  | (k, v) :: rest, key, value =>
    if k = key then (k, value) :: rest else (k, v) :: Object.set rest key value

def Object.get? (o : Object) (key : String) : Option Json := o.lookup key

/-- The members of the second object set one after the other on the first. -/
def Object.update (o more : Object) : Object := more.foldl (fun o m => o.set m.1 m.2) o

def nat (n : Nat) : Json := .whole n

def isNull : Json → Bool
  | .null => true
  | _ => false

def ofOption (f : α → Json) : Option α → Json
  | none => .null
  | some a => f a

def strings (items : List String) : Json := .arr (items.map .str)

def ofQuantity : Quantity → Json
  | .whole n => .whole n
  | .real x => .real x

theorem Object.get?_set_self (o : Object) (key : String) (value : Json) :
    (o.set key value).get? key = some value := by
  induction o with
  | nil => simp [Object.set, Object.get?]
  | cons m rest ih =>
    obtain ⟨k, v⟩ := m
    by_cases h : k = key
    · simp [Object.set, Object.get?, h]
    · have hne : (key == k) = false := by simpa using fun e => h e.symm
      simp only [Object.get?] at ih
      simp [Object.set, Object.get?, List.lookup_cons, h, hne, ih]

theorem Object.get?_set_of_ne (o : Object) {key k : String} (ne : k ≠ key) (value : Json) :
    (o.set key value).get? k = o.get? k := by
  induction o with
  | nil => simp [Object.set, Object.get?, List.lookup_cons, beq_eq_false_iff_ne.mpr ne]
  | cons m rest ih =>
    obtain ⟨name, v⟩ := m
    simp only [Object.get?] at ih
    by_cases h : name = key
    · subst h
      simp [Object.set, Object.get?, List.lookup_cons, beq_eq_false_iff_ne.mpr ne]
    · by_cases here : k = name
      · simp [Object.set, Object.get?, h, here]
      · simp [Object.set, Object.get?, List.lookup_cons, h, beq_eq_false_iff_ne.mpr here, ih]

end Json

end CodeHygiene
