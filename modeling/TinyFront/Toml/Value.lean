/-!
Values of a TOML document. Tables keep their keys in the order of their first appearance.
-/
namespace TinyFront.Toml

mutual

inductive Value
  | string (text : String)
  | integer (value : Int)
  /-- A number with a fraction or an exponent, or one of the special numbers, as it is written. -/
  | float (literal : String)
  | boolean (value : Bool)
  /-- A date, a time, or both, as it is written. -/
  | moment (literal : String)
  | array (elements : List Value)
  | table (entries : List Entry)

structure Entry where
  key : String
  value : Value

end

instance : Inhabited Value := ⟨.boolean false⟩

namespace Entry

def find? (key : String) : List Entry → Option Value
  | [] => none
  | e :: es => if e.key = key then some e.value else find? key es

/-- Changes the value of a key, or adds the key at the end. -/
def set (key : String) (value : Value) : List Entry → List Entry
  | [] => [⟨key, value⟩]
  | e :: es => if e.key = key then ⟨key, value⟩ :: es else e :: set key value es

theorem find?_set (key other : String) (value : Value) (es : List Entry) :
    find? other (set key value es) = if other = key then some value else find? other es := by
  induction es with
  | nil => simp [set, find?, eq_comm]
  | cons e es ih =>
    by_cases h : e.key = key
    · by_cases ho : other = key
      · simp [set, find?, h, ho]
      · simp [set, find?, h, ho, Ne.symm ho]
    · by_cases ho : e.key = other
      · subst ho; simp [set, find?, h]
      · simp [set, find?, h, ho, ih]

end Entry
end TinyFront.Toml
