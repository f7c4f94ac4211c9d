/-!
Leaves: the smallest parts of patterns, types and expressions alike. Which of them a family admits
is for its grammar to say.
-/
namespace TinyFront

inductive Leaf
  | wildcard
  | number (value : Nat)
  | boolean (value : Bool)
  | name (text : String)
  | unit
  deriving DecidableEq, Repr, Inhabited

/-- The four infix operators. An operator applied to two arguments is an ordinary application of
its name. -/
inductive Operator
  | add | sub | mul | div
  deriving DecidableEq, Repr

namespace Operator

def all : List Operator := [add, sub, mul, div]

def name : Operator → String
  | add => "add" | sub => "sub" | mul => "mul" | div => "div"

def symbol : Operator → String
  | add => "+" | sub => "-" | mul => "*" | div => "/"

def ofName? (s : String) : Option Operator := all.find? (·.name == s)

def ofSymbol? (s : String) : Option Operator := all.find? (·.symbol == s)

@[simp] theorem ofName?_name (o : Operator) : ofName? o.name = some o := by cases o <;> decide

@[simp] theorem ofSymbol?_symbol (o : Operator) : ofSymbol? o.symbol = some o := by
  cases o <;> decide

theorem name_of_ofName? {s : String} {o : Operator} (h : ofName? s = some o) : o.name = s := by
  simpa using List.find?_some h

end Operator
end TinyFront
