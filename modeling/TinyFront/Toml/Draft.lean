import TinyFront.Toml.Value

/-!
A TOML document while it is read. A table may be declared once and a key set once; values written
in one place, such as inline tables, cannot be added to from another.
-/
namespace TinyFront.Toml

inductive Refusal
  | malformed
  /-- A decimal integer with more digits than are read. -/
  | literalTooLong (digits : Nat)
  /-- Values in values to a depth that is not read. -/
  | nestingTooDeep
  deriving DecidableEq, Repr

abbrev Key := List String

/-- Changes the table at a key, which is created if need be. Through a list of tables the way leads
into its last one, where that is allowed. -/
def within (throughLists : Bool) (change : List Entry → Except Refusal (List Entry)) :
    Key → List Entry → Except Refusal (List Entry)
  | [], es => change es
  | k :: ks, es =>
    match Entry.find? k es with
    | none => do return Entry.set k (.table (← within throughLists change ks [])) es
    | some (.table t) => do return Entry.set k (.table (← within throughLists change ks t)) es
    | some (.array vs) =>
      match throughLists, vs.getLast? with
      | true, some (.table t) => do
        return Entry.set k (.array (vs.dropLast ++ [.table (← within throughLists change ks t)])) es
      | _, _ => .error .malformed
    | some _ => .error .malformed

/-- Gives a key a value that it does not have yet. -/
def setNew (k : String) (v : Value) (es : List Entry) : Except Refusal (List Entry) :=
  match Entry.find? k es with
  | none => .ok (Entry.set k v es)
  | some _ => .error .malformed

structure Draft where
  root : List Entry
  /-- The table that keys are set in. -/
  header : Key
  /-- Nothing at or below these keys may change any more. -/
  frozen : List Key
  /-- Tables that may not be declared again. -/
  declared : List Key
  /-- Tables that dotted keys went through; they count as declared from the next header on. -/
  passed : List Key

namespace Draft

def empty : Draft := ⟨[], [], [], [], []⟩

def isFrozen (d : Draft) (k : Key) : Bool := d.frozen.any (·.isPrefixOf k)

def isDeclared (d : Draft) (k : Key) : Bool := d.declared.contains k

/-- The state at a header: what was passed through is declared from now on. -/
def settle (d : Draft) : Draft := { d with declared := d.passed ++ d.declared, passed := [] }

/-- A header in single brackets. -/
def declareTable (d : Draft) (k : Key) : Except Refusal Draft :=
  if d.isDeclared k || d.isFrozen k then .error .malformed
  else do
    return { d with
      root := ← within true .ok k d.root, header := k, declared := k :: d.declared }

def addElement (k : String) (es : List Entry) : Except Refusal (List Entry) :=
  match Entry.find? k es with
  | none => .ok (Entry.set k (.array [.table []]) es)
  | some (.array vs) => .ok (Entry.set k (.array (vs ++ [.table []])) es)
  | some _ => .error .malformed

/-- A header in double brackets. The new table is a fresh start for everything below the key. -/
def declareElement (d : Draft) (k : Key) : Except Refusal Draft :=
  if d.isFrozen k then .error .malformed
  else
    match k.getLast? with
    | none => .error .malformed
    | some last => do
      let fresh := fun (other : Key) => !k.isPrefixOf other
      return { d with
        root := ← within true (addElement last) k.dropLast d.root, header := k,
        frozen := d.frozen.filter fresh, declared := k :: d.declared.filter fresh }

/-- The tables that a dotted key goes through, outermost first. -/
def throughKeys (header : Key) : Key → List Key
  | [] => []
  | [_] => []
  | k :: ks => (header ++ [k]) :: throughKeys (header ++ [k]) ks

def isComposite : Value → Bool
  | .array _ | .table _ => true
  | _ => false

def setValue (d : Draft) (k : Key) (v : Value) : Except Refusal Draft :=
  let through := throughKeys d.header k
  let table := d.header ++ k.dropLast
  if through.any d.isDeclared || d.isFrozen table then .error .malformed
  else
    match k.getLast? with
    | none => .error .malformed
    | some last => do
      return { d with
        root := ← within true (setNew last v) table d.root,
        passed := through ++ d.passed,
        frozen := if isComposite v then (d.header ++ k) :: d.frozen else d.frozen }

end Draft

/-- An inline table while it is read, with the keys in it that may not change any more. -/
structure Inline where
  entries : List Entry
  frozen : List Key

namespace Inline

def setValue (t : Inline) (k : Key) (v : Value) : Except Refusal Inline :=
  if t.frozen.any (·.isPrefixOf k) then .error .malformed
  else
    match k.getLast? with
    | none => .error .malformed
    | some last => do
      return ⟨← within false (setNew last v) k.dropLast t.entries,
        if Draft.isComposite v then k :: t.frozen else t.frozen⟩

end Inline
end TinyFront.Toml
