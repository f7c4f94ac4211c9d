import TinyFront.Toml.Scalar

/-!
TOML documents: values, keys, the statements that set and declare, and the reading of a whole
document.
-/
namespace TinyFront.Toml

def isBareKeyChar (c : Char) : Bool := c.isAlphanum || c == '-' || c == '_'

/-- One part of a key, bare or quoted. -/
def keyPart : Scan String := do
  let unread ← get
  let bare := unread.takeWhile isBareKeyChar
  if bare.isEmpty then return String.ofList (← Scan.ofReader lineText?)
  else
    Scan.skip isBareKeyChar
    return String.ofList bare

/-- At most `bound` parts with points between them; blanks may stand around each point. -/
def keyUpTo : (bound : Nat) → Scan Key
  | 0 => Scan.refuse
  | bound + 1 => do
    let part ← keyPart
    Scan.skip isSpace
    if ← Scan.accept "." then
      Scan.skip isSpace
      return part :: (← keyUpTo bound)
    else return [part]

def key : Scan Key := do keyUpTo ((← get).length + 1)

def pair (value : Scan Value) : Scan (Key × Value) := do
  let k ← key
  Scan.expect "="
  Scan.skip isSpace
  return (k, ← value)

/-- At most `bound` elements of an array, up to its closing bracket. -/
def elementsUpTo (value : Scan Value) : (bound : Nat) → Scan (List Value)
  | 0 => Scan.refuse
  | bound + 1 => do
    if ← Scan.accept "]" then return []
    else
      let v ← value
      Scan.gaps
      if ← Scan.accept "," then
        Scan.gaps
        return v :: (← elementsUpTo value bound)
      else
        Scan.expect "]"
        return [v]

/-- At most `bound` pairs of an inline table, up to its closing brace. -/
def pairsUpTo (value : Scan Value) : (bound : Nat) → Inline → Scan (List Entry)
  | 0, _ => Scan.refuse
  | bound + 1, t => do
    let (k, v) ← pair value
    let t ← liftM (t.setValue k v)
    Scan.skip isSpace
    if ← Scan.accept "\x7d" then return t.entries
    else
      Scan.expect ","
      Scan.skip isSpace
      pairsUpTo value bound t

/-- A value in which arrays and tables nest less than `depth` deep. -/
def valueUpTo : (depth : Nat) → Scan Value
  | 0 => throw .nestingTooDeep
  | depth + 1 => do
    match ← Scan.head? with
    | some '"' | some '\'' => return .string (String.ofList (← Scan.ofReader quotedText?))
    | some '[' =>
      Scan.expect "["
      Scan.gaps
      return .array (← elementsUpTo (valueUpTo depth) ((← get).length + 1))
    | some '\x7b' =>
      Scan.expect "\x7b"
      Scan.skip isSpace
      if ← Scan.accept "\x7d" then return .table []
      else return .table (← pairsUpTo (valueUpTo depth) ((← get).length + 1) ⟨[], []⟩)
    | _ =>
      if ← Scan.accept "true" then return .boolean true
      else if ← Scan.accept "false" then return .boolean false
      else scalar

/-- How many arrays and tables may stand in each other. -/
def maxNesting : Nat := 400

def value : Scan Value := valueUpTo (maxNesting + 1)

def header (d : Draft) : Scan Draft := do
  let d := d.settle
  if ← Scan.accept "[[" then
    Scan.skip isSpace
    let d ← liftM (d.declareElement (← key))
    Scan.expect "]]"
    return d
  else
    Scan.expect "["
    Scan.skip isSpace
    let d ← liftM (d.declareTable (← key))
    Scan.expect "]"
    return d

/-- What stands on a line before its comment: nothing, a header, or a pair. -/
def statement (d : Draft) : Scan Draft := do
  match ← Scan.head? with
  | none | some '\n' | some '#' => return d
  | some '[' => header d
  | some _ =>
    let (k, v) ← pair value
    liftM (d.setValue k v)

/-- At most `bound` lines, the last of which may lack its line feed. -/
def linesUpTo : (bound : Nat) → Draft → Scan Draft
  | 0, d => return d
  | bound + 1, d => do
    Scan.skip isSpace
    let d ← statement d
    Scan.skip isSpace
    Scan.comment
    if (← get).isEmpty then return d
    else
      Scan.expect "\n"
      linesUpTo bound d

/-- A carriage return right before a line feed belongs to the line end. -/
def plainFeeds : List Char → List Char
  | '\r' :: '\n' :: cs => '\n' :: plainFeeds cs
  | c :: cs => c :: plainFeeds cs
  | [] => []

/-- The table that a document stands for. -/
def read (source : String) : Except Refusal (List Entry) := do
  let cs := plainFeeds source.toList
  let (d, _) ← (linesUpTo (cs.length + 1) .empty).run cs
  return d.root

end TinyFront.Toml
