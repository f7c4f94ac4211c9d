import TinyFront.Text.Lines

/-!
Laid-out text: lexemes, single gaps between them, and line breaks that say how deep the next line
is nested. Main statement: lines that hold nothing are not indented, so a break right before
another one, or at the end, adds just a line feed.
-/
namespace TinyFront

inductive Mark
  | lexeme (text : String)
  | gap
  /-- Ends the line; the next one is nested `depth` levels deep. -/
  | line (depth : Nat)
  deriving DecidableEq, Repr

namespace Mark

/-- Whether the line has no character yet, and how far its first one is indented. -/
structure Margin where
  fresh : Bool
  width : Nat

namespace Margin

/-- The characters on a page with this margin, and whether they end on a fresh line. -/
def write (m : Margin) : List Char → List Char × Margin
  | [] => ([], m)
  | c :: cs =>
    if c = '\n' then
      let (rest, last) := write { m with fresh := true } cs
      (c :: rest, last)
    else
      let (rest, last) := write { m with fresh := false } cs
      ((if m.fresh then List.replicate m.width ' ' else []) ++ c :: rest, last)

@[simp] theorem write_nil (m : Margin) : m.write [] = ([], m) := rfl

theorem write_of_not_mem {w : Nat} {cs : List Char} (h : '\n' ∉ cs) :
    write ⟨false, w⟩ cs = (cs, ⟨false, w⟩) := by
  induction cs with
  | nil => rfl
  | cons c cs ih =>
    simp only [List.mem_cons, not_or] at h
    simp [write, Ne.symm h.1, ih h.2]

/-- The first character of a line brings its indentation with it. -/
theorem write_fresh_of_not_mem {w : Nat} {c : Char} {cs : List Char} (h : '\n' ∉ c :: cs) :
    write ⟨true, w⟩ (c :: cs) = (List.replicate w ' ' ++ c :: cs, ⟨false, w⟩) := by
  simp only [List.mem_cons, not_or] at h
  simp [write, Ne.symm h.1, write_of_not_mem h.2]

end Margin

/-- The page of a list of marks, each level of nesting indented by `indent` blanks. -/
def page (indent : Nat) (m : Margin) : List Mark → List Char
  | [] => []
  | lexeme s :: ms => (m.write s.toList).1 ++ page indent (m.write s.toList).2 ms
  | gap :: ms => (m.write [' ']).1 ++ page indent (m.write [' ']).2 ms
  | line depth :: ms => '\n' :: page indent ⟨true, indent * depth⟩ ms

@[simp] theorem page_nil (indent : Nat) (m : Margin) : page indent m [] = [] := rfl

@[simp] theorem page_line (indent : Nat) (m : Margin) (depth : Nat) (ms : List Mark) :
    page indent m (line depth :: ms) = '\n' :: page indent ⟨true, indent * depth⟩ ms := rfl

/-- The text of a list of marks whose first line is not nested. -/
def text (indent : Nat) (ms : List Mark) : String := String.ofList (page indent ⟨true, 0⟩ ms)

def lexemes : List Mark → List String
  | [] => []
  | lexeme s :: ms => s :: lexemes ms
  | _ :: ms => lexemes ms

@[simp] theorem lexemes_append (as bs : List Mark) :
    lexemes (as ++ bs) = lexemes as ++ lexemes bs := by
  induction as with
  | nil => rfl
  | cons m ms ih => cases m <;> simp [lexemes, ih]

def separated (separator : List Mark) : List (List Mark) → List Mark
  | [] => []
  | [ms] => ms
  | ms :: rest => ms ++ separator ++ separated separator rest

def enclosed (needed : Bool) (ms : List Mark) : List Mark :=
  if needed then lexeme "(" :: ms ++ [lexeme ")"] else ms

@[simp] theorem enclosed_false (ms : List Mark) : enclosed false ms = ms := rfl

def comma : List Mark := [lexeme ",", gap]

/-- Elements in parentheses; a single one keeps a comma behind it. -/
def tuple : List (List Mark) → List Mark
  | [ms] => lexeme "(" :: ms ++ [lexeme ",", lexeme ")"]
  | es => lexeme "(" :: separated comma es ++ [lexeme ")"]

def gapped : List (List Mark) → List Mark
  | [] => []
  | ms :: rest => gap :: ms ++ gapped rest

end Mark
end TinyFront
