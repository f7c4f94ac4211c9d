import TinyFront.Text.Blank

/-!
Cutting a text into consecutive pieces: blanks, comments, words, numbers, symbols, and characters
that belong to none of these. A piece grows for as long as the next character continues it.
Main statements: the pieces concatenate to the text, none is empty, and a line feed separates.
-/
namespace TinyFront

/-- A letter of ASCII or the underscore. -/
def startsWord (c : Char) : Bool := c.isAlpha || c == '_'

def continuesWord (c : Char) : Bool := c.isAlphanum || c == '_'

def symbolChars : List Char := "+-*/=.()\x7b\x7d,:;|".toList

inductive Shape
  | blank | comment | word | number | symbol | stray
  deriving DecidableEq, Repr

namespace Shape

/-- The shape of a piece that begins with the character. -/
def ofChar (c : Char) : Shape :=
  if Text.isBlank c then blank
  else if c.isDigit then number
  else if startsWord c then word
  else if symbolChars.contains c then symbol
  else stray

/-- The shape after one more character, if the piece goes on; `held` is its text so far, latest
character first. A comment starts as a slash and ends before the line feed. -/
def grow (shape : Shape) (held : List Char) (c : Char) : Option Shape :=
  match shape with
  | word => if continuesWord c then some word else none
  | number => if c.isDigit then some number else none
  | comment => if c = '\n' then none else some comment
  | symbol =>
    if c = '/' ∧ held = ['/'] then some comment
    else if c = '>' ∧ (held = ['-'] ∨ held = ['=']) then some symbol
    else none
  | blank => none
  | stray => none

@[simp] theorem grow_feed (shape : Shape) (held : List Char) : shape.grow held '\n' = none := by
  cases shape <;> simp [grow]
  decide

@[simp] theorem grow_blank (held : List Char) (c : Char) : blank.grow held c = none := rfl

@[simp] theorem grow_stray (held : List Char) (c : Char) : stray.grow held c = none := rfl

@[simp] theorem ofChar_feed : ofChar '\n' = blank := by decide

end Shape

structure Piece where
  shape : Shape
  text : List Char
  deriving DecidableEq, Repr

namespace Piece

/-- The pieces of the text behind an open piece. -/
def cutFrom (shape : Shape) (held : List Char) : List Char → List Piece
  | [] => [⟨shape, held.reverse⟩]
  | c :: cs =>
    match shape.grow held c with
    | some grown => cutFrom grown (c :: held) cs
    | none => ⟨shape, held.reverse⟩ :: cutFrom (Shape.ofChar c) [c] cs

def cut : List Char → List Piece
  | [] => []
  | c :: cs => cutFrom (Shape.ofChar c) [c] cs

@[simp] theorem cut_nil : cut [] = [] := rfl

theorem cutFrom_of_grow_none {shape : Shape} {held cs : List Char}
    (h : ∀ c, cs.head? = some c → shape.grow held c = none) :
    cutFrom shape held cs = ⟨shape, held.reverse⟩ :: cut cs := by
  cases cs with
  | nil => rfl
  | cons c cs => simp [cutFrom, cut, h c rfl]

theorem flatMap_text_cutFrom (shape : Shape) (held cs : List Char) :
    (cutFrom shape held cs).flatMap text = held.reverse ++ cs := by
  induction cs generalizing shape held with
  | nil => simp [cutFrom]
  | cons c cs ih =>
    unfold cutFrom
    split <;> simp [ih]

theorem flatMap_text_cut (cs : List Char) : (cut cs).flatMap text = cs := by
  cases cs with
  | nil => rfl
  | cons c cs => simp [cut, flatMap_text_cutFrom]

theorem text_ne_nil_of_mem_cutFrom {shape : Shape} {held cs : List Char} (hh : held ≠ [])
    {p : Piece} (hp : p ∈ cutFrom shape held cs) : p.text ≠ [] := by
  induction cs generalizing shape held with
  | nil => simp [cutFrom] at hp; subst hp; simpa using hh
  | cons c cs ih =>
    unfold cutFrom at hp
    split at hp
    · exact ih (by simp) hp
    · rcases List.mem_cons.1 hp with rfl | hp
      · simpa using hh
      · exact ih (by simp) hp

theorem text_ne_nil_of_mem_cut {cs : List Char} {p : Piece} (hp : p ∈ cut cs) : p.text ≠ [] := by
  cases cs with
  | nil => simp at hp
  | cons c cs => exact text_ne_nil_of_mem_cutFrom (by simp) hp

theorem cutFrom_feed (shape : Shape) (held as bs : List Char) :
    cutFrom shape held (as ++ '\n' :: bs) =
      cutFrom shape held as ++ ⟨.blank, ['\n']⟩ :: cut bs := by
  induction as generalizing shape held with
  | nil =>
    simp only [List.nil_append, cutFrom, Shape.grow_feed, Shape.ofChar_feed, List.cons_append]
    rw [cutFrom_of_grow_none (by simp)]
    rfl
  | cons c as ih =>
    simp only [List.cons_append, cutFrom]
    split <;> simp [ih]

/-- No piece reaches over a line feed. -/
theorem cut_feed (as bs : List Char) :
    cut (as ++ '\n' :: bs) = cut as ++ ⟨.blank, ['\n']⟩ :: cut bs := by
  cases as with
  | nil =>
    simp only [List.nil_append, cut, Shape.ofChar_feed]
    rw [cutFrom_of_grow_none (by simp)]
    rfl
  | cons c as => exact cutFrom_feed _ _ as bs

end Piece
end TinyFront
