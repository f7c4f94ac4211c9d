import TinyFront.Text.Split

/-!
Lines of text: cutting at line feeds, reading foreign line ends, and filling columns.
Main statement: a text with unified line ends holds no carriage return, and one without carriage
returns is left as it is.
-/
namespace TinyFront.Text

def splitLines : List Char → List (List Char) := splitAt '\n'

theorem length_splitLines (cs : List Char) : (splitLines cs).length = cs.count '\n' + 1 :=
  length_splitAt '\n' cs

/-- A line end read as CR LF keeps no carriage return. -/
def dropReturn (line : List Char) : List Char :=
  if line.getLast? = some '\r' then line.dropLast else line

/-- Every line end, be it LF, CR LF or CR, becomes one line feed. -/
def unifyNewlines : List Char → List Char
  | [] => []
  | '\r' :: '\n' :: cs => '\n' :: unifyNewlines cs
  | '\r' :: cs => '\n' :: unifyNewlines cs
  | c :: cs => c :: unifyNewlines cs

theorem return_not_mem_unifyNewlines (cs : List Char) : '\r' ∉ unifyNewlines cs := by
  fun_induction unifyNewlines cs with
  | case1 => simp
  | case2 cs ih => simp [ih]
  | case3 cs h ih => simp [ih]
  | case4 c cs h h' ih =>
    simp only [List.mem_cons, not_or]
    exact ⟨fun e => h' e.symm, ih⟩

theorem unifyNewlines_of_not_mem {cs : List Char} (h : '\r' ∉ cs) : unifyNewlines cs = cs := by
  fun_induction unifyNewlines cs with
  | case1 => rfl
  | case2 cs ih => simp at h
  | case3 cs _ ih => simp at h
  | case4 c cs _ _ ih => simp_all

/-- Blanks before the text up to the width; a longer text stays whole. -/
def padLeft (width : Nat) (s : String) : String :=
  String.ofList (List.replicate (width - s.length) ' ') ++ s

/-- Blanks after the text up to the width; a longer text stays whole. -/
def padRight (width : Nat) (s : String) : String :=
  s ++ String.ofList (List.replicate (width - s.length) ' ')

end TinyFront.Text
