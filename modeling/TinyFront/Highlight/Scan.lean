import TinyFront.Highlight.Rule
import TinyFront.Text.Lines

/-!
Highlighting a whole text. Main statement: the fragments concatenate to the text.
-/
namespace TinyFront.Highlight

/-- The fragments that a text begins with. A character that no rule knows is an error by itself. -/
def step (before : Option Char) (c : Char) (cs : List Char) : List Fragment :=
  (rules.findSome? fun rule => rule before (c :: cs)).getD [⟨.error, [c]⟩]

theorem begins_step (before : Option Char) (c : Char) (cs : List Char) :
    Begins (c :: cs) (step before c cs) := by
  unfold step
  cases h : rules.findSome? fun rule => rule before (c :: cs) with
  | none => exact ⟨by simp, by simp⟩
  | some fs =>
    obtain ⟨rule, hr, hf⟩ := List.exists_of_findSome?_eq_some h
    exact sound_of_mem_rules hr before (c :: cs) fs hf

/-- The fragments of the text behind a given character. -/
def scanFrom (before : Option Char) : List Char → List Fragment
  | [] => []
  | c :: cs =>
    let fs := step before c cs
    let read := fs.flatMap (·.text)
    fs ++ scanFrom (read.getLast?.or before) (cs.drop (read.length - 1))
termination_by cs => cs.length

def scan (source : String) : List Fragment := scanFrom none source.toList

theorem drop_of_append {c : Char} {read rest cs : List Char} (hne : read ≠ [])
    (h : c :: cs = read ++ rest) : cs.drop (read.length - 1) = rest := by
  obtain ⟨r, rs, rfl⟩ := List.exists_cons_of_ne_nil hne
  rw [List.cons_append, List.cons.injEq] at h
  rw [h.2]
  simp

theorem flatMap_text_scanFrom (before : Option Char) (cs : List Char) :
    (scanFrom before cs).flatMap (·.text) = cs := by
  fun_induction scanFrom before cs with
  | case1 => rfl
  | case2 before c cs fs read ih =>
    obtain ⟨⟨rest, hrest⟩, hne⟩ := begins_step before c cs
    rw [List.flatMap_append, ih, drop_of_append hne hrest.symm]
    exact hrest

/-- Nothing of the text is lost or moved. -/
theorem flatMap_text_scan (source : String) :
    (scan source).flatMap (·.text) = source.toList :=
  flatMap_text_scanFrom none source.toList

/-- Fragments with the index of the character that each begins at. -/
def indexed : (index : Nat) → List Fragment → List (Nat × Fragment)
  | _, [] => []
  | index, f :: fs => (index, f) :: indexed (index + f.text.length) fs

def dropLeading (c : Char) (cs : List Char) : List Char := cs.dropWhile (· == c)

def dropTrailing (c : Char) (cs : List Char) : List Char :=
  (dropLeading c cs.reverse).reverse

/-- A text as it is shown on a page: without a byte order mark, with plain line feeds, without
empty lines at either end, and with a line feed behind the last line. -/
def tidy (source : String) : String :=
  let cs := source.toList
  let cs := if cs.head? = some '\uFEFF' then cs.tail else cs
  let cs := Text.unifyNewlines cs
  String.ofList (dropTrailing '\n' (dropLeading '\n' cs) ++ ['\n'])

end TinyFront.Highlight
