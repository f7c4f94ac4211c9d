/-!
Cutting a text at every occurrence of a separator, and joining the pieces again. Main statement:
joining undoes cutting.
-/
namespace TinyFront.Text

/-- The pieces between separators; a text with `n` of them has `n + 1` pieces. -/
def splitAt (separator : Char) : List Char → List (List Char)
  | [] => [[]]
  | c :: cs =>
    if c = separator then [] :: splitAt separator cs
    else
      match splitAt separator cs with
      | [] => [[c]]
      | piece :: pieces => (c :: piece) :: pieces

theorem splitAt_ne_nil (separator : Char) (cs : List Char) : splitAt separator cs ≠ [] := by
  cases cs with
  | nil => simp [splitAt]
  | cons c cs => unfold splitAt; split <;> (try split) <;> simp

@[simp] theorem splitAt_separator (separator : Char) (cs : List Char) :
    splitAt separator (separator :: cs) = [] :: splitAt separator cs := by
  simp [splitAt]

theorem length_splitAt (separator : Char) (cs : List Char) :
    (splitAt separator cs).length = cs.count separator + 1 := by
  induction cs with
  | nil => rfl
  | cons c cs ih =>
    by_cases h : c = separator
    · simp [h, ih]
    · cases hs : splitAt separator cs with
      | nil => exact absurd hs (splitAt_ne_nil separator cs)
      | cons piece pieces => simp_all [splitAt]

theorem splitAt_of_not_mem {separator : Char} {cs : List Char} (h : separator ∉ cs) :
    splitAt separator cs = [cs] := by
  induction cs with
  | nil => rfl
  | cons c cs ih =>
    obtain ⟨hc, hcs⟩ := not_or.1 (mt List.mem_cons.2 h)
    rw [splitAt, if_neg (Ne.symm hc), ih hcs]

theorem splitAt_append (separator : Char) (as bs : List Char) :
    splitAt separator (as ++ separator :: bs) = splitAt separator as ++ splitAt separator bs := by
  induction as with
  | nil => simp [splitAt]
  | cons a as ih =>
    by_cases ha : a = separator
    · simp [ha, ih]
    · obtain ⟨piece, pieces, hs⟩ := List.exists_cons_of_ne_nil (splitAt_ne_nil separator as)
      simp [splitAt, ha, ih, hs]

/-- A single separator stands between each two pieces. -/
def joinWith (separator : Char) : List (List Char) → List Char
  | [] => []
  | [piece] => piece
  | piece :: pieces => piece ++ separator :: joinWith separator pieces

theorem joinWith_splitAt (separator : Char) (cs : List Char) :
    joinWith separator (splitAt separator cs) = cs := by
  induction cs with
  | nil => rfl
  | cons c cs ih =>
    cases hs : splitAt separator cs with
    | nil => exact absurd hs (splitAt_ne_nil separator cs)
    | cons piece pieces =>
      rw [hs] at ih
      by_cases h : c = separator
      · subst h; simp [hs, joinWith, ih]
      · cases pieces <;> simp_all [splitAt, joinWith]

end TinyFront.Text
