/-!
Control codes of a terminal: the escape character, a bracket, parameters, intermediate characters
and one final character. Text for a plain destination has every complete code taken out. Main
statements: a text without the escape character stays as it is, and a code leaves nothing behind.
-/
namespace TinyFront.Text

def escapeCode : Char := '\x1b'

def colorCode (attributes : String) : String := "\x1b[" ++ attributes ++ "m"

def isCodeParameter (c : Char) : Bool := '0' ≤ c && c ≤ '?'

def isCodeIntermediate (c : Char) : Bool := ' ' ≤ c && c ≤ '/'

def isCodeFinal (c : Char) : Bool := '@' ≤ c && c ≤ '~'

/-- What follows the code whose escape character has just been read, if that code is complete. -/
def afterCode? : List Char → Option (List Char)
  | '[' :: cs =>
    match (cs.dropWhile isCodeParameter).dropWhile isCodeIntermediate with
    | c :: rest => if isCodeFinal c then some rest else none
    | [] => none
  | _ => none

theorem length_afterCode? {cs rest : List Char} (h : afterCode? cs = some rest) :
    rest.length < cs.length := by
  unfold afterCode? at h
  split at h
  · next tail =>
    have h₁ := (List.dropWhile_sublist isCodeParameter (l := tail)).length_le
    have h₂ := (List.dropWhile_sublist isCodeIntermediate
      (l := tail.dropWhile isCodeParameter)).length_le
    split at h
    · next hc =>
      have hr := Option.some.inj (Option.ite_none_right_eq_some.1 h).2
      rw [hc, hr] at h₂
      simp only [List.length_cons] at h₂ ⊢
      omega
    · contradiction
  · contradiction

/-- A code that turns out incomplete is text after all. -/
def withoutCodes : List Char → List Char
  | [] => []
  | c :: cs =>
    match _h : if c = escapeCode then afterCode? cs else none with
    | some rest => withoutCodes rest
    | none => c :: withoutCodes cs
termination_by cs => cs.length
decreasing_by
  · have := length_afterCode? (Option.ite_none_right_eq_some.1 _h).2
    simp; omega
  · simp

def stripCodes (s : String) : String := String.ofList (withoutCodes s.toList)

theorem withoutCodes_of_not_mem {cs : List Char} (h : escapeCode ∉ cs) : withoutCodes cs = cs := by
  induction cs with
  | nil => simp [withoutCodes]
  | cons c cs ih =>
    simp only [List.mem_cons, not_or] at h
    rw [withoutCodes]
    split
    · next he => exact absurd (Option.ite_none_right_eq_some.1 he).1.symm h.1
    · rw [ih h.2]

theorem not_isCodeParameter_of_isCodeIntermediate {c : Char} (h : isCodeIntermediate c = true) :
    isCodeParameter c = false := by
  simp only [isCodeIntermediate, isCodeParameter, Bool.and_eq_true, decide_eq_true_eq,
    Bool.and_eq_false_iff, decide_eq_false_iff_not, Char.le_def, UInt32.le_iff_toNat_le,
    Char.reduceVal, UInt32.reduceToNat] at h ⊢
  omega

theorem not_isCodeParameter_of_isCodeFinal {c : Char} (h : isCodeFinal c = true) :
    isCodeParameter c = false ∧ isCodeIntermediate c = false := by
  simp only [isCodeFinal, isCodeIntermediate, isCodeParameter, Bool.and_eq_true,
    decide_eq_true_eq, Bool.and_eq_false_iff, decide_eq_false_iff_not, Char.le_def,
    UInt32.le_iff_toNat_le, Char.reduceVal, UInt32.reduceToNat] at h ⊢
  omega

theorem afterCode?_code {parameters intermediates rest : List Char} {last : Char}
    (hp : ∀ c ∈ parameters, isCodeParameter c = true)
    (hi : ∀ c ∈ intermediates, isCodeIntermediate c = true) (hl : isCodeFinal last = true) :
    afterCode? ('[' :: (parameters ++ (intermediates ++ last :: rest))) = some rest := by
  obtain ⟨hlp, hli⟩ := not_isCodeParameter_of_isCodeFinal hl
  have hd : (intermediates ++ last :: rest).dropWhile isCodeParameter =
      intermediates ++ last :: rest := by
    cases intermediates with
    | nil => simp [hlp]
    | cons c cs => simp [not_isCodeParameter_of_isCodeIntermediate (hi c (by simp))]
  simp [afterCode?, List.dropWhile_append_of_pos hp, hd, List.dropWhile_append_of_pos hi, hli, hl]

theorem withoutCodes_code {parameters intermediates rest : List Char} {last : Char}
    (hp : ∀ c ∈ parameters, isCodeParameter c = true)
    (hi : ∀ c ∈ intermediates, isCodeIntermediate c = true) (hl : isCodeFinal last = true) :
    withoutCodes (escapeCode :: '[' :: (parameters ++ (intermediates ++ last :: rest))) =
      withoutCodes rest := by
  rw [withoutCodes]
  split
  · next he =>
    rw [if_pos rfl, afterCode?_code hp hi hl] at he
    injection he with he
    rw [he]
  · next he => simp [afterCode?_code hp hi hl] at he

end TinyFront.Text
