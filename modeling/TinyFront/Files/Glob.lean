import TinyFront.Files.Path

/-!
Patterns for names: a star stands for any run of characters, a question mark for one character,
and brackets for one character of a set. Main statement: a pattern without any of these matches
exactly its own text.
-/
namespace TinyFront.Files

/-- A member of a set: a character, or all characters from one to another. -/
inductive SetMember
  | char (c : Char)
  | range (first last : Char)
  deriving DecidableEq, Repr

namespace SetMember

def contains (c : Char) : SetMember → Bool
  | char own => c == own
  | range first last => first ≤ c && c ≤ last

/-- A range that no character is in. -/
def isReversed : SetMember → Bool
  | char _ => false
  | range first last => last < first

theorem contains_of_isReversed {m : SetMember} (h : m.isReversed = true) (c : Char) :
    m.contains c = false := by
  cases m with
  | char own => simp [isReversed] at h
  | range first last =>
    have h : last < first := of_decide_eq_true h
    by_cases hf : first ≤ c
    · have hl : ¬ c ≤ last := fun hl => Char.not_lt.2 (Char.le_trans hf hl) h
      simp [contains, hl]
    · simp [contains, hf]

end SetMember

inductive GlobItem
  | run
  | one
  | literal (c : Char)
  | set (negated : Bool) (members : List SetMember)
  deriving DecidableEq, Repr

namespace Glob

/-- The members between brackets. A hyphen between two characters makes a range of them. -/
def members : List Char → List SetMember
  | a :: '-' :: b :: cs => .range a b :: members cs
  | a :: cs => .char a :: members cs
  | [] => []

/-- What stands before the closing bracket, and what follows it. A bracket that comes first does
not close. -/
def untilBracket (cs : List Char) : Option (List Char × List Char) :=
  match cs with
  | [] => none
  | c :: rest =>
    let behind := rest.dropWhile (· != ']')
    if behind.isEmpty then none else some (c :: rest.takeWhile (· != ']'), behind.tail)

/-- The set of the given members. An exclamation mark at the front negates the set, even where only
reversed ranges stood before it; as the start of a range it leaves the rest of that range behind. -/
def ofMembers : List SetMember → GlobItem
  | .char '!' :: rest => .set true rest
  | .range '!' last :: rest => .set true (.char '-' :: .char last :: rest)
  | own => .set false own

/-- The set behind an opening bracket, and what follows it. -/
def set? (cs : List Char) : Option (GlobItem × List Char) :=
  let own := fun inside => (members inside).filter (!·.isReversed)
  if cs.head? = some '!' then
    (untilBracket cs.tail).map fun (inside, rest) => (.set true (own inside), rest)
  else (untilBracket cs).map fun (inside, rest) => (ofMembers (own inside), rest)

/-- At most `bound` items of a pattern. An opening bracket without a closing one is literal. -/
def itemsUpTo : (bound : Nat) → List Char → List GlobItem
  | 0, _ => []
  | _, [] => []
  | bound + 1, c :: cs =>
    if c = '*' then .run :: itemsUpTo bound cs
    else if c = '?' then .one :: itemsUpTo bound cs
    else if c = '[' then
      match set? cs with
      | some (item, rest) => item :: itemsUpTo bound rest
      | none => .literal c :: itemsUpTo bound cs
    else .literal c :: itemsUpTo bound cs

/-- Every item takes a character of the pattern, so its length is bound enough. -/
def items (pattern : String) : List GlobItem := itemsUpTo pattern.toList.length pattern.toList

/-- Whether some end of the text has the property, the whole text and the empty end included. -/
def anyEnd (p : List Char → Bool) : List Char → Bool
  | [] => p []
  | c :: cs => p (c :: cs) || anyEnd p cs

def fits : List GlobItem → List Char → Bool
  | [], cs => cs.isEmpty
  | .run :: is, cs => anyEnd (fits is) cs
  | .one :: is, cs => match cs with
    | [] => false
    | _ :: cs => fits is cs
  | .literal l :: is, cs => match cs with
    | [] => false
    | c :: cs => c == l && fits is cs
  | .set negated ms :: is, cs => match cs with
    | [] => false
    | c :: cs => (ms.any (·.contains c) != negated) && fits is cs

/-- Whether the pattern stands for the name. -/
def fitsName (pattern name : String) : Bool := fits (items pattern) name.toList

/-- A character that stands for itself in a pattern. -/
def isPlain (c : Char) : Bool := c != '*' && c != '?' && c != '['

theorem itemsUpTo_of_isPlain {bound : Nat} {cs : List Char} (hb : cs.length ≤ bound)
    (h : cs.all isPlain = true) : itemsUpTo bound cs = cs.map .literal := by
  induction cs generalizing bound with
  | nil => cases bound <;> rfl
  | cons c cs ih =>
    cases bound with
    | zero => simp at hb
    | succ bound =>
      simp only [List.all_cons, Bool.and_eq_true, isPlain, bne_iff_ne, ne_eq] at h
      simp only [List.length_cons, Nat.add_le_add_iff_right] at hb
      obtain ⟨⟨⟨hs, hq⟩, ho⟩, ht⟩ := h
      simp [itemsUpTo, hs, hq, ho, ih hb (by simpa [isPlain] using ht)]

theorem fits_literals (ls cs : List Char) : fits (ls.map .literal) cs = (cs == ls) := by
  induction ls generalizing cs with
  | nil => cases cs <;> rfl
  | cons l ls ih => cases cs <;> simp [fits, ih]

theorem anyEnd_iff (p : List Char → Bool) (cs : List Char) :
    anyEnd p cs = true ↔ ∃ tail, tail <:+ cs ∧ p tail = true := by
  induction cs with
  | nil => simp [anyEnd]
  | cons c cs ih =>
    simp only [anyEnd, Bool.or_eq_true, ih]
    constructor
    · rintro (h | ⟨tail, ht, hp⟩)
      · exact ⟨c :: cs, List.suffix_rfl, h⟩
      · exact ⟨tail, ht.trans (List.suffix_cons c cs), hp⟩
    · rintro ⟨tail, ht, hp⟩
      rcases List.suffix_cons_iff.1 ht with rfl | ht
      · exact .inl hp
      · exact .inr ⟨tail, ht, hp⟩

theorem fitsName_star_iff {text name : String} (h : text.toList.all isPlain = true) :
    fitsName ("*" ++ text) name = true ↔ text.toList <:+ name.toList := by
  have hs : ("*" ++ text).toList = '*' :: text.toList := by simp
  simp only [fitsName, items, hs, List.length_cons, itemsUpTo, ↓reduceIte, fits, anyEnd_iff,
    itemsUpTo_of_isPlain (Nat.le_refl _) h, fits_literals, beq_iff_eq, exists_eq_right]

end Glob
end TinyFront.Files
