import TinyFront.Text.Lines

/-!
Source texts: a name with a content, seen as lines and as UTF-8 bytes. Main statements: the width
of a text is the number of its bytes, and a walk over the whole text ends on the line that its line
feeds give.
-/
namespace TinyFront

/-- The number of UTF-8 bytes of a piece of text. -/
def byteWidth : List Char → Nat
  | [] => 0
  | c :: cs => c.utf8Size + byteWidth cs

@[simp] theorem byteWidth_nil : byteWidth [] = 0 := rfl

@[simp] theorem byteWidth_cons (c : Char) (cs : List Char) :
    byteWidth (c :: cs) = c.utf8Size + byteWidth cs := rfl

@[simp] theorem byteWidth_append (as bs : List Char) :
    byteWidth (as ++ bs) = byteWidth as + byteWidth bs := by
  induction as with
  | nil => simp
  | cons c cs ih => simp [ih, Nat.add_assoc]

theorem byteWidth_eq_length (cs : List Char) :
    byteWidth cs = (cs.flatMap String.utf8EncodeChar).length := by
  induction cs with
  | nil => rfl
  | cons c cs ih => simp [ih, String.length_utf8EncodeChar]

/-- The width is the number of bytes that the text takes when it is encoded. -/
theorem byteWidth_toList (s : String) : byteWidth s.toList = s.utf8ByteSize := by
  have h : s.toByteArray = s.toList.utf8Encode := by
    rw [← String.toByteArray_ofList, String.ofList_toList]
  rw [byteWidth_eq_length, ← String.size_toByteArray, h, List.utf8Encode, List.size_toByteArray]

/-- A line and a column, both counted from one. -/
structure Position where
  line : Nat
  column : Nat
  deriving DecidableEq, Repr

namespace Position

def past (p : Position) (c : Char) : Position :=
  if c = '\n' then ⟨p.line + 1, 1⟩ else ⟨p.line, p.column + 1⟩

/-- The position behind every character whose first byte lies below the limit; `offset` is the
offset of the first one. A limit inside a character counts that character. -/
def walk (limit : Nat) : (offset : Nat) → Position → List Char → Position
  | _, p, [] => p
  | offset, p, c :: cs =>
    if offset < limit then walk limit (offset + c.utf8Size) (p.past c) cs else p

theorem walk_append (as bs : List Char) (offset : Nat) (p : Position) (limit : Nat)
    (h : offset + byteWidth as ≤ limit) :
    walk limit offset p (as ++ bs) =
      walk limit (offset + byteWidth as) (as.foldl past p) bs := by
  induction as generalizing offset p with
  | nil => simp
  | cons c cs ih =>
    have hc : 0 < c.utf8Size := c.utf8Size_pos
    simp only [byteWidth_cons] at h
    have hlt : offset < limit := by omega
    simp [walk, hlt, ih (offset + c.utf8Size) (p.past c) (by omega), Nat.add_assoc]

theorem foldl_past_line (cs : List Char) (p : Position) :
    (cs.foldl past p).line = p.line + cs.count '\n' := by
  induction cs generalizing p with
  | nil => simp
  | cons c cs ih =>
    by_cases h : c = '\n'
    · simp [ih, past, h]; omega
    · simp [ih, past, h]

end Position

/-- A named text that spans can point into. -/
structure Source where
  name : String
  content : String
  deriving DecidableEq, Repr

namespace Source

def chars (s : Source) : List Char := s.content.toList

def byteSize (s : Source) : Nat := byteWidth s.chars

/-- The lines as they are shown: cut at line feeds, without a carriage return at their end. -/
def lines (s : Source) : List String :=
  (Text.splitLines s.chars).map fun line => String.ofList (Text.dropReturn line)

/-- Lines are counted from one; outside the text there is only the empty line. -/
def lineAt (s : Source) (n : Int) : String :=
  if 1 ≤ n then s.lines[n.toNat - 1]?.getD "" else ""

/-- An offset outside the text means its nearer end. -/
def clamp (s : Source) (offset : Int) : Nat := min offset.toNat s.byteSize

def location (s : Source) (offset : Int) : Position :=
  Position.walk (s.clamp offset) 0 ⟨1, 1⟩ s.chars

@[simp] theorem lines_length (s : Source) : s.lines.length = s.chars.count '\n' + 1 := by
  simp [lines, Text.length_splitLines]

theorem clamp_le (s : Source) (offset : Int) : s.clamp offset ≤ s.byteSize := by
  simp only [clamp]; omega

theorem location_byteSize (s : Source) :
    s.location s.byteSize = s.chars.foldl Position.past ⟨1, 1⟩ := by
  have h := Position.walk_append s.chars [] 0 ⟨1, 1⟩ s.byteSize (by simp [byteSize])
  simpa [location, clamp, Position.walk] using h

end Source
end TinyFront
