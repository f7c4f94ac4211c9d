import TinyFront.Text.Split

/-!
Paths as they are written, and locations, which paths lead to. Main statement: joining nothing to
a path leaves it as it is.
-/
namespace TinyFront.Files

/-- The names on the way from the root of a disk. -/
abbrev Location := List String

/-- A written path without its empty parts and the parts that stand for where one is. -/
structure Path where
  /-- The slashes at the front of an absolute path. -/
  root : String
  parts : List String
  deriving DecidableEq, Repr

def pathParts (s : String) : List String :=
  (Text.splitAt '/' s.toList).map String.ofList

/-- A part that leads nowhere else. -/
def staysPut (part : String) : Bool := part.isEmpty || part == "."

/-- Where a part of a path leads to: up one folder, or to the name in the folder. -/
def advance (loc : Location) (part : String) : Location :=
  if part = ".." then loc.dropLast else loc ++ [part]

namespace Path

def here : Path := ⟨"", []⟩

/-- Two slashes at the front are kept, and any other number counts as one. -/
def rootOf (s : String) : String :=
  match (s.toList.takeWhile (· == '/')).length with
  | 0 => ""
  | 2 => "//"
  | _ => "/"

def ofString (s : String) : Path := ⟨rootOf s, (pathParts s).filter (!staysPut ·)⟩

def isAbsolute (p : Path) : Bool := !p.root.isEmpty

def text (p : Path) : String :=
  if p.root.isEmpty && p.parts.isEmpty then "."
  else p.root ++ String.intercalate "/" p.parts

/-- A path below another one; an absolute path replaces it. -/
def join (p q : Path) : Path := if q.isAbsolute then q else ⟨p.root, p.parts ++ q.parts⟩

def ofLocation (loc : Location) : Path := ⟨"/", loc⟩

def nullCharacter : Char := '\x00'

def hasNull (p : Path) : Bool := p.parts.any (·.toList.contains nullCharacter)

def below (p : Path) (names : List String) : Path := ⟨p.root, p.parts ++ names⟩

@[simp] theorem join_here (p : Path) : p.join here = p := by
  simp [join, here, isAbsolute]

@[simp] theorem below_nil (p : Path) : p.below [] = p := by simp [below]

end Path
end TinyFront.Files
