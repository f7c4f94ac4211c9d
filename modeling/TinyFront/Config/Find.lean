import TinyFront.Config.Basic
import TinyFront.Files.Disk

/-!
Finding the configuration of a place on a disk: the document in the folder itself or in the nearest
folder above it that has one. Main statement: the location that is found has something, and ends
in the document's name.
-/
namespace TinyFront

/-- Why a configuration cannot be loaded. -/
inductive ConfigFailure
  | unreadable (cause : Files.Unreadable)
  | flawed (flaw : ConfigFlaw)
  deriving DecidableEq, Repr

def ConfigFailure.message : ConfigFailure → String
  | unreadable cause => cause.message
  | flawed flaw => flaw.message

namespace Config

open Files

/-- The nearest document; the location is given from its last name on. -/
def upward (d : Disk) : (reversed : List String) → Option Location
  | [] => if (d.nodeAt? [fileName]).isSome then some [fileName] else none
  | name :: above =>
    let candidate := (fileName :: name :: above).reverse
    if (d.nodeAt? candidate).isSome then some candidate else upward d above

/-- The document for a path, which may lead to a file or to nothing at all. -/
def find? (d : Disk) (p : Files.Path) : Except Unreadable (Option Location) :=
  let loc := d.resolve p
  let folder := if (d.nodeAt? loc).any Node.isFile then loc.dropLast else loc
  if p.hasNull then .error .nullCharacter
  else if d.isTooLong (.ofLocation loc) then .error .tooLong
  else .ok (upward d folder.reverse)

def noneFound : String := "No " ++ fileName ++ " found in any parent directory"

def loadAt (d : Disk) (loc : Location) : Except ConfigFailure Config :=
  match d.nodeAt? loc with
  | none => .error (.unreadable .missing)
  | some .folder => .error (.unreadable .isFolder)
  | some (.file bytes) =>
    match Disk.decode bytes with
    | .error e => .error (.unreadable e)
    | .ok s =>
      match ofDocument s with
      | .error e => .error (.flawed e)
      | .ok c => .ok c

/-- The configuration for a path and where it is; without a document it is the standard one. -/
def load (d : Disk) (p : Files.Path) : Except ConfigFailure (Config × Option Location) :=
  match find? d p with
  | .error cause => .error (.unreadable cause)
  | .ok none => .ok (standard, none)
  | .ok (some loc) => do return (← loadAt d loc, some loc)

theorem isSome_of_upward {d : Disk} {reversed : List String} {loc : Location}
    (h : upward d reversed = some loc) :
    (d.nodeAt? loc).isSome = true ∧ loc.getLast? = some fileName := by
  induction reversed with
  | nil =>
    unfold upward at h
    split at h
    · next hs => injection h with h; subst h; exact ⟨hs, rfl⟩
    · contradiction
  | cons name above ih =>
    simp only [upward] at h
    split at h
    · next hs => injection h with h; subst h; exact ⟨hs, by simp⟩
    · exact ih h

theorem isSome_of_find? {d : Disk} {p : Files.Path} {loc : Location}
    (h : find? d p = .ok (some loc)) :
    (d.nodeAt? loc).isSome = true ∧ loc.getLast? = some fileName := by
  simp only [find?] at h
  split at h
  · contradiction
  · split at h
    · contradiction
    · injection h with h
      exact isSome_of_upward h

end Config
end TinyFront
