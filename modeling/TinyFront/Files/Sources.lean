import TinyFront.Files.Disk
import TinyFront.Source.Text

/-!
Sources by name: those that are known already, and those that a disk holds under the name as a
path.
-/
namespace TinyFront.Files

/-- The source of a name; what is known goes before what is on the disk. -/
def source? (known : List Source) (d : Disk) (name : String) : Option Source :=
  (known.find? (·.name == name)).or
    ((d.readText (.ofString name)).toOption.map fun text => ⟨name, text⟩)

theorem source?_of_known {known : List Source} {d : Disk} {name : String} {s : Source}
    (h : known.find? (·.name == name) = some s) : source? known d name = some s := by
  simp [source?, h]

end TinyFront.Files
