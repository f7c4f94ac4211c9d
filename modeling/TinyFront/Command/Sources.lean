import TinyFront.Config.Find
import TinyFront.Files.Search

/-!
The sources that a path stands for: the file itself, or every file with the configured extension
below the configured folders. Main statements: below one folder, each source is listed once, and a
target that is a file is its own only source.
-/
namespace TinyFront.Command

open Files

/-- Why the sources of a target cannot be told. -/
inductive SourceFlaw
  /-- A configured folder is no text. -/
  | dirNotText
  /-- A configured folder cannot be looked up. -/
  | unreadable (cause : Unreadable)
  /-- The extension makes no pattern. -/
  | patternMalformed
  deriving DecidableEq, Repr

def SourceFlaw.message : SourceFlaw → String
  | dirNotText => Config.fileName ++ ": a source folder is no text"
  | unreadable cause => cause.message
  | patternMalformed => Config.fileName ++ ": the extension makes no pattern"

/-- The places below a folder that a route leads to, in the order of their names. -/
def sourcesBelow (d : Disk) (route : Route) (root : Files.Path) : List Files.Path :=
  match d.locate? root with
  | some loc => (d.search route loc).map root.below
  | none => []

theorem nodup_sourcesBelow (d : Disk) (route : Route) (root : Files.Path) :
    (sourcesBelow d route root).Nodup := by
  unfold sourcesBelow
  split
  · next loc _ =>
    refine List.Pairwise.map _ ?_ (d.nodup_search route loc)
    intro a b hab he
    exact hab (List.append_cancel_left (Files.Path.mk.inj he).2)
  · exact List.nodup_nil

/-- The configured folders that are there. A path with a null character leads nowhere. -/
def roots (d : Disk) (target : Files.Path) : List Toml.Value → Except SourceFlaw (List Files.Path)
  | [] => .ok []
  | .string s :: vs => do
    let root := target.join (.ofString s)
    if d.isTooLong root && !root.hasNull then .error (.unreadable .tooLong)
    else
      let others ← roots d target vs
      return if (d.node? root).any Node.isFolder then root :: others else others
  | _ :: _ => .error .dirNotText

/-- All names that end in an extension, which may itself hold a pattern. -/
def route? (extension : String) : Except SourceFlaw Route :=
  match Route.ofPattern? ("*" ++ extension) with
  | some route => .ok route
  | none => .error .patternMalformed

/-- Without any configured folder the target itself is searched. -/
def sources (d : Disk) (target : Files.Path) (config : Config) :
    Except SourceFlaw (List Files.Path) :=
  if (d.node? target).any Node.isFile then .ok [target]
  else do
    let roots ← roots d target config.dirs
    let route ← route? config.extension
    return (if roots.isEmpty then [target] else roots).flatMap (sourcesBelow d route)

theorem sources_of_isFile {d : Disk} {target : Files.Path} (config : Config)
    (h : (d.node? target).any Node.isFile = true) : sources d target config = .ok [target] := by
  simp [sources, h]

end TinyFront.Command
