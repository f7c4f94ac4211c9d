import TinyFront.Command.Run

/-!
The program: it takes the files that a command may look at from the disk, hands them to the
command, prints what the command says and writes what it changes.
-/
namespace TinyFront.Program

open Command Files

def locationOf (path : String) : Location := (Files.Path.ofString path).parts

/-- What is at an entry of a folder and below it. Links are not followed, and what cannot be read is
not there. -/
partial def gather (folder : Location) (e : IO.FS.DirEntry) : IO (List (Location × Node)) := do
  let loc := folder ++ [e.fileName]
  try
    match (← e.path.symlinkMetadata).type with
    | .dir =>
      let inside ← (← e.path.readDir).toList.mapM (gather loc)
      return (loc, .folder) :: inside.flatten
    | .file => return [(loc, .file (← IO.FS.readBinFile e.path))]
    | _ => return []
  catch _ => return []

/-- What is at a path and below it. -/
def gatherAt (path : String) : IO (List (Location × Node)) := do
  let home ← IO.currentDir
  let there := home / path
  let loc := (Disk.empty (locationOf home.toString)).resolve (.ofString path)
  try
    match (← there.metadata).type with
    | .dir =>
      let inside ← (← there.readDir).toList.mapM (gather loc)
      return (loc, .folder) :: inside.flatten
    | .file => return [(loc, .file (← IO.FS.readBinFile there))]
    | _ => return []
  catch _ => return []

def absolute (loc : Location) : String := "/" ++ String.intercalate "/" loc

/-- The configurations in the folders that a location lies in. -/
def gatherConfigs : (reversed : List String) → IO (List (Location × Node))
  | [] => gatherAt (absolute [Config.fileName])
  | name :: above => do
    let here ← gatherAt (absolute (Config.fileName :: name :: above).reverse)
    return here ++ (← gatherConfigs above)

def subject? : Invocation → Option String
  | .check path | .format path _ _ | .tokens path | .view path => some path
  | .version | .help => none

def namedFolders (d : Disk) (path : String) : List String :=
  match Config.load d (.ofString path) with
  | .ok (config, _) => config.dirs.filterMap fun
    | .string s => some ((Files.Path.ofString path).join (.ofString s)).text
    | _ => none
  | .error _ => []

/-- All that a command line may look at. -/
def snapshot (args : List String) : IO Disk := do
  let home := locationOf (← IO.currentDir).toString
  match (Invocation.ofArguments? args).bind subject? with
  | none => return .empty home
  | some path =>
    let loc := (Disk.empty home).resolve (.ofString path)
    let entries := (← gatherAt path) ++ (← gatherConfigs loc.reverse)
    let folders := namedFolders (.ofEntries home entries) path
    return .ofEntries home (entries ++ (← folders.mapM gatherAt).flatten)

def inputFor (args : List String) : IO String := do
  match Invocation.ofArguments? args with
  | some (.format _ _ true) => (← IO.getStdin).readToEnd
  | _ => return ""

def report (before : Disk) (r : Result) : IO Unit := do
  let out ← IO.getStdout
  let err ← IO.getStderr
  out.putStr (r.stream (← out.isTty) Output.onOut)
  err.putStr (r.stream (← err.isTty) Output.onErr)
  for (loc, bytes) in r.disk.filesSince before do
    IO.FS.writeBinFile (absolute loc) bytes
  match r.crash with
  | some c => err.putStrLn (name ++ ": " ++ c.message)
  | none => return ()

end TinyFront.Program

open TinyFront TinyFront.Program in
def main (args : List String) : IO UInt32 := do
  let before ← snapshot args
  match Command.run? before (← inputFor args) args with
  | some r =>
    report before r
    return r.exit.toUInt32
  | none =>
    IO.eprintln Command.usage
    return 2
