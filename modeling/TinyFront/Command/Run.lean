import TinyFront.Command.Arguments
import TinyFront.Command.Report
import TinyFront.Format.Calls
import TinyFront.Tree.Outline

/-!
The commands: checking and formatting the sources of a package, and listing the tokens or the tree
of a single file. Main statement: checking leaves the disk as it is.
-/
namespace TinyFront.Command

open Files

def name : String := "atiny"

def version : String := "0.1.0"

def versionLine : String := name ++ ", version " ++ version

def usage : String :=
  "Usage: " ++ name ++ " [-v] (check | format [--check] [--stdin]) [PATH]\n" ++
  "       " ++ name ++ " [-v] (tokens | view) FILE\n" ++
  "       " ++ name ++ " --version"

/-- The number of declarations of a program, if the file holds one. -/
def checkFile (colors : Bool) (d : Disk) (file : Files.Path) :
    Except Crash (Visit (Option Nat)) := do
  let text ← (d.readText file).mapError .unreadable
  match ← parse colors file.text text with
  | .ok p => return ⟨some p.decls.length, [], d⟩
  | .error outputs => return ⟨none, outputs, d⟩

def checkSummary (counts : List (Option Nat)) : Nat × Output :=
  let failed := counts.count none
  let total := toString counts.length
  if failed = 0 then
    (0, .say ("checked " ++ total ++ " file(s), " ++ toString ((counts.filterMap id).foldl (· + ·) 0) ++
      " declaration(s), no errors"))
  else (1, .warn (toString failed ++ " of " ++ total ++ " file(s) failed to parse"))

/-- The settings and the sources for a target. -/
def prepare (d : Disk) (target : Files.Path) : Except Crash (Config × List Files.Path) := do
  let (config, _) ← (Config.load d target).mapError .config
  return (config, ← (sources d target config).mapError .sources)

def noFilesFound (config : Config) : String := "no " ++ config.extension ++ " files found"

def check (d : Disk) (target : Files.Path) : Result :=
  match prepare d target with
  | .error c => .crashed d [] c
  | .ok (config, files) =>
    if files.isEmpty then ⟨0, [.warn ("warning: " ++ noFilesFound config)], d, none⟩
    else
      let s := sweep (checkFile config.colored) d files
      match s.crash with
      | some c => .crashed s.disk s.outputs c
      | none =>
        let (exit, line) := checkSummary s.values
        ⟨exit, s.outputs ++ [line], s.disk, none⟩

/-- How a file stands to its canonical layout. -/
inductive Layout
  | broken
  | canonical
  /-- The file is laid out otherwise and is left so. -/
  | kept
  | rewritten
  deriving DecidableEq, Repr

def formatFile (colors checkOnly : Bool) (d : Disk) (file : Files.Path) :
    Except Crash (Visit Layout) := do
  let text ← (d.readText file).mapError .unreadable
  match ← parse colors file.text text with
  | .error outputs => return ⟨.broken, outputs, d⟩
  | .ok p =>
    let formatted := p.format standardIndent
    if formatted = text then return ⟨.canonical, [], d⟩
    else if checkOnly then return ⟨.kept, [.say ("would reformat " ++ file.text)], d⟩
    else return ⟨.rewritten, [.say ("formatted " ++ file.text)], d.writeText file formatted⟩

/-- Nothing is left to be done by hand. -/
def Layout.isSettled : Layout → Bool
  | canonical | rewritten => true
  | broken | kept => false

def formatFiles (d : Disk) (target : Files.Path) (checkOnly : Bool) : Result :=
  match prepare d target with
  | .error c => .crashed d [] c
  | .ok (config, files) =>
    if files.isEmpty then ⟨0, [.warn (noFilesFound config)], d, none⟩
    else
      let s := sweep (formatFile config.colored checkOnly) d files
      match s.crash with
      | some c => .crashed s.disk s.outputs c
      | none => ⟨if s.values.all Layout.isSettled then 0 else 1, s.outputs, s.disk, none⟩

/-- The name under which the input stream is reported on. -/
def inputName : String := "<stdin>"

def formatInput (d : Disk) (target : Files.Path) (checkOnly : Bool) (input : String) : Result :=
  match Config.load d target with
  | .error e => .crashed d [] (.config e)
  | .ok (config, _) =>
    let text := String.ofList (Text.unifyNewlines input.toList)
    match parse config.colored inputName text with
    | .error c => .crashed d [] c
    | .ok (.error outputs) => ⟨1, outputs, d, none⟩
    | .ok (.ok p) =>
      let formatted := p.format standardIndent
      if checkOnly then ⟨if formatted = text then 0 else 1, [], d, none⟩
      else ⟨0, [.out formatted], d, none⟩

/-- A token with its byte range, its kind and its text, in columns. -/
def tokenLine (t : Token) : String :=
  Text.padLeft 6 (toString t.span.start) ++ ".." ++ Text.padRight 6 (toString t.span.stop) ++ " " ++
    Text.padRight 16 t.kind.label ++ " " ++ Text.quote t.text

/-- The text and the settings for a single file; the file is read first. -/
def prepareFile (d : Disk) (file : String) : Except Crash (Config × String) := do
  let text ← (d.readText (.ofString file)).mapError .unreadable
  let (config, _) ← (Config.load d (.ofString file)).mapError .config
  return (config, text)

theorem prepareFile_eq_ok {d : Disk} {file text : String} {config : Config} :
    prepareFile d file = .ok (config, text) ↔
      d.readText (.ofString file) = .ok text ∧
        ∃ found, Config.load d (.ofString file) = .ok (config, found) := by
  rw [prepareFile]
  cases d.readText (.ofString file) with
  | error cause => exact ⟨nofun, nofun⟩
  | ok read =>
    cases Config.load d (.ofString file) with
    | error e => exact ⟨nofun, nofun⟩
    | ok loaded =>
      obtain ⟨settings, found⟩ := loaded
      show Except.ok (settings, read) = .ok (config, text) ↔ _
      simp [and_comm]

def tokens (d : Disk) (file : String) : Result :=
  match prepareFile d file with
  | .error c => .crashed d [] c
  | .ok (config, text) =>
    match lex file text with
    | .error reports => ⟨1, reports.map (shown config.colored ⟨file, text⟩), d, none⟩
    | .ok ts => ⟨0, ts.map fun t => .say (tokenLine t), d, none⟩

def view (d : Disk) (file : String) : Result :=
  match prepareFile d file with
  | .error c => .crashed d [] c
  | .ok (config, text) =>
    match parse config.colored file text with
    | .error c => .crashed d [] c
    | .ok (.error outputs) => ⟨1, outputs, d, none⟩
    | .ok (.ok p) =>
      if p.levels ≤ maxCalls then ⟨0, p.listing.map .say, d, none⟩
      else .crashed d ((p.listingWithin maxCalls).map .say) .exhausted

/-- What comes of a command on a path, which has to lead to something that fits the command. -/
def onPath (d : Disk) (path : String) (fits : Node → Bool) (act : Files.Path → Result) :
    Option Result :=
  if path.toList.contains Path.nullCharacter then
    some (.crashed d [] (.unreadable .nullCharacter))
  else if (d.written? path).any fits then some (act (.ofString path))
  else none

/-- The result of a command line, unless the command line makes no sense: its words are no
invocation, or its path leads to nothing, or to a folder where a file is asked for. -/
def run? (d : Disk) (input : String) (args : List String) : Option Result := do
  match ← Invocation.ofArguments? args with
  | .version => return ⟨0, [.say versionLine], d, none⟩
  | .help => return ⟨0, [.say usage], d, none⟩
  | .check path => onPath d path (fun _ => true) (check d)
  | .format path checkOnly useStdin =>
    onPath d path (fun _ => true) fun target =>
      if useStdin then formatInput d target checkOnly input else formatFiles d target checkOnly
  | .tokens file => onPath d file Node.isFile fun _ => tokens d file
  | .view file => onPath d file Node.isFile fun _ => view d file

theorem disk_of_checkFile {colors : Bool} {d : Disk} {file : Files.Path} {v : Visit (Option Nat)}
    (h : checkFile colors d file = .ok v) : v.disk = d := by
  simp only [checkFile, bind, Except.bind] at h
  split at h
  · contradiction
  · split at h
    · contradiction
    · split at h <;> (injection h with h; subst h; rfl)

theorem disk_sweep {α : Type} {visit : Disk → Files.Path → Except Crash (Visit α)}
    (hv : ∀ d file v, visit d file = .ok v → v.disk = d) (d : Disk) (files : List Files.Path) :
    (sweep visit d files).disk = d := by
  induction files generalizing d with
  | nil => rfl
  | cons file files ih =>
    simp only [sweep]
    split
    · rfl
    · next v h => rw [ih, hv d file v h]

theorem disk_check (d : Disk) (target : Files.Path) : (check d target).disk = d := by
  unfold check
  split
  · rfl
  · split
    · rfl
    · have hs : ∀ colors files, (sweep (checkFile colors) d files).disk = d := fun colors files =>
        disk_sweep (fun _ _ _ h => disk_of_checkFile h) d files
      simp only []
      split <;> simp [Result.crashed, hs]

end TinyFront.Command
