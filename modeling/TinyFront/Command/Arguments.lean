/-!
Command lines: options in front of the command, the command, and its own options and paths, which
may stand in any order. Main statement: a word that is taken as a path does not start with a hyphen
unless the word `--` stands before it.
-/
namespace TinyFront.Command

/-- What a command line asks for. -/
inductive Invocation
  | version
  | help
  | check (path : String)
  | format (path : String) (checkOnly useStdin : Bool)
  | tokens (file : String)
  | view (file : String)
  deriving DecidableEq, Repr

inductive Flag
  | help | version | verbose | checkOnly | useStdin
  deriving DecidableEq, Repr

/-- The spellings of the flags that may stand somewhere. -/
abbrev Spellings := List (String × Flag)

def generalFlags : Spellings :=
  [("-v", .verbose), ("--verbose", .verbose), ("--version", .version), ("--help", .help)]

def plainFlags : Spellings := [("--help", .help)]

def formatFlags : Spellings := [("--check", .checkOnly), ("--stdin", .useStdin), ("--help", .help)]

/-- More than a hyphen, with a hyphen in front. -/
def isFlagWord (word : String) : Bool := word.toList.head? = some '-' && word.toList.length > 1

/-- A word is the spelling of a flag, or, behind a single hyphen, the letters of several. -/
def flagsOfWord (spellings : Spellings) (word : String) : Option (List Flag) :=
  match spellings.lookup word with
  | some f => some [f]
  | none =>
    if "--".toList.isPrefixOf word.toList then none
    else word.toList.tail.mapM fun c => spellings.lookup (String.ofList ['-', c])

/-- The flags in front, and the words from the first one on that is none. -/
def leadingFlags (spellings : Spellings) : List String → Option (List Flag × List String)
  | [] => some ([], [])
  | word :: words =>
    if word = "--" then some ([], words)
    else if isFlagWord word then do
      let flags ← flagsOfWord spellings word
      let (more, rest) ← leadingFlags spellings words
      return (flags ++ more, rest)
    else some ([], word :: words)

/-- All flags, and the words between them. -/
def separateFlags (spellings : Spellings) : List String → Option (List Flag × List String)
  | [] => some ([], [])
  | word :: words =>
    if word = "--" then some ([], words)
    else if isFlagWord word then do
      let flags ← flagsOfWord spellings word
      let (more, rest) ← separateFlags spellings words
      return (flags ++ more, rest)
    else (separateFlags spellings words).map fun (more, rest) => (more, word :: rest)

/-- The flag that makes all else void: of several the first one counts. -/
def request? (flags : List Flag) : Option Invocation :=
  flags.findSome? fun
    | .version => some .version
    | .help => some .help
    | _ => none

def withPath (spellings : Spellings) (standard : Option String)
    (build : List Flag → String → Invocation) (words : List String) : Option Invocation := do
  let (flags, paths) ← separateFlags spellings words
  match request? flags with
  | some request => return request
  | none =>
    match paths with
    | [] => return build flags (← standard)
    | [path] => return build flags path
    | _ => none

def ofCommand (name : String) (words : List String) : Option Invocation :=
  match name with
  | "check" => withPath plainFlags (some ".") (fun _ path => .check path) words
  | "format" =>
    withPath formatFlags (some ".")
      (fun flags path => .format path (flags.contains .checkOnly) (flags.contains .useStdin)) words
  | "tokens" => withPath plainFlags none (fun _ file => .tokens file) words
  | "view" => withPath plainFlags none (fun _ file => .view file) words
  | _ => none

/-- What the words behind a first run of flags ask for. Flags behind `--` are no command, but they
may still make all else void. -/
def afterFlags : List String → Option Invocation
  | [] => none
  | name :: words =>
    if isFlagWord name then do request? (← leadingFlags generalFlags (name :: words)).1
    else ofCommand name words

/-- What the words of a command line ask for, if they make sense. -/
def Invocation.ofArguments? (args : List String) : Option Invocation := do
  let (flags, rest) ← leadingFlags generalFlags args
  (request? flags).or (afterFlags rest)

theorem not_isFlagWord_of_separateFlags {spellings : Spellings} {words paths : List String}
    {flags : List Flag} (h : separateFlags spellings words = some (flags, paths))
    (hw : "--" ∉ words) {path : String} (hp : path ∈ paths) : isFlagWord path = false := by
  induction words generalizing flags paths with
  | nil => simp [separateFlags] at h; simp [h.2] at hp
  | cons word words ih =>
    simp only [List.mem_cons, not_or] at hw
    rw [separateFlags, if_neg (Ne.symm hw.1)] at h
    split at h
    · obtain ⟨_, _, h⟩ := Option.bind_eq_some_iff.1 h
      obtain ⟨⟨_, rest⟩, hrest, h⟩ := Option.bind_eq_some_iff.1 h
      injection h with h
      injection h with _ h
      exact ih hrest hw.2 (h ▸ hp)
    · next hf =>
      obtain ⟨⟨_, rest⟩, hrest, h⟩ := Option.map_eq_some_iff.1 h
      injection h with _ h
      rcases List.mem_cons.1 (h ▸ hp) with rfl | hp
      · simpa using hf
      · exact ih hrest hw.2 hp

end TinyFront.Command
