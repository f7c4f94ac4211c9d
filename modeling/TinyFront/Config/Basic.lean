import TinyFront.Toml.Document
import TinyFront.Toml.Truth

/-!
Settings of a package, as its configuration document gives them. Values are taken as they stand in
the document; only what is needed to find the sources has to have the right form.
-/
namespace TinyFront

structure Config where
  name : Toml.Value
  version : Toml.Value
  dirs : List Toml.Value
  /-- The end of the name of every source, with a point in front. -/
  extension : String
  color : Toml.Value

/-- What is wrong with a configuration. -/
inductive ConfigFlaw
  | refused (refusal : Toml.Refusal)
  /-- The value stands where a table is asked for. -/
  | notTable (key : String)
  | extensionNotText
  | dirsNotList
  deriving DecidableEq, Repr

def ConfigFlaw.message : ConfigFlaw → String
  | refused .malformed => "the document is malformed"
  | refused (.literalTooLong n) => "an integer has " ++ toString n ++ " digits"
  | refused .nestingTooDeep => "values nest too deep"
  | notTable key => key ++ " is no table"
  | extensionNotText => "the extension is no text"
  | dirsNotList => "dirs is no list"

namespace Config

/-- The settings where nothing else is asked for. -/
def standard : Config :=
  { name := .string "untitled"
    version := .string "0.0.0"
    dirs := [.string "src"]
    extension := ".at"
    color := .boolean true }

/-- The name of the document in a folder. -/
def fileName : String := "atiny.toml"

def withPoint (extension : String) : String :=
  if extension.toList.head? = some '.' then extension else "." ++ extension

/-- The parts of a value that has any: elements, characters, or keys. -/
def listed : Toml.Value → Option (List Toml.Value)
  | .array vs => some vs
  | .string s => some (s.toList.map fun c => .string (String.ofList [c]))
  | .table es => some (es.map fun e => .string e.key)
  | _ => none

/-- The entries of a section; a section that is left out has none. -/
def section? (key : String) (es : List Toml.Entry) : Except ConfigFlaw (List Toml.Entry) :=
  match Toml.Entry.find? key es with
  | none => .ok []
  | some (.table t) => .ok t
  | some _ => .error (.notTable key)

def extension? (source : List Toml.Entry) : Except ConfigFlaw String :=
  match Toml.Entry.find? "extension" source with
  | none => .ok standard.extension
  | some (.string s) => .ok (withPoint s)
  | some _ => .error .extensionNotText

def dirs? (source : List Toml.Entry) : Except ConfigFlaw (List Toml.Value) :=
  match Toml.Entry.find? "dirs" source with
  | none => .ok standard.dirs
  | some v =>
    match listed v with
    | some vs => .ok vs
    | none => .error .dirsNotList

def ofTable (es : List Toml.Entry) : Except ConfigFlaw Config := do
  let package ← section? "package" es
  let source ← section? "source" es
  let extension ← extension? source
  let dirs ← dirs? source
  let diagnostics ← section? "diagnostics" es
  return {
    name := (Toml.Entry.find? "name" package).getD standard.name
    version := (Toml.Entry.find? "version" package).getD standard.version
    dirs := dirs
    extension := extension
    color := (Toml.Entry.find? "color" diagnostics).getD standard.color }

def ofDocument (source : String) : Except ConfigFlaw Config :=
  match Toml.read source with
  | .ok es => ofTable es
  | .error r => .error (.refused r)

def colored (c : Config) : Bool := c.color.holds

theorem ofTable_nil : ofTable [] = .ok standard := rfl

theorem extension?_starts {source : List Toml.Entry} {extension : String}
    (h : extension? source = .ok extension) : extension.toList.head? = some '.' := by
  unfold extension? at h
  split at h
  · injection h with h; subst h; rfl
  · injection h with h
    subst h
    unfold withPoint
    split
    · assumption
    · simp
  · contradiction

end Config
end TinyFront
