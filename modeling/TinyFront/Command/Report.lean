import TinyFront.Command.Sources
import TinyFront.Diagnostic.Render
import TinyFront.Parser.Reader

/-!
What a command does: the texts that it prints, the disk that it leaves behind, and how it ends.
Main statement: what is printed for a file and what becomes of it does not depend on the files
after it.
-/
namespace TinyFront.Command

open Files

inductive Output
  | out (text : String)
  | err (text : String)
  deriving DecidableEq, Repr

namespace Output

/-- A line on the stream of results. -/
def say (line : String) : Output := out (line ++ "\n")

/-- A line on the stream of messages. -/
def warn (line : String) : Output := err (line ++ "\n")

def onOut : Output → String
  | out s => s
  | err _ => ""

def onErr : Output → String
  | out _ => ""
  | err s => s

end Output

/-- Why a command is cut short. -/
inductive Crash
  | config (failure : ConfigFailure)
  | sources (flaw : SourceFlaw)
  | unreadable (cause : Unreadable)
  | failure (failure : Failure)
  /-- More calls are open than may be. -/
  | exhausted
  deriving DecidableEq, Repr

def Crash.message : Crash → String
  | config f => Config.fileName ++ ": " ++ f.message
  | sources flaw => flaw.message
  | unreadable cause => cause.message
  | failure f => f.message
  | exhausted => "maximum recursion depth exceeded"

structure Result where
  exit : Nat
  outputs : List Output
  disk : Disk
  crash : Option Crash

namespace Result

def crashed (d : Disk) (outputs : List Output) (c : Crash) : Result := ⟨1, outputs, d, some c⟩

/-- All that is printed on one of the streams; only a terminal gets codes. -/
def stream (r : Result) (terminal : Bool) (pick : Output → String) : String :=
  String.join (r.outputs.map fun o =>
    if terminal then pick o else Text.stripCodes (pick o))

end Result

/-- The way a diagnostic of one file is shown, where no other file is known. -/
def shown (colors : Bool) (source : Source) (d : Diagnostic) : Output :=
  .warn (d.render colors fun name => if name = source.name then some source else none)

/-- A program, or the diagnostics that say why the text is none. -/
def parse (colors : Bool) (file text : String) :
    Except Crash (Except (List Output) (Program Span)) :=
  match readProgram file text with
  | .ok p => .ok (.ok p)
  | .error (.strays reports) => .ok (.error (reports.map (shown colors ⟨file, text⟩)))
  | .error (.unreadable e) =>
    match e.diagnostic? with
    | some d => .ok (.error [shown colors ⟨file, text⟩ d])
    | none => .error (.failure e)

/-- What comes of one file. -/
structure Visit (α : Type) where
  value : α
  outputs : List Output
  disk : Disk

/-- What comes of several files, up to the first one that cuts the command short. -/
structure Sweep (α : Type) where
  values : List α
  outputs : List Output
  disk : Disk
  crash : Option Crash

variable {α : Type}

def sweep (visit : Disk → Files.Path → Except Crash (Visit α)) : Disk → List Files.Path → Sweep α
  | d, [] => ⟨[], [], d, none⟩
  | d, file :: files =>
    match visit d file with
    | .error c => ⟨[], [], d, some c⟩
    | .ok v =>
      let rest := sweep visit v.disk files
      ⟨v.value :: rest.values, v.outputs ++ rest.outputs, rest.disk, rest.crash⟩

theorem sweep_append (visit : Disk → Files.Path → Except Crash (Visit α)) (d : Disk)
    (files others : List Files.Path) (h : (sweep visit d files).crash = none) :
    sweep visit d (files ++ others) =
      let first := sweep visit d files
      let second := sweep visit first.disk others
      ⟨first.values ++ second.values, first.outputs ++ second.outputs, second.disk,
        second.crash⟩ := by
  induction files generalizing d with
  | nil => rfl
  | cons file files ih =>
    simp only [List.cons_append, sweep] at h ⊢
    split at h
    · contradiction
    · next v hv => simp [ih v.disk h]

end TinyFront.Command
