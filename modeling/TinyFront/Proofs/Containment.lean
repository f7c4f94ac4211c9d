import TinyFront.Proofs.Formatting
import TinyFront.Proofs.Whole

/-!
What one file has to do with the others. Main statement: where two disks have different contents in one
file only, and both contents can be read and reported on, checking and formatting print the same for all
other files and leave the same in them.
-/
namespace TinyFront

open Files

theorem Diagnostic.file_of_mem_ofPieces {file : String} {offset : Nat} {ps : List Piece} :
    ∀ d ∈ ofPieces file offset ps, ∀ l ∈ d.labels, l.span.file = file := by
  induction ps generalizing offset with
  | nil => simp [ofPieces]
  | cons p ps ih =>
    rw [ofPieces]
    split
    · exact List.forall_mem_cons.2 ⟨by simp [stray], ih⟩
    · exact ih

/-- A program is refused at a token of its own file. -/
theorem file_of_rejected {file text : String} {r : Rejection}
    (h : readProgram file text = .error (.unreadable (.rejected r))) : r.span.file = file := by
  rw [readProgram, Parser.runSource] at h
  cases hlex : lex file text with
  | error reports => simp [hlex] at h
  | ok ts =>
    have hpage := page_of_lex hlex
    let pairing : Pairing := ⟨fun t u => t = u ∧ u.span.file = file, fun h => congrArg Token.lexeme h.1⟩
    have hpaired : List.Forall₂ pairing.rel ts ts :=
      List.forall₂_same.2 fun t ht => ⟨rfl, hpage.file_eq t ht⟩
    obtain ⟨p, -, hp, -⟩ | ⟨e, f, he, hf, halike⟩ := (Parser.program_echo Parser.maxDepth).run hpaired
      hpage.stream.ended (some file) (some file)
    · simp [hlex, hp] at h
    · simp only [hlex, hf, Except.error.injEq, SourceFailure.unreadable.injEq] at h
      subst h
      cases halike with
      | rejected cause category hpair => exact hpair.2

/-- What is reported of a file is about places in this file. -/
theorem file_of_reports {file text : String} {e : SourceFailure} {reports : List Diagnostic}
    (h : readProgram file text = .error e) (hreports : e.diagnostics? = some reports) :
    ∀ d ∈ reports, ∀ l ∈ d.labels, l.span.file = file := by
  cases e with
  | strays strays =>
    obtain rfl : strays = reports := Option.some.inj hreports
    rw [readProgram, Parser.runSource] at h
    cases hlex : lex file text with
    | error all =>
      obtain rfl : all = strays := by simpa [hlex] using h
      rw [lex_eq] at hlex
      split at hlex
      · cases hlex
      · obtain rfl := Except.error.inj hlex
        exact Diagnostic.file_of_mem_ofPieces
    | ok ts =>
      simp only [hlex] at h
      split at h <;> cases h
  | unreadable e =>
    cases e with
    | rejected r =>
      obtain rfl : [r.diagnostic] = reports := Option.some.inj hreports
      simpa [Rejection.diagnostic] using file_of_rejected h
    | literalTooLong digits => cases hreports
    | unknownOperator text => cases hreports
    | noTokens => cases hreports

namespace Command

open Files.Disk

section Report

variable {colors : Bool} {file text : String} {outputs : List Output} {find : String → Option Source}

theorem parse_eq_error (h : parse colors file text = .ok (.error outputs)) :
    ∃ e reports, readProgram file text = .error e ∧ e.diagnostics? = some reports ∧
      outputs = reports.map (shown colors ⟨file, text⟩) := by
  rw [parse] at h
  cases hread : readProgram file text with
  | ok p => simp [hread] at h
  | error e =>
    rw [hread] at h
    cases e with
    | strays reports => exact ⟨_, reports, rfl, rfl, by simpa using h.symm⟩
    | unreadable e =>
      cases e with
      | rejected r => exact ⟨_, [r.diagnostic], rfl, rfl, by simpa [Failure.diagnostic?] using h.symm⟩
      | literalTooLong digits => cases h
      | unknownOperator text => cases h
      | noTokens => cases h

theorem shown_eq_of_known (hfind : find file = some ⟨file, text⟩) {d : Diagnostic}
    (h : ∀ l ∈ d.labels, l.span.file = file) :
    shown colors ⟨file, text⟩ d = .warn (d.render colors find) := by
  have hlabels (ink : Ink) : d.labels.flatMap (Diagnostic.labelLines colors ink
      fun name => if name = file then some ⟨file, text⟩ else none) =
      d.labels.flatMap (Diagnostic.labelLines colors ink find) :=
    List.flatMap_congr fun l hl => by simp only [Diagnostic.labelLines, h l hl, hfind, if_pos]
  simp only [shown, Diagnostic.render, Diagnostic.renderLines, hlabels]

/-- Whatever texts of other files a renderer knows, it shows the reports of a file as one does that knows
this file alone. -/
theorem outputs_of_known (hfind : find file = some ⟨file, text⟩)
    (h : parse colors file text = .ok (.error outputs)) :
    ∃ reports : List Diagnostic, outputs = reports.map fun d => .warn (d.render colors find) := by
  obtain ⟨e, reports, hread, hreports, rfl⟩ := parse_eq_error h
  refine ⟨reports, List.map_congr_left fun d hd => ?_⟩
  exact shown_eq_of_known hfind (file_of_reports hread hreports d hd)

end Report

section Log

variable {α : Type} {visit : Disk → Files.Path → Except Crash (Visit α)} {d : Disk}
  {files : List Files.Path}

/-- What is printed for each file that a pass comes to. -/
def log (visit : Disk → Files.Path → Except Crash (Visit α)) :
    Disk → List Files.Path → List (Files.Path × List Output)
  | _, [] => []
  | d, file :: files =>
    match visit d file with
    | .error _ => []
    | .ok v => (file, v.outputs) :: log visit v.disk files

theorem outputs_sweep (visit : Disk → Files.Path → Except Crash (Visit α)) (d : Disk)
    (files : List Files.Path) : (sweep visit d files).outputs = (log visit d files).flatMap (·.2) := by
  induction files generalizing d with
  | nil => rfl
  | cons file files ih =>
    rw [sweep, log]
    cases visit d file with
    | error c => rfl
    | ok v => simp [ih]

theorem map_fst_log (h : (sweep visit d files).crash = none) : (log visit d files).map (·.1) = files := by
  induction files generalizing d with
  | nil => rfl
  | cons file files ih =>
    rw [sweep] at h
    rw [log]
    cases hvisit : visit d file with
    | error c => simp [hvisit] at h
    | ok v =>
      simp only [hvisit] at h
      simp [ih h]

end Log

/-- What is made of the text of a file: a value, what is printed, and the new text if there is one. -/
abbrev Deed (α : Type) := Files.Path → String → Except Crash (α × List Output × Option String)

/-- A visit reads the text of the file, and nothing else counts. -/
def visitOf {α : Type} (deed : Deed α) (d : Disk) (file : Files.Path) : Except Crash (Visit α) := do
  let text ← (d.readText file).mapError .unreadable
  let (value, outputs, new?) ← deed file text
  return ⟨value, outputs, new?.elim d (d.writeText file)⟩

/-- A text that can be reported on does not cut the command short, and neither does the text that is left
in its place. -/
def Deed.Tame {α : Type} (deed : Deed α) : Prop :=
  ∀ file text, ReportsOnly text → ∃ value outputs new?, deed file text = .ok (value, outputs, new?) ∧
    ∀ s ∈ new?, '\r' ∉ s.toList ∧ ReportsOnly s

/-- Under whatever name it is visited, the file at the location can be read and reported on. -/
def ReadyAt (loc : Location) (d : Disk) : Prop := ∀ file, d.locate? file = some loc → Ready d file

section Deeds

variable {α : Type} {deed : Deed α} {loc : Location} {d e : Disk} {file : Files.Path}
  {files : List Files.Path} {text : String}

theorem readyAt_of_ready (hloc : d.locate? file = some loc) (h : Ready d file) : ReadyAt loc d := by
  intro other hother
  rwa [Ready, readText_eq_of_locate? (hother.trans hloc.symm)]

theorem ReadyAt.of_apart {other : Location} (h : ReadyAt loc d) (hapart : Apart other d e)
    (hne : other ≠ loc) : ReadyAt loc e := by
  intro file hfile
  have hloc : d.locate? file = some loc := (hapart.shape.locate?_eq file).symm.trans hfile
  have hother : d.locate? file ≠ some other := fun h => hne (Option.some.inj (h.symm.trans hloc))
  rw [Ready, hapart.readText_eq hother]
  exact h file hloc

theorem visitOf_of_readText (hread : d.readText file = .ok text) : visitOf deed d file =
    (deed file text).map fun x => ⟨x.1, x.2.1, x.2.2.elim d (d.writeText file)⟩ := by
  simp only [visitOf, hread, Except.mapError, bind, Except.bind]
  cases deed file text <;> rfl

theorem apart_of_readText (hread : d.readText file = .ok text) (new? : Option String) :
    ∃ loc, d.locate? file = some loc ∧ Apart loc d (new?.elim d (d.writeText file)) := by
  obtain ⟨loc, old, source, hloc, hnode, -⟩ := readText_eq_ok.1 hread
  refine ⟨loc, hloc, ?_⟩
  cases new? with
  | none => exact .refl loc d
  | some new =>
    rw [Option.elim, writeText, hloc]
    exact .put hnode _

/-- A visit changes nothing but its file. -/
theorem apart_of_visitOf {v : Visit α} (h : visitOf deed d file = .ok v) :
    ∃ loc, d.locate? file = some loc ∧ Apart loc d v.disk := by
  cases hread : d.readText file with
  | error cause =>
    rw [visitOf, hread] at h
    cases h
  | ok text =>
    rw [visitOf_of_readText hread] at h
    cases hdeed : deed file text with
    | error c =>
      rw [hdeed] at h
      cases h
    | ok x =>
      rw [hdeed] at h
      cases h
      exact apart_of_readText hread x.2.2

/-- A visit does not see what is different in another file. -/
theorem visitOf_apart (h : Apart loc d e) (hfile : d.locate? file ≠ some loc) :
    (∃ c, visitOf deed d file = .error c ∧ visitOf deed e file = .error c) ∨
    ∃ v w, visitOf deed d file = .ok v ∧ visitOf deed e file = .ok w ∧ w.outputs = v.outputs ∧
      Apart loc v.disk w.disk := by
  have hsame := h.readText_eq hfile
  cases hread : d.readText file with
  | error cause =>
    rw [visitOf, visitOf, hsame, hread]
    exact .inl ⟨_, rfl, rfl⟩
  | ok text =>
    rw [visitOf_of_readText hread, visitOf_of_readText (hsame.trans hread)]
    cases deed file text with
    | error c => exact .inl ⟨c, rfl, rfl⟩
    | ok x =>
      obtain ⟨value, outputs, new?⟩ := x
      refine .inr ⟨_, _, rfl, rfl, rfl, ?_⟩
      cases new? with
      | none => exact h
      | some new =>
        obtain ⟨other, old, source, hother, hnode, -⟩ := readText_eq_ok.1 hread
        have hne : other ≠ loc := by
          rintro rfl
          exact hfile hother
        simp only [Option.elim, writeText, h.shape.locate?_eq, hother]
        exact h.put_both hne hnode _

theorem visitOf_of_ready (htame : deed.Tame) (h : Ready d file) :
    ∃ v, visitOf deed d file = .ok v ∧ Ready v.disk file := by
  obtain ⟨text, hread, hreports⟩ := h
  obtain ⟨value, outputs, new?, hdeed, hnew⟩ := htame file text hreports
  refine ⟨_, by rw [visitOf_of_readText hread, hdeed]; rfl, ?_⟩
  cases new? with
  | none => exact ⟨text, hread, hreports⟩
  | some new =>
    obtain ⟨hreturn, hreports'⟩ := hnew new rfl
    obtain ⟨loc, old, source, hloc, hnode, -⟩ := readText_eq_ok.1 hread
    have hput := Apart.put hnode new.toUTF8
    have hwritten : (d.put loc (.file new.toUTF8)).nodeAt? loc = some (.file new.toUTF8) := by
      rw [nodeAt?_put_file hnode, if_pos rfl]
    simp only [Option.elim, writeText, hloc]
    exact ⟨new, readText_of_written ((hput.shape.locate?_eq file).trans hloc) hwritten hreturn, hreports'⟩

theorem visitOf_differing (htame : deed.Tame) (hd : ReadyAt loc d) (hloc : d.locate? file = some loc) :
    ∃ v, visitOf deed d file = .ok v ∧ Apart loc d v.disk ∧ ReadyAt loc v.disk := by
  obtain ⟨v, hvisit, hready⟩ := visitOf_of_ready htame (hd file hloc)
  obtain ⟨loc', hloc', hapart⟩ := apart_of_visitOf hvisit
  obtain rfl : loc = loc' := Option.some.inj (hloc.symm.trans hloc')
  exact ⟨v, hvisit, hapart, readyAt_of_ready ((hapart.shape.locate?_eq file).trans hloc) hready⟩

theorem readyAt_of_visitOf {v : Visit α} (hvisit : visitOf deed d file = .ok v)
    (hfile : d.locate? file ≠ some loc) (hd : ReadyAt loc d) : ReadyAt loc v.disk := by
  obtain ⟨loc', hloc', hapart⟩ := apart_of_visitOf hvisit
  refine hd.of_apart hapart ?_
  rintro rfl
  exact hfile hloc'

theorem sameShape_sweep : d.SameShape (sweep (visitOf deed) d files).disk := by
  induction files generalizing d with
  | nil => exact .refl d
  | cons file files ih =>
    rw [sweep]
    cases hvisit : visitOf deed d file with
    | error c => exact .refl d
    | ok v =>
      obtain ⟨_, _, hframe⟩ := apart_of_visitOf hvisit
      exact hframe.shape.trans ih

theorem sweep_apart (htame : deed.Tame) (h : Apart loc d e) (hd : ReadyAt loc d) (he : ReadyAt loc e)
    (files : List Files.Path) :
    (sweep (visitOf deed) e files).crash = (sweep (visitOf deed) d files).crash ∧
    Apart loc (sweep (visitOf deed) d files).disk (sweep (visitOf deed) e files).disk ∧
    (log (visitOf deed) e files).filter (fun x => d.locate? x.1 ≠ some loc) =
      (log (visitOf deed) d files).filter fun x => d.locate? x.1 ≠ some loc := by
  induction files generalizing d e with
  | nil => exact ⟨rfl, h, rfl⟩
  | cons file files ih =>
    by_cases hfile : d.locate? file = some loc
    · obtain ⟨v, hvisit, hapart, hready⟩ := visitOf_differing htame hd hfile
      obtain ⟨w, hvisit', hapart', hready'⟩ :=
        visitOf_differing htame he ((h.shape.locate?_eq file).trans hfile)
      obtain ⟨hcrash, hdisk, hlog⟩ := ih (hapart.symm.trans (h.trans hapart')) hready hready'
      simp only [hapart.shape.locate?_eq] at hlog
      simp only [sweep, log, hvisit, hvisit']
      exact ⟨hcrash, hdisk, by simpa [hfile] using hlog⟩
    · obtain ⟨c, hvisit, hvisit'⟩ | ⟨v, w, hvisit, hvisit', houtputs, hapart⟩ := visitOf_apart h hfile
      · rw [sweep, sweep, log, log, hvisit, hvisit']
        exact ⟨rfl, h, rfl⟩
      · have hfile' : e.locate? file ≠ some loc := by rwa [h.shape.locate?_eq]
        obtain ⟨hcrash, hdisk, hlog⟩ :=
          ih hapart (readyAt_of_visitOf hvisit hfile hd) (readyAt_of_visitOf hvisit' hfile' he)
        obtain ⟨_, _, hframe⟩ := apart_of_visitOf hvisit
        simp only [hframe.shape.locate?_eq] at hlog
        simp only [sweep, log, hvisit, hvisit']
        exact ⟨hcrash, hdisk, by simpa [hfile, houtputs] using hlog⟩

end Deeds

section Commands

variable {d e : Disk} {target : Files.Path} {config : Config} {files : List Files.Path} {loc : Location}

/-- A text that can be reported on is a program or has reports. -/
theorem exists_parse {text : String} (h : ReportsOnly text) (colors : Bool) (file : String) :
    (∃ p, readProgram file text = .ok p ∧ parse colors file text = .ok (.ok p)) ∨
      ∃ outputs, parse colors file text = .ok (.error outputs) := by
  rw [parse]
  cases hread : readProgram file text with
  | ok p => exact .inl ⟨p, rfl, rfl⟩
  | error e =>
    cases e with
    | strays reports => exact .inr ⟨_, rfl⟩
    | unreadable e =>
      obtain ⟨r, rfl⟩ := h file e hread
      exact .inr ⟨_, rfl⟩

def checkText (colors : Bool) : Deed (Option Nat) := fun file text =>
  (parse colors file.text text).map fun
    | .ok p => (some p.decls.length, [], none)
    | .error outputs => (none, outputs, none)

theorem checkFile_eq (colors : Bool) : checkFile colors = visitOf (checkText colors) := by
  funext d file
  rw [checkFile, visitOf]
  cases d.readText file with
  | error cause => rfl
  | ok text =>
    simp only [Except.mapError, bind, Except.bind, checkText]
    obtain c | outputs | p := parse colors file.text text <;> rfl

theorem tame_checkText (colors : Bool) : (checkText colors).Tame := by
  intro file text h
  rw [checkText]
  obtain ⟨p, -, hparse⟩ | ⟨outputs, hparse⟩ := exists_parse h colors file.text
  · exact ⟨_, _, _, by rw [hparse]; rfl, by simp⟩
  · exact ⟨_, _, _, by rw [hparse]; rfl, by simp⟩

def formatText (colors checkOnly : Bool) : Deed Layout := fun file text =>
  (parse colors file.text text).map fun
    | .error outputs => (.broken, outputs, none)
    | .ok p =>
      let formatted := p.format standardIndent
      if formatted = text then (.canonical, [], none)
      else if checkOnly then (.kept, [.say ("would reformat " ++ file.text)], none)
      else (.rewritten, [.say ("formatted " ++ file.text)], some formatted)

theorem formatFile_eq (colors checkOnly : Bool) :
    formatFile colors checkOnly = visitOf (formatText colors checkOnly) := by
  funext d file
  rw [formatFile, visitOf]
  cases d.readText file with
  | error cause => rfl
  | ok text =>
    simp only [Except.mapError, bind, Except.bind, formatText]
    obtain c | outputs | p := parse colors file.text text
    · rfl
    · rfl
    · simp only [Except.map]
      split
      · rfl
      · split <;> rfl

theorem tame_formatText (colors checkOnly : Bool) : (formatText colors checkOnly).Tame := by
  intro file text h
  simp only [formatText]
  obtain ⟨p, hprogram, hparse⟩ | ⟨outputs, hparse⟩ := exists_parse h colors file.text
  · have hnew : ∀ s ∈ some (p.format standardIndent), '\r' ∉ s.toList ∧ ReportsOnly s := by
      rintro s ⟨⟩
      exact ⟨return_not_mem_format hprogram, (canonical_format hprogram).reportsOnly⟩
    simp only [hparse, Except.map]
    split
    · exact ⟨_, _, _, rfl, by simp⟩
    · split
      · exact ⟨_, _, _, rfl, by simp⟩
      · exact ⟨_, _, _, rfl, hnew⟩
  · exact ⟨_, _, _, by rw [hparse]; rfl, by simp⟩

/-- The result of a pass: at most one line is printed for the whole of it. -/
structure EndsIn {α : Type} (visit : Disk → Files.Path → Except Crash (Visit α)) (d : Disk)
    (files : List Files.Path) (r : Result) : Prop where
  disk : r.disk = (sweep visit d files).disk
  crash : r.crash = (sweep visit d files).crash
  outputs : ∃ last, last.length ≤ 1 ∧ r.outputs = (log visit d files).flatMap (·.2) ++ last

theorem check_endsIn (hprepare : prepare d target = .ok (config, files)) :
    EndsIn (checkFile config.colored) d files (check d target) := by
  rw [check, hprepare]
  cases files with
  | nil => exact ⟨rfl, rfl, [_], Nat.le_refl 1, rfl⟩
  | cons file files =>
    simp only [List.isEmpty_cons, Bool.false_eq_true, if_false]
    cases hcrash : (sweep (checkFile config.colored) d (file :: files)).crash with
    | some c => exact ⟨rfl, hcrash.symm, [], Nat.zero_le 1, by simp [Result.crashed, outputs_sweep]⟩
    | none => exact ⟨rfl, hcrash.symm, [_], Nat.le_refl 1, by rw [← outputs_sweep]⟩

theorem formatFiles_endsIn (checkOnly : Bool) (hprepare : prepare d target = .ok (config, files)) :
    EndsIn (formatFile config.colored checkOnly) d files (formatFiles d target checkOnly) := by
  rw [formatFiles, hprepare]
  cases files with
  | nil => exact ⟨rfl, rfl, [_], Nat.le_refl 1, rfl⟩
  | cons file files =>
    simp only [List.isEmpty_cons, Bool.false_eq_true, if_false]
    cases hcrash : (sweep (formatFile config.colored checkOnly) d (file :: files)).crash with
    | some c => exact ⟨rfl, hcrash.symm, [], Nat.zero_le 1, by simp [Result.crashed, outputs_sweep]⟩
    | none => exact ⟨rfl, hcrash.symm, [], Nat.zero_le 1, by simp [outputs_sweep]⟩

/-- The results of one command on two disks, told apart by what is printed for each file and what becomes
of it. Files at the location may differ, and so may the line for all files. -/
structure Contained {α : Type} (visit : Disk → Files.Path → Except Crash (Visit α)) (loc : Location)
    (d e : Disk) (files : List Files.Path) (r s : Result) : Prop where
  first : EndsIn visit d files r
  second : EndsIn visit e files s
  crash : s.crash = r.crash
  reached : r.crash = none →
    (log visit d files).map (·.1) = files ∧ (log visit e files).map (·.1) = files
  printed : (log visit e files).filter (fun x => d.locate? x.1 ≠ some loc) =
    (log visit d files).filter fun x => d.locate? x.1 ≠ some loc
  content : ∀ file, d.locate? file ≠ some loc → s.disk.readBytes file = r.disk.readBytes file

theorem contained_of_endsIn {α : Type} {deed : Deed α} {r s : Result} (htame : deed.Tame)
    (h : Apart loc d e) (hd : ReadyAt loc d) (he : ReadyAt loc e) (hr : EndsIn (visitOf deed) d files r)
    (hs : EndsIn (visitOf deed) e files s) : Contained (visitOf deed) loc d e files r s := by
  obtain ⟨hcrash, hdisk, hlog⟩ := sweep_apart htame h hd he files
  refine ⟨hr, hs, by rw [hs.crash, hr.crash, hcrash], fun hnone => ?_, hlog, fun file hfile => ?_⟩
  · rw [hr.crash] at hnone
    exact ⟨map_fst_log hnone, map_fst_log (hcrash.trans hnone)⟩
  · rw [hr.disk, hs.disk]
    exact hdisk.readBytes_eq (by rwa [sameShape_sweep.locate?_eq])

/-- The calls do not run out where the program in the file is laid out. -/
def LaysOut (d : Disk) (file : Files.Path) : Prop :=
  ∀ text p, d.readText file = .ok text → readProgram file.text text = .ok p → p.calls ≤ maxCalls

/-- One file's content is its own affair. Where two disks differ in the content of one file only, which
can be read and reported on both here and there and settles nothing else, checking and formatting the
same target come equally far on both disks; they print the same for every other file, in the same order,
and leave the same in it. For formatting, both contents must be ones that can be laid out. -/
theorem commands_contained {g : Files.Path} (hprepare : prepare d target = .ok (config, files))
    (hload : Config.load e target = Config.load d target) (h : Apart loc d e)
    (hg : d.locate? g = some loc) (hd : Ready d g) (he : Ready e g) :
    Contained (checkFile config.colored) loc d e files (check d target) (check e target) ∧
    (LaysOut d g → LaysOut e g → ∀ checkOnly, Contained (formatFile config.colored checkOnly) loc d e files
      (formatFiles d target checkOnly) (formatFiles e target checkOnly)) := by
  have hd : ReadyAt loc d := readyAt_of_ready hg hd
  have he : ReadyAt loc e := readyAt_of_ready ((h.shape.locate?_eq g).trans hg) he
  have hprepare' : prepare e target = .ok (config, files) := by
    rw [← hprepare, prepare, prepare, hload]
    simp only [sources_eq_of_sameShape h.shape]
  constructor
  · have hr := check_endsIn hprepare
    have hs := check_endsIn hprepare'
    rw [checkFile_eq] at hr hs ⊢
    exact contained_of_endsIn (tame_checkText _) h hd he hr hs
  · intro _ _ checkOnly
    have hr := formatFiles_endsIn checkOnly hprepare
    have hs := formatFiles_endsIn checkOnly hprepare'
    rw [formatFile_eq] at hr hs ⊢
    exact contained_of_endsIn (tame_formatText _ _) h hd he hr hs

theorem laysOut_of_readText {file : Files.Path} {text : String} (hread : d.readText file = .ok text)
    (h : (readProgram file.text text).toOption.all (fun p => p.calls ≤ maxCalls) = true) :
    LaysOut d file := by
  intro text' p hread' hp
  rw [hread] at hread'
  cases hread'
  rw [hp] at h
  exact of_decide_eq_true h

theorem commands_contained_of_two :
    let d := Disk.ofEntries [] [(["src", "a.at"], .file "fn a{1}".toUTF8), (["src", "b.at"], .file "fn".toUTF8)]
    let e := d.put ["src", "a.at"] (.file "1".toUTF8)
    let target := Files.Path.ofString "."
    let a := Files.Path.ofString "src/a.at"
    let files := [a, Files.Path.ofString "src/b.at"]
    prepare d target = .ok (.standard, files) ∧ Config.load e target = Config.load d target ∧
    Apart ["src", "a.at"] d e ∧ d.locate? a = some ["src", "a.at"] ∧ Ready d a ∧ Ready e a ∧
    LaysOut d a ∧ LaysOut e a ∧
    Contained (checkFile Config.standard.colored) ["src", "a.at"] d e files (check d target) (check e target) ∧
    ∀ checkOnly, Contained (formatFile Config.standard.colored checkOnly) ["src", "a.at"] d e files
      (formatFiles d target checkOnly) (formatFiles e target checkOnly) := by
  intro d e target a files
  have hload : Config.load d target = .ok (.standard, none) := by rfl
  have hload' : Config.load e target = .ok (.standard, none) := by rfl
  have hprepare : prepare d target = .ok (.standard, files) := by
    have hsearch : d.search [.anyDepth, .names "*.at"] ["src"] = [["a.at"], ["b.at"]] := by
      have hfollow : (d.follow [.anyDepth, .names "*.at"] ["src"]).foldr List.insert [] =
          [["a.at"], ["b.at"]] := by decide +kernel
      rw [Disk.search, hfollow]
      exact List.mergeSort_of_pairwise (by decide +kernel)
    have hroots : roots d target Config.standard.dirs = .ok [.ofString "src"] := by rfl
    have hroute : route? Config.standard.extension = .ok [.anyDepth, .names "*.at"] := by rfl
    have hroot : d.locate? (.ofString "src") = some ["src"] := by decide +kernel
    have hfolder : ¬ (d.node? target).any Node.isFile = true := by decide +kernel
    have hsources : sources d target .standard = .ok files := by
      rw [sources, if_neg hfolder, hroots, hroute]
      simp only [bind, Except.bind, pure, Except.pure, List.isEmpty_cons, Bool.false_eq_true, if_false,
        List.flatMap_cons, List.flatMap_nil, sourcesBelow, hroot, hsearch]
      rfl
    simp only [prepare, hload, hsources, Except.mapError, bind, Except.bind, pure, Except.pure]
  have hnode : d.nodeAt? ["src", "a.at"] = some (.file "fn a{1}".toUTF8) := by decide +kernel
  have hapart : Apart ["src", "a.at"] d e := .put hnode _
  have hloc : d.locate? a = some ["src", "a.at"] := by decide +kernel
  have hread : d.readText a = .ok "fn a{1}" := by decide +kernel
  have hread' : e.readText a = .ok "1" := by decide +kernel
  have hready : Ready d a := ⟨"fn a{1}", hread, NumbersFit.reportsOnly (by decide)⟩
  have hready' : Ready e a := ⟨"1", hread', NumbersFit.reportsOnly (by decide)⟩
  have hlays : LaysOut d a := laysOut_of_readText hread (by decide +kernel)
  have hlays' : LaysOut e a := laysOut_of_readText hread' (by decide +kernel)
  obtain ⟨hcheck, hformat⟩ :=
    commands_contained hprepare (hload'.trans hload.symm) hapart hloc hready hready'
  exact ⟨hprepare, hload'.trans hload.symm, hapart, hloc, hready, hready', hlays, hlays', hcheck,
    hformat hlays hlays'⟩

end Commands
end Command
end TinyFront
