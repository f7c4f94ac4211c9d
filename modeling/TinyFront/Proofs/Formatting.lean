import TinyFront.Command.Run
import TinyFront.Proofs.Settings
import TinyFront.Proofs.Shapes

/-!
Formatting the sources of a target. Main statement: only collected files that are programs are
rewritten, each to a layout that stands for the same declarations, and afterwards there is nothing left
to rewrite.
-/
namespace TinyFront

open Files

namespace Command

variable {d e : Disk} {file : Files.Path} {text : String} {p : Program Span} {colors checkOnly : Bool}
  {files : List Files.Path}

def Parses (d : Disk) (file : Files.Path) : Prop :=
  ∃ text p, d.readText file = .ok text ∧ readProgram file.text text = .ok p

/-- The file holds a program that is laid out otherwise. -/
structure Stale (d : Disk) (file : Files.Path) (text : String) (p : Program Span) : Prop where
  reads : d.readText file = .ok text
  program : readProgram file.text text = .ok p
  other : p.format standardIndent ≠ text

def isStale (d : Disk) (file : Files.Path) : Bool :=
  match d.readText file with
  | .error _ => false
  | .ok text =>
    match readProgram file.text text with
    | .error _ => false
    | .ok p => p.format standardIndent != text

theorem isStale_iff : isStale d file = true ↔ ∃ text p, Stale d file text p := by
  unfold isStale
  refine ⟨fun h => ?_, fun ⟨text, p, h⟩ => ?_⟩
  · split at h
    · cases h
    · split at h
      · cases h
      · exact ⟨_, _, ‹_›, ‹_›, by simpa using h⟩
  · simp [h.reads, h.program, h.other]

theorem isStale_congr (h : e.readText file = d.readText file) : isStale e file = isStale d file := by
  rw [isStale, isStale, h]

theorem isStale_of_format (hread : d.readText file = .ok text)
    (h : ∀ p, readProgram file.text text = .ok p → p.format standardIndent = text) :
    isStale d file = false := by
  rw [← Bool.not_eq_true, isStale_iff]
  rintro ⟨text', p, hreads, hprogram, hother⟩
  obtain rfl : text = text' := Except.ok.inj (hread.symm.trans hreads)
  exact hother (h p hprogram)

/-- The file can be read, and its text is a program or refused with reports. -/
def Ready (d : Disk) (file : Files.Path) : Prop := ∃ text, d.readText file = .ok text ∧ ReportsOnly text

theorem formatFile_of_stale (h : Stale d file text p) : formatFile colors checkOnly d file =
    .ok (if checkOnly then ⟨.kept, [.say ("would reformat " ++ file.text)], d⟩
      else ⟨.rewritten, [.say ("formatted " ++ file.text)],
        d.writeText file (p.format standardIndent)⟩) := by
  simp only [formatFile, h.reads, parse, h.program, Except.mapError, bind, Except.bind, if_neg h.other]
  cases checkOnly <;> rfl

/-- What is printed on the stream of results. -/
def said (outputs : List Output) : List Output := outputs.filter (·.onOut ≠ "")

theorem said_say (line : String) : said [.say line] = [.say line] := by
  simp [said, Output.say, Output.onOut]

theorem said_shown (source : Source) (ds : List Diagnostic) : said (ds.map (shown colors source)) = [] :=
  List.filter_eq_nil_iff.2 (List.forall_mem_map.2 fun _ _ => by simp [shown, Output.warn, Output.onOut])

theorem formatFile_of_not_stale (colors checkOnly : Bool) (h : Ready d file) (hs : isStale d file = false) :
    ∃ value outputs, formatFile colors checkOnly d file = .ok ⟨value, outputs, d⟩ ∧
      said outputs = [] ∧ (value.isSettled = true ↔ Parses d file) := by
  obtain ⟨text, hread, hreports⟩ := h
  simp only [formatFile, hread, Except.mapError, bind, Except.bind]
  cases hp : readProgram file.text text with
  | ok p =>
    have hsame : p.format standardIndent = text := by
      rw [← Bool.not_eq_true, isStale_iff] at hs
      exact Decidable.not_not.1 fun hne => hs ⟨text, p, hread, hp, hne⟩
    refine ⟨.canonical, [], ?_, rfl, fun _ => ⟨text, p, hread, hp⟩, fun _ => rfl⟩
    simp only [parse, hp, if_pos hsame]
    rfl
  | error e =>
    have hnone : ¬Parses d file := by
      rintro ⟨text', p, hread', hp'⟩
      obtain rfl : text = text' := Except.ok.inj (hread.symm.trans hread')
      rw [hp] at hp'
      cases hp'
    have hbroken : Layout.broken.isSettled = true ↔ Parses d file := by simp [hnone, Layout.isSettled]
    cases e with
    | strays reports =>
      exact ⟨.broken, _, by simp only [parse, hp]; rfl, said_shown ⟨file.text, text⟩ reports, hbroken⟩
    | unreadable e =>
      obtain ⟨r, rfl⟩ := hreports file.text e hp
      exact ⟨.broken, _, by simp only [parse, hp]; rfl,
        said_shown ⟨file.text, text⟩ [r.diagnostic], hbroken⟩

theorem formatFile_of_still (colors : Bool) (h : Ready d file)
    (hstill : checkOnly = true ∨ isStale d file = false) :
    ∃ value outputs, formatFile colors checkOnly d file = .ok ⟨value, outputs, d⟩ ∧
      said outputs = (if isStale d file then [.say ("would reformat " ++ file.text)] else []) ∧
      (value.isSettled = true ↔ Parses d file ∧ isStale d file = false) := by
  cases hs : isStale d file with
  | false => simpa using formatFile_of_not_stale colors checkOnly h hs
  | true =>
    obtain ⟨text, p, hstale⟩ := isStale_iff.1 hs
    obtain rfl : checkOnly = true := by simpa [hs] using hstill
    exact ⟨.kept, _, formatFile_of_stale hstale, said_say _, by simp [Layout.isSettled]⟩

theorem sweep_of_still (colors checkOnly : Bool) (h : ∀ file ∈ files, Ready d file)
    (hstill : checkOnly = true ∨ ∀ file ∈ files, isStale d file = false) :
    let s := sweep (formatFile colors checkOnly) d files
    s.crash = none ∧ s.disk = d ∧
      said s.outputs = (files.filter (isStale d)).map (fun file => .say ("would reformat " ++ file.text)) ∧
      (s.values.all Layout.isSettled = true ↔ ∀ file ∈ files, Parses d file ∧ isStale d file = false) := by
  induction files with
  | nil => simp [sweep, said]
  | cons file files ih =>
    obtain ⟨hfile, hfiles⟩ := List.forall_mem_cons.1 h
    obtain ⟨value, outputs, hvisit, hsaid, hvalue⟩ := formatFile_of_still colors hfile
      (hstill.imp_right fun hs => hs file List.mem_cons_self)
    obtain ⟨hcrash, hdisk, hsaids, hvalues⟩ :=
      ih hfiles (hstill.imp_right fun hs => (List.forall_mem_cons.1 hs).2)
    simp only [sweep, hvisit]
    refine ⟨hcrash, hdisk, ?_, ?_⟩
    · rw [said, List.filter_append, ← said, ← said, hsaid, hsaids, List.filter_cons]
      split <;> rfl
    · rw [List.all_cons, Bool.and_eq_true, hvalue, hvalues, List.forall_mem_cons]

/-- The disk `e` is what a pass over the files makes of the disk `d`: where none of them is laid out
otherwise nothing has changed, and any other location holds the layout of what was there. -/
structure Formatted (d e : Disk) (files : List Files.Path) : Prop where
  shape : d.SameShape e
  node (loc : Location) :
    (e.nodeAt? loc = d.nodeAt? loc ∧
      ∀ file ∈ files, d.locate? file = some loc → isStale d file = false) ∨
    ∃ file ∈ files, ∃ text p, Stale d file text p ∧ d.locate? file = some loc ∧
      e.nodeAt? loc = some (.file (p.format standardIndent).toUTF8)

namespace Formatted

theorem nil (d : Disk) : Formatted d d [] := ⟨.refl d, fun _ => .inl ⟨rfl, by simp⟩⟩

theorem keep (hs : isStale d file = false) (h : Formatted d e files) : Formatted d e (file :: files) where
  shape := h.shape
  node loc := by
    obtain ⟨hsame, hstill⟩ | ⟨f, hf, hnew⟩ := h.node loc
    · exact .inl ⟨hsame, List.forall_mem_cons.2 ⟨fun _ => hs, hstill⟩⟩
    · exact .inr ⟨f, List.mem_cons_of_mem _ hf, hnew⟩

end Formatted

theorem readText_of_rewritten {loc : Location} (hshape : d.SameShape e)
    (hprogram : readProgram file.text text = .ok p)
    (hnode : e.nodeAt? loc = some (.file (p.format standardIndent).toUTF8)) {other : Files.Path}
    (hother : d.locate? other = some loc) :
    e.readText other = .ok (p.format standardIndent) ∧ isStale e other = false := by
  have hread := Disk.readText_of_written ((hshape.locate?_eq other).trans hother) hnode
    (return_not_mem_format hprogram)
  refine ⟨hread, isStale_of_format hread fun q hq => ?_⟩
  obtain ⟨q', hq', -, hformat⟩ | ⟨-, f, hf, -⟩ := canonical_format hprogram other.text
  · obtain rfl : q = q' := Except.ok.inj (hq.symm.trans hq')
    exact hformat
  · rw [hq] at hf
    cases hf

theorem Stale.writeText (h : Stale d file text p) : ∃ loc old, d.locate? file = some loc ∧
    d.nodeAt? loc = some (.file old) ∧
    d.writeText file (p.format standardIndent) = d.put loc (.file (p.format standardIndent).toUTF8) := by
  obtain ⟨loc, old, source, hloc, hnode, -⟩ := Disk.readText_eq_ok.1 h.reads
  exact ⟨loc, old, hloc, hnode, by rw [Disk.writeText, hloc]⟩

theorem Stale.congr (h : Stale d file text p) (hread : e.readText file = d.readText file) :
    Stale e file text p := ⟨hread.trans h.reads, h.program, h.other⟩

theorem Formatted.rewrite {loc : Location} {old : ByteArray} (h : Stale d file text p)
    (hloc : d.locate? file = some loc) (hnode : d.nodeAt? loc = some (.file old))
    (hrest : Formatted (d.put loc (.file (p.format standardIndent).toUTF8)) e files) :
    Formatted d e (file :: files) := by
  have hput := Disk.SameShape.put hnode (p.format standardIndent).toUTF8
  have hwritten : (d.put loc (.file (p.format standardIndent).toUTF8)).nodeAt? loc =
      some (.file (p.format standardIndent).toUTF8) := by rw [Disk.nodeAt?_put_file hnode, if_pos rfl]
  refine ⟨hput.trans hrest.shape, fun other => ?_⟩
  by_cases hother : other = loc
  · subst hother
    obtain ⟨hsame, -⟩ | ⟨f, hf, text', p', hstale, hlocate, -⟩ := hrest.node other
    · exact .inr ⟨file, List.mem_cons_self, text, p, h, hloc, hsame.trans hwritten⟩
    · have hcanonical := (readText_of_rewritten hput h.program hwritten
        ((hput.locate?_eq f).symm.trans hlocate)).2
      rw [isStale_iff.2 ⟨text', p', hstale⟩] at hcanonical
      cases hcanonical
  · have hread : ∀ f, d.locate? f = some other →
        (d.put loc (.file (p.format standardIndent).toUTF8)).readText f = d.readText f := fun f hf =>
      (Disk.Apart.put hnode _).readText_eq (by rw [hf]; simpa using hother)
    obtain ⟨hsame, hstill⟩ | ⟨f, hf, text', p', hstale, hlocate, hnew⟩ := hrest.node other
    · refine .inl ⟨hsame.trans (by rw [Disk.nodeAt?_put_file hnode, if_neg hother]), ?_⟩
      refine List.forall_mem_cons.2 ⟨fun heq => ?_, fun f hf hlocate => ?_⟩
      · exact absurd (Option.some.inj (heq.symm.trans hloc)) hother
      · rw [← isStale_congr (hread f hlocate)]
        exact hstill f hf ((hput.locate?_eq f).trans hlocate)
    · have hlocate' := (hput.locate?_eq f).symm.trans hlocate
      exact .inr ⟨f, List.mem_cons_of_mem _ hf, text', p', hstale.congr (hread f hlocate').symm,
        hlocate', hnew⟩

theorem sweep_formatted (colors : Bool) (h : ∀ file ∈ files, Ready d file) :
    let s := sweep (formatFile colors false) d files
    s.crash = none ∧ Formatted d s.disk files := by
  induction files generalizing d with
  | nil => exact ⟨rfl, .nil d⟩
  | cons file files ih =>
    obtain ⟨hfile, hfiles⟩ := List.forall_mem_cons.1 h
    cases hs : isStale d file with
    | false =>
      obtain ⟨value, outputs, hvisit, -⟩ := formatFile_of_not_stale colors false hfile hs
      simp only [sweep, hvisit]
      exact ⟨(ih hfiles).1, (ih hfiles).2.keep hs⟩
    | true =>
      obtain ⟨text, p, hstale⟩ := isStale_iff.1 hs
      obtain ⟨loc, old, hloc, hnode, hwrite⟩ := hstale.writeText
      simp only [sweep, formatFile_of_stale hstale, Bool.false_eq_true, if_false, hwrite]
      have hready : ∀ f ∈ files, Ready (d.put loc (.file (p.format standardIndent).toUTF8)) f := by
        intro f hf
        by_cases hlocate : d.locate? f = some loc
        · exact ⟨_, (readText_of_rewritten (.put hnode _) hstale.program
            (by rw [Disk.nodeAt?_put_file hnode, if_pos rfl]) hlocate).1,
            (canonical_format hstale.program).reportsOnly⟩
        · rw [Ready, (Disk.Apart.put hnode _).readText_eq hlocate]
          exact hfiles f hf
      exact ⟨(ih hready).1, .rewrite hstale hloc hnode (ih hready).2⟩

namespace Formatted

variable {config : Config} {target : Files.Path} (h : Formatted d e files)

include h

/-- Exactly the locations change of files that are laid out otherwise. -/
theorem changed_iff (loc : Location) : e.nodeAt? loc ≠ d.nodeAt? loc ↔
    ∃ file ∈ files, d.locate? file = some loc ∧ isStale d file = true := by
  obtain ⟨hsame, hstill⟩ | ⟨f, hf, text, p, hstale, hlocate, hnew⟩ := h.node loc
  · refine ⟨fun hne => absurd hsame hne, fun ⟨file, hfile, hlocate, hs⟩ => ?_⟩
    rw [hstill file hfile hlocate] at hs
    cases hs
  · refine ⟨fun _ => ⟨f, hf, hlocate, isStale_iff.2 ⟨text, p, hstale⟩⟩, fun _ hsame => ?_⟩
    have hread := Disk.readText_of_written hlocate (hsame.symm.trans hnew)
      (return_not_mem_format hstale.program)
    exact hstale.other (Except.ok.inj (hread.symm.trans hstale.reads))

/-- What is in a file of the pass afterwards: what was there, or the layout of it. -/
theorem content (hfile : file ∈ files) :
    (e.readBytes file = d.readBytes file ∧ isStale d file = false) ∨
    ∃ other ∈ files, ∃ text p, Stale d other text p ∧ d.readText file = .ok text ∧
      e.readText file = .ok (p.format standardIndent) ∧ isStale e file = false := by
  cases hloc : d.locate? file with
  | none =>
    refine .inl ⟨Disk.readBytes_congr (h.shape.locate?_eq file) (by simp [hloc]), ?_⟩
    rw [← Bool.not_eq_true, isStale_iff]
    rintro ⟨text, p, hstale⟩
    obtain ⟨loc, -, -, hsome, -⟩ := Disk.readText_eq_ok.1 hstale.reads
    rw [hloc] at hsome
    cases hsome
  | some loc =>
    obtain ⟨hsame, hstill⟩ | ⟨f, hf, text, p, hstale, hlocate, hnew⟩ := h.node loc
    · refine .inl ⟨Disk.readBytes_congr (h.shape.locate?_eq file) fun other hother => ?_,
        hstill file hfile hloc⟩
      obtain rfl : loc = other := Option.some.inj (hloc.symm.trans hother)
      exact hsame
    · exact .inr ⟨f, hf, text, p, hstale,
        (Disk.readText_eq_of_locate? (hloc.trans hlocate.symm)).trans hstale.reads,
        readText_of_rewritten h.shape hstale.program hnew hloc⟩

theorem ready (hfile : file ∈ files) (hready : Ready d file) : Ready e file := by
  obtain ⟨hsame, -⟩ | ⟨f, -, text, p, hstale, -, hread, -⟩ := h.content hfile
  · rwa [Ready, Disk.readText_eq_of_readBytes hsame]
  · exact ⟨_, hread, (canonical_format hstale.program).reportsOnly⟩

theorem isStale_eq_false (hfile : file ∈ files) : isStale e file = false := by
  obtain ⟨hsame, hs⟩ | ⟨-, -, -, -, -, -, -, hs⟩ := h.content hfile
  · rwa [isStale_congr (Disk.readText_eq_of_readBytes hsame)]
  · exact hs

theorem readBytes_eq_of_not_parses (hfile : file ∈ files) (hnone : ¬Parses d file) :
    e.readBytes file = d.readBytes file := by
  obtain ⟨hsame, -⟩ | ⟨f, -, text, p, hstale, hread, -⟩ := h.content hfile
  · exact hsame
  · obtain ⟨q, hq⟩ := exists_readProgram hstale.program file.text
    exact absurd ⟨text, q, hread, hq⟩ hnone

theorem parses_of_parses (hfile : file ∈ files) (hparses : Parses e file) : Parses d file := by
  by_contra hnone
  rw [Parses, Disk.readText_eq_of_readBytes (h.readBytes_eq_of_not_parses hfile hnone)] at hparses
  exact hnone hparses

theorem parses_or_nestsTooDeep (hfile : file ∈ files) (hparses : Parses d file) :
    Parses e file ∨ ∃ text, e.readText file = .ok text ∧ NestsTooDeep file.text text := by
  obtain ⟨hsame, -⟩ | ⟨f, -, text, p, hstale, -, hread, -⟩ := h.content hfile
  · exact .inl (by rwa [Parses, Disk.readText_eq_of_readBytes hsame])
  · obtain ⟨q, hq, -⟩ | hdeep := canonical_format hstale.program file.text
    · exact .inl ⟨_, q, hread, hq⟩
    · exact .inr ⟨_, hread, hdeep⟩

theorem canonical {loc : Location} (hne : e.nodeAt? loc ≠ d.nodeAt? loc) :
    ∃ file ∈ files, d.locate? file = some loc ∧ ∃ text p new, d.readText file = .ok text ∧
      readProgram file.text text = .ok p ∧ e.readText file = .ok new ∧ Canonical new p.bare := by
  obtain ⟨hsame, -⟩ | ⟨f, hf, text, p, hstale, hlocate, hnew⟩ := h.node loc
  · exact absurd hsame hne
  · exact ⟨f, hf, hlocate, text, p, _, hstale.reads, hstale.program,
      (readText_of_rewritten h.shape hstale.program hnew hlocate).1, canonical_format hstale.program⟩

/-- A document of settings gives the same settings, even where it is a source and is rewritten. -/
theorem loadAt_eq {loc : Location} (hload : Config.loadAt d loc = .ok config) :
    Config.loadAt e loc = .ok config := by
  obtain ⟨hsame, -⟩ | ⟨f, -, text, p, hstale, hlocate, hnew⟩ := h.node loc
  · unfold Config.loadAt at hload ⊢
    rwa [hsame]
  · obtain ⟨loc', bytes, source, hloc, hnode, hdecode, rfl⟩ := Disk.readText_eq_ok.1 hstale.reads
    obtain rfl : loc = loc' := Option.some.inj (hlocate.symm.trans hloc)
    have hdocument : Config.ofDocument source = .ok config := by
      simp only [Config.loadAt, hnode, hdecode] at hload
      split at hload
      · cases hload
      · next hc => rwa [Except.ok.inj hload] at hc
    simp only [Config.loadAt, hnew, Disk.decode_toUTF8,
      Config.ofDocument_format hdocument hstale.program]

theorem load_eq {loc? : Option Location} (hload : Config.load d target = .ok (config, loc?)) :
    Config.load e target = .ok (config, loc?) := by
  rw [Config.load] at hload ⊢
  rw [Config.find?_eq_of_sameShape h.shape]
  cases hfind : Config.find? d target with
  | error cause => rwa [hfind] at hload
  | ok found =>
    rw [hfind] at hload
    cases found with
    | none => exact hload
    | some loc =>
      cases hat : Config.loadAt d loc with
      | error e =>
        simp only [hat] at hload
        cases hload
      | ok c =>
        simp only [hat] at hload
        cases hload
        simp only [h.loadAt_eq hat]
        rfl

theorem prepare_eq (hprepare : prepare d target = .ok (config, files)) :
    prepare e target = .ok (config, files) := by
  simp only [prepare, bind, Except.bind] at hprepare ⊢
  cases hload : Config.load d target with
  | error f =>
    rw [hload] at hprepare
    cases hprepare
  | ok found =>
    obtain ⟨c, loc?⟩ := found
    rw [hload] at hprepare
    rw [h.load_eq hload, ← hprepare]
    simp only [Except.mapError, sources_eq_of_sameShape h.shape]

end Formatted

variable {config : Config} {target : Files.Path}

theorem formatFiles_eq (hprepare : prepare d target = .ok (config, files))
    (hcrash : (sweep (formatFile config.colored checkOnly) d files).crash = none) :
    let s := sweep (formatFile config.colored checkOnly) d files
    let r := formatFiles d target checkOnly
    r.crash = none ∧ r.disk = s.disk ∧ said r.outputs = said s.outputs ∧
      (r.exit = 0 ↔ s.values.all Layout.isSettled = true) := by
  simp only [formatFiles, hprepare]
  cases files with
  | nil => exact ⟨rfl, rfl, rfl, by simp [sweep]⟩
  | cons file files =>
    simp only [List.isEmpty_cons, Bool.false_eq_true, if_false, hcrash]
    refine ⟨trivial, trivial, trivial, ?_⟩
    split <;> simp_all

/-- Formatting the input stream changes nothing on the disk. -/
theorem disk_formatInput (d : Disk) (target : Files.Path) (checkOnly : Bool) (input : String) :
    (formatInput d target checkOnly input).disk = d := by
  unfold formatInput
  split
  · rfl
  · simp only []
    split
    · rfl
    · rfl
    · split <;> rfl

/-- The disk once the sources of a target have been formatted. -/
def formatted (d : Disk) (target : Files.Path) : Disk := (formatFiles d target false).disk

/-- Formatting a target, whose sources are the files, does no harm and comes to rest. -/
structure Settles (d : Disk) (target : Files.Path) (config : Config) (files : List Files.Path) :
    Prop where
  finishes (checkOnly : Bool) : (formatFiles d target checkOnly).crash = none
  /-- Nothing comes to the disk and nothing goes. -/
  shape : d.SameShape (formatted d target)
  collected : prepare (formatted d target) target = .ok (config, files)
  /-- Exactly the sources change that are programs laid out otherwise. -/
  changed (loc : Location) : (formatted d target).nodeAt? loc ≠ d.nodeAt? loc ↔
    ∃ file ∈ files, d.locate? file = some loc ∧ isStale d file = true
  /-- What has changed stands for the same declarations. -/
  meaning (loc : Location) : (formatted d target).nodeAt? loc ≠ d.nodeAt? loc →
    ∃ file ∈ files, d.locate? file = some loc ∧ ∃ text p new, d.readText file = .ok text ∧
      readProgram file.text text = .ok p ∧ (formatted d target).readText file = .ok new ∧
      Canonical new p.bare
  broken (file : Files.Path) (hfile : file ∈ files) : ¬Parses d file →
    (formatted d target).readBytes file = d.readBytes file
  parses (file : Files.Path) (hfile : file ∈ files) :
    (Parses (formatted d target) file → Parses d file) ∧
      (Parses d file → Parses (formatted d target) file ∨
        ∃ text, (formatted d target).readText file = .ok text ∧ NestsTooDeep file.text text)
  checked : (formatFiles d target true).disk = d
  input (checkOnly : Bool) (text : String) : (formatInput d target checkOnly text).disk = d
  /-- A check names the sources that would change. -/
  reported : said (formatFiles d target true).outputs =
    (files.filter (isStale d)).map fun file => .say ("would reformat " ++ file.text)
  /-- A second pass has nothing to do. -/
  again : (formatFiles (formatted d target) target false).crash = none ∧
    said (formatFiles (formatted d target) target false).outputs = [] ∧
    formatted (formatted d target) target = formatted d target
  exit : (formatFiles (formatted (formatted d target) target) target true).exit = 0 ↔
    ∀ file ∈ files, Parses (formatted (formatted d target) target) file

theorem Settles.of_ready (hprepare : prepare d target = .ok (config, files))
    (hready : ∀ file ∈ files, Ready d file) : Settles d target config files := by
  obtain ⟨hcrash, hpass⟩ := sweep_formatted config.colored hready
  obtain ⟨hfinish, hdisk, -⟩ := formatFiles_eq hprepare hcrash
  have hpass : Formatted d (formatted d target) files := by rwa [formatted, hdisk]
  have hafter := hpass.prepare_eq hprepare
  have hready' : ∀ file ∈ files, Ready (formatted d target) file := fun file hfile =>
    hpass.ready hfile (hready file hfile)
  have hstill : ∀ file ∈ files, isStale (formatted d target) file = false := fun file hfile =>
    hpass.isStale_eq_false hfile
  obtain ⟨hcrash₁, hdisk₁, hsaid₁, -⟩ := sweep_of_still config.colored true hready (.inl rfl)
  obtain ⟨hfinish₁, hkept₁, hlines₁, -⟩ := formatFiles_eq hprepare hcrash₁
  obtain ⟨hcrash₂, hdisk₂, hsaid₂, -⟩ := sweep_of_still config.colored false hready' (.inr hstill)
  obtain ⟨hfinish₂, hkept₂, hlines₂, -⟩ := formatFiles_eq hafter hcrash₂
  obtain ⟨hcrash₃, -, -, hsettled₃⟩ := sweep_of_still config.colored true hready' (.inl rfl)
  obtain ⟨-, -, -, hexit₃⟩ := formatFiles_eq hafter hcrash₃
  have hagain : formatted (formatted d target) target = formatted d target := hkept₂.trans hdisk₂
  exact
    { finishes := fun
        | false => hfinish
        | true => hfinish₁
      shape := hpass.shape
      collected := hafter
      changed := hpass.changed_iff
      meaning := fun _ => hpass.canonical
      broken := fun file hfile => hpass.readBytes_eq_of_not_parses hfile
      parses := fun file hfile => ⟨hpass.parses_of_parses hfile, hpass.parses_or_nestsTooDeep hfile⟩
      checked := hkept₁.trans hdisk₁
      input := disk_formatInput d target
      reported := hlines₁.trans hsaid₁
      again := ⟨hfinish₂, by
        rw [hlines₂, hsaid₂, List.filter_eq_nil_iff.2 fun file hfile => by simp [hstill file hfile]]
        rfl, hagain⟩
      exit := by
        rw [hagain, hexit₃, hsettled₃]
        exact forall₂_congr fun file hfile => and_iff_left (hstill file hfile) }

/-- Formatting is safe and comes to rest. Where all sources of a target can be read and have no number
that is too long, only programs among them that are laid out otherwise are rewritten, to the same
declarations, a check tells which, and a second pass finds nothing to rewrite. Settings or sources that
cannot be told end every pass at once. -/
theorem formatFiles_settles (h : ∀ config files, prepare d target = .ok (config, files) →
      ∀ file ∈ files, ∃ text, d.readText file = .ok text ∧ NumbersFit text.toList) :
    (∃ c, prepare d target = .error c ∧
      ∀ checkOnly, formatFiles d target checkOnly = .crashed d [] c) ∨
    ∃ config files, prepare d target = .ok (config, files) ∧ Settles d target config files := by
  cases hprepare : prepare d target with
  | error c => exact .inl ⟨c, rfl, fun checkOnly => by rw [formatFiles, hprepare]⟩
  | ok found =>
    obtain ⟨config, files⟩ := found
    refine .inr ⟨config, files, rfl, .of_ready hprepare fun file hfile => ?_⟩
    obtain ⟨text, hread, hfit⟩ := h config files hprepare file hfile
    exact ⟨text, hread, hfit.reportsOnly⟩

theorem formatFiles_settles_of_crowded :
    let d := Disk.ofEntries [] [(["a.at"], .file "fn main{1}".toUTF8)]
    let target := Files.Path.ofString "/a.at"
    prepare d target = .ok (.standard, [target]) ∧ d.readText target = .ok "fn main{1}" ∧
      NumbersFit "fn main{1}".toList ∧ isStale d target = true ∧
      Settles d target .standard [target] := by
  intro d target
  have hnode : (d.node? target).any Node.isFile = true := by decide +kernel
  have hload : Config.load d target = .ok (.standard, none) := by rfl
  have hprepare : prepare d target = .ok (.standard, [target]) := by
    have hsources := sources_of_isFile .standard hnode
    simp only [prepare, hload, hsources, Except.mapError, bind, Except.bind, pure, Except.pure]
  have hread : d.readText target = .ok "fn main{1}" := by decide +kernel
  have hfit : NumbersFit "fn main{1}".toList := by decide
  have hstale : isStale d target = true := by decide +kernel
  refine ⟨hprepare, hread, hfit, hstale, ?_⟩
  have hfiles : ∀ config files, prepare d target = .ok (config, files) →
      ∀ file ∈ files, ∃ text, d.readText file = .ok text ∧ NumbersFit text.toList := by
    intro config files hok
    rw [hprepare] at hok
    cases hok
    exact List.forall_mem_singleton.2 ⟨_, hread, hfit⟩
  obtain ⟨c, hc, -⟩ | ⟨config, files, hok, hsettles⟩ := formatFiles_settles hfiles
  · rw [hprepare] at hc
    cases hc
  · rw [hprepare] at hok
    cases hok
    exact hsettles

end Command
end TinyFront
