import TinyFront.Command.Run
import TinyFront.Editor.Workspace
import TinyFront.Proofs.Programs
import TinyFront.Proofs.Returns

/-!
What the command line and an editor report about one text. Main statement: where carriage returns stand
before line feeds only, and no number is too long to be read, both report the same at the same places,
and the command line counts the file as failed exactly when the editor has no program for it.
-/
namespace TinyFront

/-- No line and no column comes before the first. -/
theorem Position.walk_pos {limit offset : Nat} {p : Position} {cs : List Char}
    (h : 1 ≤ p.line ∧ 1 ≤ p.column) :
    1 ≤ (walk limit offset p cs).line ∧ 1 ≤ (walk limit offset p cs).column := by
  induction cs generalizing offset p with
  | nil => exact h
  | cons c cs ih =>
    rw [walk]
    split
    · refine ih ?_
      unfold past
      split
      · exact ⟨Nat.le_add_left 1 _, Nat.le_refl 1⟩
      · exact ⟨h.1, Nat.le_add_left 1 _⟩
    · exact h

namespace Editor

/-- The notice of an editor says what is shown of a diagnostic about a source: severity, code, message
and notes are the same, and the place of the notice, counted from one, is the place that the second
line shows. -/
structure Notice.Repeats (n : Notice) (source : Source) (d : Diagnostic) : Prop where
  severity : n.severity = d.severity
  code : n.code = some d.code
  message : n.message = "[" ++ d.code ++ "] " ++ d.message ++
    (if d.notes.isEmpty then "" else " (" ++ String.intercalate "; " d.notes ++ ")")
  lines : ∀ color, ∃ excerpt,
    d.renderLines color (fun name => if name = source.name then some source else none) =
      d.header color :: Diagnostic.pointer color (source.name ++ ":" ++
          toString (n.range.start.line + 1) ++ ":" ++ toString (n.range.start.character + 1)) ::
        (excerpt ++ d.notes.map (Diagnostic.noteLine color))

theorem Notice.repeats_of_label {source twin : Source} (severity : Severity) (code message : String)
    (notes : List String) {span span' : Span} (hfile : span'.file = twin.name)
    (hplace : source.location span.start = twin.location span'.start) :
    (Notice.ofDiagnostic source ⟨severity, code, message, [⟨span, ""⟩], notes⟩).Repeats twin
      ⟨severity, code, message, [⟨span', ""⟩], notes⟩ where
  severity := rfl
  code := rfl
  message := rfl
  lines color := by
    obtain ⟨hline, hcolumn⟩ : 1 ≤ (twin.location span'.start).line ∧
        1 ≤ (twin.location span'.start).column := Position.walk_pos ⟨Nat.le_refl 1, Nat.le_refl 1⟩
    refine ⟨(Diagnostic.labelLines color (Ink.ofSeverity severity)
      (fun name => if name = twin.name then some twin else none) ⟨span', ""⟩).tail, ?_⟩
    simp [Notice.ofDiagnostic, Range.ofSpan, Range.ofOffsets, Place.ofPosition, hplace,
      Nat.sub_add_cancel hline, Nat.sub_add_cancel hcolumn, Diagnostic.renderLines,
      Diagnostic.labelLines, hfile, Diagnostic.excerpt]

theorem parse_of_twins {source twin : Source} (h : Twins source twin) (hfit : NumbersFit source.chars)
    (colors : Bool) :
    (∃ p, Command.parse colors twin.name twin.content = .ok (.ok p) ∧
      (Document.ofText source.name source.content).program.isSome = true ∧
      (Document.ofText source.name source.content).notices = []) ∨
    ∃ reports, Command.parse colors twin.name twin.content =
        .ok (.error (reports.map (Command.shown colors twin))) ∧
      (Document.ofText source.name source.content).program = none ∧
      List.Forall₂ (fun d n => n.Repeats twin d) reports
        (Document.ofText source.name source.content).notices := by
  have hstrays := h.strays_paired
  rw [Document.ofText, Command.parse, readProgram, Parser.runSource]
  by_cases hnone : Diagnostic.ofPieces source.name 0 (Piece.cut source.chars) = []
  · rw [hnone, List.forall₂_nil_left_iff] at hstrays
    have hlex : lex source.name source.content = .ok (Token.ofPieces source.name 0 (Piece.cut source.chars)) :=
      (lex_eq _ _).trans (if_pos hnone)
    have htwin : lex twin.name twin.content = .ok (Token.ofPieces twin.name 0 (Piece.cut twin.chars)) :=
      (lex_eq _ _).trans (if_pos hstrays)
    rw [hlex, htwin]
    obtain ⟨p, q, hp, hq, -⟩ | ⟨e, f, he, hf, halike⟩ := (Parser.program_echo Parser.maxDepth).run
      h.tokens_paired (stream_of_lex hlex).ended (some source.name) (some twin.name)
    · simp only [hp, hq]
      exact .inl ⟨q, rfl, by simp⟩
    · obtain ⟨r, rfl⟩ := Parser.rejected_of_program hfit hlex he
      obtain ⟨cause, category, -, hfile, hplace⟩ := halike
      simp only [he, hf]
      refine .inr ⟨[_], rfl, by simp, .cons (Notice.repeats_of_label _ _ _ _ hfile hplace) .nil⟩
  · have hnone' : Diagnostic.ofPieces twin.name 0 (Piece.cut twin.chars) ≠ [] := fun hnil => by
      rw [hnil, List.forall₂_nil_right_iff] at hstrays
      exact hnone hstrays
    rw [(lex_eq _ _).trans (if_neg hnone), (lex_eq _ _).trans (if_neg hnone')]
    refine .inr ⟨_, rfl, rfl, ?_⟩
    rw [List.forall₂_map_right_iff]
    refine hstrays.flip.imp ?_
    rintro d e ⟨p, span, span', rfl, rfl, hfile, hplace⟩
    exact Notice.repeats_of_label _ _ _ _ hfile hplace

end Editor

namespace Command

open Editor Files

variable {d : Disk} {file : Files.Path} {text : String}

theorem checkFile_reports (hfile : d.readBytes file = .ok text.toUTF8)
    (hreturns : ReturnsEndLines text.toList) (hfit : NumbersFit text.toList) (colors : Bool)
    (uri : String) :
    let source : Source := ⟨file.text, String.ofList (Text.unifyNewlines text.toList)⟩
    ∃ count reports, checkFile colors d file = .ok ⟨count, reports.map (shown colors source), d⟩ ∧
      (count = none ↔ (Document.ofText uri text).program = none) ∧
      List.Forall₂ (fun r n => n.Repeats source r) reports (Document.ofText uri text).notices := by
  intro source
  have htwins : Twins ⟨uri, text⟩ source :=
    ⟨hreturns, by simpa [Source.chars, source] using hreturns.unifyNewlines_eq⟩
  have hread : (d.readText file).mapError Crash.unreadable = .ok source.content := by
    rw [Disk.readText_of_readBytes hfile]
    rfl
  rw [checkFile, hread]
  obtain ⟨p, hparse, hprogram, hnotices⟩ | ⟨reports, hparse, hprogram, hreports⟩ :=
    parse_of_twins htwins hfit colors
  · refine ⟨some p.decls.length, [], ?_, ?_, ?_⟩
    · simp only [bind, Except.bind]
      rw [hparse]
      rfl
    · simpa [← Option.isSome_iff_ne_none] using hprogram
    · rw [hnotices]
      exact .nil
  · refine ⟨none, reports, ?_, by simpa using hprogram, hreports⟩
    simp only [bind, Except.bind]
    rw [hparse]
    rfl

/-- The command line and an editor report the same of a text. Where carriage returns stand before line
feeds only, and numbers are not too long, the reports of a check of the file are one by one those that
are published when the text is opened, and the file fails exactly when the open document holds no
program. -/
theorem check_reports_as_editor {config : Config} {loc? : Option Location}
    (hfile : d.readBytes file = .ok text.toUTF8) (hconfig : Config.load d file = .ok (config, loc?))
    (hreturns : ReturnsEndLines text.toList) (hfit : NumbersFit text.toList) (w : Workspace)
    (uri : String) :
    let source : Source := ⟨file.text, String.ofList (Text.unifyNewlines text.toList)⟩
    ∃ doc count reports,
      (w.handle ⟨uri, .revised text⟩).1 = .published doc ∧
      (w.handle ⟨uri, .revised text⟩).2.find? uri = some doc ∧
      check d file = ⟨(checkSummary [count]).1,
        reports.map (shown config.colored source) ++ [(checkSummary [count]).2], d, none⟩ ∧
      List.Forall₂ (fun r n => n.Repeats source r) reports doc.notices ∧
      (count = none ↔ doc.program = none) ∧ ((check d file).exit = 1 ↔ doc.program = none) := by
  intro source
  obtain ⟨count, reports, hcheck, hcount, hreports⟩ :=
    checkFile_reports hfile hreturns hfit config.colored uri
  have hnode : (d.node? file).any Node.isFile = true := by
    rw [Disk.readBytes] at hfile
    split at hfile <;> simp_all [Node.isFile, Node.isFolder]
  have hprepare : prepare d file = .ok (config, [file]) := by
    have hsources := sources_of_isFile config hnode
    simp only [prepare, hconfig, hsources, Except.mapError, bind, Except.bind, pure, Except.pure]
  have hrun : check d file = ⟨(checkSummary [count]).1,
      reports.map (shown config.colored source) ++ [(checkSummary [count]).2], d, none⟩ := by
    rw [check, hprepare]
    simp only [List.isEmpty_cons, sweep, hcheck, List.append_nil]
    rfl
  refine ⟨.ofText uri text, count, reports, rfl, ?_, hrun, hreports, hcount, ?_⟩
  · exact (Workspace.find?_put _ _ _).trans (if_pos (Document.name_ofText uri text).symm)
  · rw [hrun, ← hcount]
    cases count <;> simp [checkSummary]

theorem check_reports_as_editor_of_returns :
    let text := "// \u00fc\r\n1"
    let d := Disk.ofEntries [] [(["a.at"], .file text.toUTF8)]
    let file := Files.Path.ofString "/a.at"
    let source : Source := ⟨file.text, "// \u00fc\n1"⟩
    d.readBytes file = .ok text.toUTF8 ∧ ReturnsEndLines text.toList ∧ NumbersFit text.toList ∧
    ∃ config loc?, Config.load d file = .ok (config, loc?) ∧
    ∃ doc count reports,
      (Workspace.empty.handle ⟨"file:///a.at", .revised text⟩).1 = .published doc ∧
      (Workspace.empty.handle ⟨"file:///a.at", .revised text⟩).2.find? "file:///a.at" = some doc ∧
      check d file = ⟨(checkSummary [count]).1,
        reports.map (shown config.colored source) ++ [(checkSummary [count]).2], d, none⟩ ∧
      List.Forall₂ (fun r n => n.Repeats source r) reports doc.notices ∧
      (count = none ↔ doc.program = none) ∧ ((check d file).exit = 1 ↔ doc.program = none) := by
  intro text d file source
  have hfile : d.readBytes file = .ok text.toUTF8 := by decide +kernel
  have hconfig : Config.load d file = .ok (.standard, none) := by rfl
  have hreturns : ReturnsEndLines text.toList := by decide
  have hfit : NumbersFit text.toList := by decide
  have hsource : String.ofList (Text.unifyNewlines text.toList) = source.content := by decide
  have hsame := check_reports_as_editor hfile hconfig hreturns hfit .empty "file:///a.at"
  rw [hsource] at hsame
  exact ⟨hfile, hreturns, hfit, _, _, hconfig, hsame⟩

end Command
end TinyFront
