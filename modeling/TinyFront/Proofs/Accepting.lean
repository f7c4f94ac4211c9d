import TinyFront.Proofs.Edits
import TinyFront.Proofs.Programs

/-!
What accepting a formatting edit leaves as it is. Main statement: once the text of the edit is that of the
document, there is nothing left to lay out, and what the document completes and outlines is the same but
for the places.
-/
namespace TinyFront.Editor

variable {σ τ : Type}

namespace Completion

theorem ofDecl_map (f : σ → τ) : ∀ d : Decl σ, ofDecl (d.map f) = ofDecl d
  | .fn _ _ _ _ _ => rfl
  | .type _ _ (.sum vs) _ => by simp [Decl.map, TypeBody.map, ofDecl, Variant.map, Function.comp_def]
  | .type _ _ (.product _) _ => rfl

/-- Places have no part in what a program completes. -/
theorem ofProgram_map (f : σ → τ) (p : Program σ) :
    ofProgram (some (p.map f)) = ofProgram (some p) := by
  simp [ofProgram, Program.map, List.flatMap_map, ofDecl_map]

end Completion

def Member.placeless (m : Member) : Member := { m with range := .zero }

namespace Symbol

def placeless (s : Symbol) : Symbol := ⟨s.head.placeless, s.members.map Member.placeless⟩

def outline : Decl σ → Symbol
  | .fn n ps r _ _ => ⟨⟨n, .function, .zero, detail? (signature ps r)⟩, []⟩
  | .type n ps (.sum vs) _ =>
    ⟨⟨n, .sum, .zero, detail? ps⟩, vs.map fun v => ⟨v.name, .variant, .zero, none⟩⟩
  | .type n ps (.product ds) _ =>
    ⟨⟨n, .product, .zero, detail? ps⟩,
      ds.map fun d => ⟨d.name, .field, .zero, some (shown (d.type.marks .top))⟩⟩

theorem placeless_ofDecl (source : Source) : ∀ d : Decl Span, (ofDecl source d).placeless = outline d
  | .fn _ _ _ _ _ => rfl
  | .type _ _ (.sum _) _ | .type _ _ (.product _) _ => by
    simp [ofDecl, placeless, outline, Member.placeless, ofVariant, ofField]

theorem signature_map (f : σ → τ) (ps : List (Param σ)) (r : Option (Ty σ)) :
    signature (ps.map (Param.map f)) (r.map (Ty.map f)) = signature ps r := by
  cases r <;> simp [signature, Param.marks_map, Ty.marks_map]

theorem outline_map (f : σ → τ) : ∀ d : Decl σ, outline (d.map f) = outline d
  | .fn _ _ _ _ _ => by rw [Decl.map, outline, signature_map, outline]
  | .type _ _ (.sum _) _ => by simp [Decl.map, TypeBody.map, outline, Variant.map]
  | .type _ _ (.product _) _ => by simp [Decl.map, TypeBody.map, outline, Field.map, Ty.marks_map]

/-- The outline of a program is that of its declarations, but for the places. -/
theorem placeless_ofProgram (source : Source) (p : Program Span) :
    (ofProgram source (some p)).map placeless = p.bare.decls.map outline := by
  simp [ofProgram, Program.bare, Program.map, placeless_ofDecl, outline_map]

end Symbol

namespace Document

theorem program_of_readProgram {name text : String} {p : Program Span}
    (h : readProgram name text = .ok p) :
    (ofText name text).program = some p ∧ (ofText name text).notices = [] := by
  obtain ⟨ts, hlex, hrun⟩ := Parser.runSource_eq_ok.1 h
  simp only [ofText, hlex, hrun, and_self]

/-- An edit lays out the program of the document. -/
theorem exists_program_of_formatting {d : Document} {edit : Edit} (h : d.formatting = some edit) :
    ∃ p, d.program = some p ∧ edit.text = p.format standardIndent := by
  obtain ⟨p, hp, hedit⟩ := Option.bind_eq_some_iff.1 h
  simp only [Option.ite_none_left_eq_some, Option.some.injEq] at hedit
  exact ⟨p, hp, by rw [← hedit.2]⟩

theorem formatting_eq_none {d : Document} {p : Program Span} (hp : d.program = some p)
    (hformat : p.format standardIndent = d.source.content) : d.formatting = none := by
  rw [formatting, hp, Option.bind_some, if_pos hformat]

theorem hasLayout_congr {d e : Document} {p q : Program Span} (hp : d.program = some p)
    (hq : e.program = some q) (h : q.bare = p.bare) : e.hasLayout = d.hasLayout := by
  have hcalls : q.calls = p.calls := by
    rw [← Program.calls_map (fun _ => ()) q, ← Program.calls_map (fun _ => ()) p]
    exact congrArg Program.calls h
  rw [hasLayout, hasLayout, hp, hq, Option.all_some, Option.all_some, hcalls]

theorem hasDetails_of_hasLayout {d : Document} (h : d.hasLayout = true) : d.hasDetails = true := by
  rw [hasLayout] at h
  rw [hasDetails]
  cases hp : d.program with
  | none => rfl
  | some p =>
    rw [hp, Option.all_some, decide_eq_true_eq] at h
    exact decide_eq_true (p.detailCalls_le_calls.trans h)

end Document

/-- The document of the name has been laid out anew between the two moments: it is read without notices
and laid out already, it completes the same, and it has the same symbols but for their ranges. -/
structure LaidOutAnew (before later : Workspace) (name : String) : Prop where
  document : ∃ d p, later.find? name = some d ∧ d.program = some p ∧ d.notices = []
  formatting : (later.handle ⟨name, .formatting⟩).1 = .formatted none
  completion : (later.handle ⟨name, .completion⟩).1 = (before.handle ⟨name, .completion⟩).1
  symbols : ∃ old new, (before.handle ⟨name, .symbols⟩).1 = .symbols old ∧
    (later.handle ⟨name, .symbols⟩).1 = .symbols new ∧
    new.map Symbol.placeless = old.map Symbol.placeless

variable {history : List Request} {name : String} {edit : Edit}

/-- Accepting an edit keeps what the document means. After any requests, a document that is to be laid
out anew and is given the text of the edit has been laid out anew, unless that text nests too deeply to
be read. -/
theorem accepting_keeps_meaning
    (hreply : ((Workspace.empty.after history).handle ⟨name, .formatting⟩).1 = .formatted (some edit))
    (texts : List String) :
    NestsTooDeep name edit.text ∨ LaidOutAnew (Workspace.empty.after history)
      (Workspace.empty.after (history ++ [⟨name, .changed (texts ++ [edit.text])⟩])) name := by
  obtain ⟨hlayout, hsome⟩ := Workspace.handle_formatting_eq.1 hreply
  obtain ⟨d, hd, hformatting⟩ := Option.bind_eq_some_iff.1 hsome
  rw [hd, Option.all_some] at hlayout
  obtain ⟨text, -, rfl⟩ := (Workspace.find?_after history name d).1 hd
  obtain ⟨p, hp, hedit⟩ := Document.exists_program_of_formatting hformatting
  obtain ⟨q, hread, hbare, hformat⟩ | hdeep := canonical_format (Document.program_eq_some hp) name
  · rw [← hedit] at hread hformat
    obtain ⟨hq, hnotices⟩ := Document.program_of_readProgram hread
    have hlater : (Workspace.empty.after
        (history ++ [⟨name, .changed (texts ++ [edit.text])⟩])).find? name =
        some (.ofText name edit.text) := by
      simp only [Workspace.after_snoc, Workspace.find?_handle, if_true, Action.changed,
        List.getLast?_concat, Option.getD_some]
    have hcompletions : Completion.ofProgram (some q) = Completion.ofProgram (some p) := by
      rw [← Completion.ofProgram_map (fun _ => ()) q, ← Completion.ofProgram_map (fun _ => ()) p]
      exact congrArg (fun p => Completion.ofProgram (some p)) hbare
    have hlayout' : (Document.ofText name edit.text).hasLayout = true :=
      (Document.hasLayout_congr hp hq hbare).trans hlayout
    refine .inr ⟨⟨_, q, hlater, hq, hnotices⟩, ?_, ?_, _, _,
      Workspace.handle_symbols_eq.2 ⟨?_, rfl⟩, Workspace.handle_symbols_eq.2 ⟨?_, rfl⟩, ?_⟩
    · rw [Workspace.handle_formatting_eq, hlater]
      exact ⟨hlayout', Document.formatting_eq_none hq (by simpa using hformat)⟩
    · simp only [Workspace.handle, hlater, hd, Option.bind_some, hp, hq, hcompletions]
    · rw [hd]
      exact Document.hasDetails_of_hasLayout hlayout
    · rw [hlater]
      exact Document.hasDetails_of_hasLayout hlayout'
    · simp only [hd, hlater, Option.elim_some, Document.symbols, hp, hq, Symbol.placeless_ofProgram, hbare]
  · exact .inl (hedit ▸ hdeep)

theorem accepting_keeps_meaning_of_crowded :
    let history : List Request := [⟨"a.at", .revised "fn f\x7bg\x7d"⟩]
    ∃ edit, ((Workspace.empty.after history).handle ⟨"a.at", .formatting⟩).1 = .formatted (some edit) ∧
      edit.text = "fn f \x7b\n    g\n\x7d\n" ∧ LaidOutAnew (Workspace.empty.after history)
        (Workspace.empty.after (history ++ [⟨"a.at", .changed [edit.text]⟩])) "a.at" := by
  intro history
  have htext : LastText history "a.at" "fn f\x7bg\x7d" := ⟨[], [], rfl, by simp⟩
  have hfound := (Workspace.find?_after history "a.at" _).2 ⟨_, htext, rfl⟩
  obtain ⟨edit, hedit, hnew⟩ := Option.map_eq_some_iff.1
    (show (Document.ofText "a.at" "fn f\x7bg\x7d").formatting.map (·.text) =
      some "fn f \x7b\n    g\n\x7d\n" by decide +kernel)
  have hlayout : (Document.ofText "a.at" "fn f\x7bg\x7d").hasLayout = true := by decide +kernel
  have hreply : ((Workspace.empty.after history).handle ⟨"a.at", .formatting⟩).1 =
      .formatted (some edit) := by
    rw [Workspace.handle_formatting_eq, hfound, Option.all_some, Option.bind_some]
    exact ⟨hlayout, hedit⟩
  refine ⟨edit, hreply, hnew, (accepting_keeps_meaning hreply []).resolve_left fun hdeep => ?_⟩
  have hlength := hdeep.1
  rw [hnew] at hlength
  exact absurd hlength (by decide +kernel)

end TinyFront.Editor
