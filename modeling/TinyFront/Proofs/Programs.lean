import TinyFront.Proofs.Cutting
import TinyFront.Proofs.Echoes
import TinyFront.Proofs.Refusals
import TinyFront.Proofs.RoundTrip

/-!
Texts that are programs, and those that are none. Main statements: whether a text is a program does not
depend on its name, a text whose numbers are not too long is refused by reports only, and the layout of
a program is the same program again and its own layout.
-/
namespace TinyFront

/-- No number in the text has more digits than can be read. -/
def NumbersFit (cs : List Char) : Prop :=
  ∀ p ∈ Piece.cut cs, p.shape = .number → p.text.length ≤ digitLimit

instance (cs : List Char) : Decidable (NumbersFit cs) :=
  inferInstanceAs (Decidable (∀ p ∈ Piece.cut cs, p.shape = .number → p.text.length ≤ digitLimit))

theorem Piece.shape_of_kind?_eq_integer {p : Piece} (h : p.kind? = some .integer) :
    p.shape = .number := by
  obtain ⟨shape, text⟩ := p
  cases shape with
  | number => rfl
  | word =>
    have hword : wordKind text = .integer := Option.some.inj h
    unfold wordKind at hword
    split at hword
    · cases hword
    · split at hword
      · rename_i k hk
        subst hword
        cases TokenKind.spelling?_of_ofKeyword? hk (by decide)
      · split at hword <;> cases hword
  | symbol => cases TokenKind.spelling?_of_ofSymbol? h
  | _ => cases h

theorem NumbersFit.length_le {file source : String} {ts : List Token} (h : NumbersFit source.toList)
    (hlex : lex file source = .ok ts) {t : Token} (ht : t ∈ ts) (hk : t.kind = .integer) :
    t.text.toList.length ≤ digitLimit := by
  obtain ⟨-, rfl⟩ := lex_eq_ok hlex
  rw [Token.ofPieces_eq_filterMap] at ht
  rcases List.mem_append.1 ht with ht | ht
  · obtain ⟨⟨offset, p⟩, hmem, hp⟩ := List.mem_filterMap.1 ht
    obtain ⟨k, hk', rfl⟩ := Option.map_eq_some_iff.1 hp
    obtain rfl : k = .integer := hk
    obtain ⟨qs, rs, heq, -⟩ := Piece.mem_placed.1 hmem
    have hcut : p ∈ Piece.cut source.toList := heq ▸ by simp
    simpa [Piece.string] using h p hcut (Piece.shape_of_kind?_eq_integer hk')
  · obtain rfl := List.mem_singleton.1 ht
    cases hk

theorem lex_eq (file source : String) :
    lex file source = if Diagnostic.ofPieces file 0 (Piece.cut source.toList) = [] then
      .ok (Token.ofPieces file 0 (Piece.cut source.toList))
    else .error (Diagnostic.ofPieces file 0 (Piece.cut source.toList)) := by
  unfold lex
  split <;> simp_all

namespace Parser

variable {α β : Type} {P : Pairing} {R : α → β → Prop}

theorem Echoes.run {p : Parser α} {q : Parser β} (h : Echoes P R p q) {ts us : List Token}
    (hts : List.Forall₂ P.rel ts us) (hended : ∃ vs e, ts = vs ++ [e] ∧ e.kind = .eof)
    (file? file'? : Option String) :
    (∃ a b, p.run file? ts = .ok a ∧ q.run file'? us = .ok b ∧ R a b) ∨
      ∃ e f, p.run file? ts = .error e ∧ q.run file'? us = .error f ∧ e.Alike P f := by
  have hne : ts ≠ [] := by
    obtain ⟨vs, e, rfl, -⟩ := hended
    simp
  have hne' : us ≠ [] := fun hnil => hne (List.forall₂_nil_right_iff.1 (hnil ▸ hts))
  obtain ⟨file, c, -, hc, -, hrun⟩ := run_eq p file? hne
  obtain ⟨file', d, -, hd, -, hrun'⟩ := run_eq q file'? hne'
  have halike := h file file' c d ⟨by rwa [hc, hd], by rwa [Cursor.Ended, hc]⟩
  rw [hrun, hrun']
  revert halike
  generalize p file c = x, q file' d = y
  rintro (⟨hab, -⟩ | ⟨he, -⟩)
  · exact .inl ⟨_, _, rfl, rfl, hab⟩
  · exact .inr ⟨_, _, rfl, rfl, he⟩

theorem run_tree_program (depth : Nat) (file? : Option String) (ts : List Token) :
    (tree depth .program).run file? ts = ((program depth).run file? ts).map .program := by
  simp only [run]
  cases Reader.ofTokens? file? ts with
  | none => rfl
  | some r =>
    simp only [tree, bind_apply]
    cases program depth r.file r.cursor <;> rfl

/-- Without numbers that are too long a program is refused by rejections only. -/
theorem rejected_of_program {file source : String} {depth : Nat} {ts : List Token} {e : Failure}
    (hfit : NumbersFit source.toList) (hlex : lex file source = .ok ts)
    (h : (program depth).run (some file) ts = .error e) : ∃ r, e = .rejected r := by
  have htree : (tree depth .program).run (some file) ts = .error e := by
    rw [run_tree_program, h]
    rfl
  obtain he | ⟨r, i, rfl, -⟩ := run_eq_error (stream_of_lex hlex) htree
  · cases e with
    | rejected r => exact ⟨r, rfl⟩
    | literalTooLong n =>
      obtain ⟨hlong, t, ht, hk, rfl⟩ := he
      exact absurd (hfit.length_le hlex ht hk) (Nat.not_le.2 hlong)
    | unknownOperator => cases he
    | noTokens => cases he
  · exact ⟨r, rfl⟩

end Parser

theorem readProgram_eq_ok {file source : String} {p : Program Span} : readProgram file source = .ok p ↔
    (Parser.tree Parser.maxDepth .program).runSource file source = .ok (.program p) := by
  rw [readProgram, Parser.runSource_eq_ok, Parser.runSource_eq_ok]
  refine exists_congr fun ts => and_congr_right fun _ => ?_
  rw [Parser.run_tree_program]
  cases (Parser.program Parser.maxDepth).run (some file) ts <;> simp [Except.map]

theorem readProgram_eq_error {file source : String} {e : SourceFailure} :
    readProgram file source = .error e ↔
      (Parser.tree Parser.maxDepth .program).runSource file source = .error e := by
  rw [readProgram, Parser.runSource, Parser.runSource]
  cases lex file source with
  | error reports => simp
  | ok ts =>
    simp only [Parser.run_tree_program]
    cases (Parser.program Parser.maxDepth).run (some file) ts <;> simp [Except.map]

/-- Another name does not make a program of a text that is none. -/
theorem exists_readProgram {file source : String} {p : Program Span}
    (h : readProgram file source = .ok p) (file' : String) : ∃ q, readProgram file' source = .ok q := by
  obtain ⟨ts, hlex, hrun⟩ := Parser.runSource_eq_ok.1 h
  obtain ⟨hnone, rfl⟩ := lex_eq_ok hlex
  have hnone' : Diagnostic.ofPieces file' 0 (Piece.cut source.toList) = [] := by
    rwa [Diagnostic.ofPieces_eq_map, List.map_eq_nil_iff] at hnone ⊢
  let pairing : Pairing := ⟨fun t u => t.lexeme = u.lexeme, id⟩
  have hpaired : List.Forall₂ pairing.rel (Token.ofPieces file 0 (Piece.cut source.toList))
      (Token.ofPieces file' 0 (Piece.cut source.toList)) := by
    rw [← List.forall₂_map_right_iff (R := fun t x => Token.lexeme t = x),
      ← List.forall₂_map_left_iff (R := Eq), Token.lexemes_ofPieces, Token.lexemes_ofPieces]
    exact List.forall₂_refl _
  obtain ⟨-, q, -, hq, -⟩ | ⟨e, f, he, -⟩ := (Parser.program_echo Parser.maxDepth).run hpaired
    (stream_of_lex hlex).ended (some file) (some file')
  · exact ⟨q, Parser.runSource_eq_ok.2 ⟨_, (lex_eq _ _).trans (if_pos hnone'), hq⟩⟩
  · rw [hrun] at he
    cases he

/-- Why a text is no program can be told in reports, whatever its name. -/
def ReportsOnly (source : String) : Prop :=
  ∀ file e, readProgram file source = .error (.unreadable e) → ∃ r, e = .rejected r

theorem NumbersFit.reportsOnly {source : String} (h : NumbersFit source.toList) :
    ReportsOnly source := by
  intro file e he
  rw [readProgram, Parser.runSource] at he
  cases hlex : lex file source with
  | error reports => simp [hlex] at he
  | ok ts =>
    cases hrun : (Parser.program Parser.maxDepth).run (some file) ts with
    | ok p => simp [hlex, hrun] at he
    | error f =>
      obtain rfl : f = e := by simpa [hlex, hrun] using he
      exact Parser.rejected_of_program h hlex hrun

/-- The text is longer than there is room for nesting, and is refused because it nests too deeply. -/
def NestsTooDeep (file source : String) : Prop :=
  Parser.maxDepth < source.toList.length ∧ ∃ e, readProgram file source = .error e ∧ e.IsTooDeep

/-- The text is the layout of the program, whatever its name, and is refused for no other reason than
that it nests too deeply. -/
def Canonical (source : String) (p : Program Unit) : Prop :=
  ∀ file, (∃ q, readProgram file source = .ok q ∧ q.bare = p ∧ q.format standardIndent = source) ∨
    NestsTooDeep file source

theorem Canonical.reportsOnly {source : String} {p : Program Unit} (h : Canonical source p) :
    ReportsOnly source := by
  intro file e he
  obtain ⟨q, hq, -⟩ | ⟨-, f, hf, r, rfl, -⟩ := h file
  · rw [hq] at he
    cases he
  · rw [hf] at he
    cases he
    exact ⟨r, rfl⟩

theorem Piece.length_cut_le (cs : List Char) : (cut cs).length ≤ cs.length := by
  induction cs using cut_induction with
  | nil => exact Nat.le_refl _
  | piece p rest hfits ih =>
    have hpos := List.length_pos_of_ne_nil hfits.text_ne_nil
    rw [cut_of_fits hfits, List.length_cons, List.length_append]
    omega

theorem Piece.Stand.length_le {cs : List Char} {xs : List Lexeme} (h : Stand (cut cs) xs) :
    xs.length ≤ cs.length := by
  rw [← h.lexemes]
  exact (List.length_filterMap_le _ _).trans (length_cut_le cs)

/-- The layout of a program stands for the same declarations. -/
theorem canonical_format {file source : String} {p : Program Span}
    (h : readProgram file source = .ok p) : Canonical (p.format standardIndent) p.bare := by
  have hwf : (Tree.program p).bare.WellFormed := (wellFormed_of_runSource (readProgram_eq_ok.1 h)).2
  obtain ⟨xs, hs, hreads⟩ := Tree.spelled_of_wellFormed hwf
  have htext : Mark.text standardIndent (Tree.program p).bare.marks = p.format standardIndent :=
    (Tree.program p).format_bare standardIndent
  have hlength : xs.length ≤ (p.format standardIndent).toList.length := by
    rw [← htext, Mark.text, String.toList_ofList]
    exact (Mark.stand_page hs standardIndent ⟨true, 0⟩).length_le
  intro file'
  have hread := runSource_text hs hreads file' standardIndent Parser.maxDepth
  rw [htext] at hread
  obtain ⟨u, hu, hbare⟩ | ⟨hroom, e, he, hdeep⟩ := hread
  · obtain ⟨q, rfl⟩ : ∃ q, u = .program q := by
      have hform := (wellFormed_of_runSource hu).1
      cases u with
      | program q => exact ⟨q, rfl⟩
      | _ => cases hform
    exact .inl ⟨q, readProgram_eq_ok.2 hu, Tree.program.inj hbare, Tree.format_eq_of_bare hbare _⟩
  · exact .inr ⟨Nat.lt_of_lt_of_le hroom hlength, e, readProgram_eq_error.2 he, hdeep⟩

theorem Piece.fits_of_proper {x : Lexeme} (hx : x.Proper) (hk : x.1 ≠ .eof) :
    ∃ shape, shape ≠ .stray ∧ kind? ⟨shape, x.2.toList⟩ = some x.1 ∧ Fits ⟨shape, x.2.toList⟩ [] := by
  obtain ⟨-, -, shape, hs, hkind, hcut⟩ := cuts_of_proper hx hk
  have hlone : cut (x.2.toList ++ []) = [] ++ ⟨shape, x.2.toList⟩ :: [] :=
    hcut [] (.inr (by simp [Stops]))
  exact ⟨shape, hs, hkind, fits_of_cut hlone⟩

namespace Mark

theorem not_mem_of_isBlank {x : Lexeme} (hx : x.Proper) (hk : x.1 ≠ .eof) {c : Char}
    (hc : Text.isBlank c = true) : c ∉ x.2.toList := by
  obtain ⟨shape, -, hkind, hfits⟩ := Piece.fits_of_proper hx hk
  intro hmem
  have hsolid : Piece.isSolid ⟨shape, x.2.toList⟩ = true := by
    cases shape <;> first | rfl | cases hkind
  simp [hfits.isBlank_eq_false hsolid hmem] at hc

theorem return_not_mem_page {ms : List Mark} {xs : List Lexeme} (h : Spelled ms xs) (indent : Nat)
    (m : Margin) : '\r' ∉ page indent m ms := by
  have hbefore : ∀ m : Margin, '\r' ∉ m.before := fun m hm =>
    absurd (List.eq_of_mem_replicate hm) (by decide)
  induction h generalizing m with
  | nil => simp
  | gap h ih =>
    rw [page, Margin.write_cons (by decide)]
    simpa [hbefore] using ih _
  | line depth h ih => simpa using ih _
  | lexeme hx hk hnext h ih =>
    have hfree := not_mem_of_isBlank hx hk (c := '\r') (by decide)
    obtain ⟨hne, hfeed, -⟩ := Piece.cuts_of_proper hx hk
    obtain ⟨c, cs, htext⟩ := List.exists_cons_of_ne_nil hne
    rw [page, htext, Margin.write_cons (htext ▸ hfeed), ← htext]
    simpa [hbefore, hfree] using ih _

end Mark

theorem return_not_mem_format {file source : String} {p : Program Span}
    (h : readProgram file source = .ok p) : '\r' ∉ (p.format standardIndent).toList := by
  obtain ⟨xs, hs, -⟩ := Tree.spelled_of_wellFormed (wellFormed_of_runSource (readProgram_eq_ok.1 h)).2
  have hformat : p.format standardIndent = (Tree.program p).bare.format standardIndent :=
    ((Tree.program p).format_bare standardIndent).symm
  rw [hformat, Tree.format, Mark.text, String.toList_ofList]
  exact Mark.return_not_mem_page hs standardIndent ⟨true, 0⟩

end TinyFront
