import TinyFront.Proofs.MendsDecls

/-!
Where a text is refused. Main statements: no text fails for any other reason than stray characters, a
rejection, or a number too long to be read, and a number is read as its decimal value or rejected for
its size; and a rejection is placed at the first token that nothing can mend, for reasons that no token
but the next two can change.
-/
namespace TinyFront

open Grammar

/-- With more room for nesting, some tokens behind these make a tree of the form. -/
def Completable (depth : Nat) (form : Form) (ts : List Token) : Prop :=
  ∃ v : List Lexeme, (∀ x ∈ v, x.Proper ∧ x.1 ≠ .eof) ∧
    ∀ room, depth < room → ∀ file? cs (e : Token), cs.map Token.lexeme = v → e.kind = .eof →
      ∃ t, (Parser.tree room form).run file? (ts ++ cs ++ [e]) = .ok t

/-- Every token list that shows the same up to two tokens behind the refused one is refused there, with
the same code, category and message. -/
def Rejection.Local (depth : Nat) (form : Form) (ts : List Token) (r : Rejection) (i : Nat) : Prop :=
  ∀ us (e : Token) file?, e.kind = .eof →
    Agree (i + 3) (ts.map Token.lexeme) ((us ++ [e]).map Token.lexeme) →
      ∃ r', (Parser.tree depth form).run file? (us ++ [e]) = .error (.rejected r') ∧
        r'.At (us ++ [e]) i ∧ r'.report = r.report

namespace Parser

variable {depth : Nat} {form : Form} {ts : List Token} {c : Cursor}

theorem completable_of_takes {v : List TokenKind} (hv : .eof ∉ v)
    (h : ∀ m, depth < m → ∀ R, Ends .program R →
      (tree m form).Takes (ts.map Token.lexeme ++ v.map sample) R) : Completable depth form ts := by
  refine ⟨v.map sample, fun x hx => ?_, fun room hroom file? cs e hcs he => ?_⟩
  · obtain ⟨k, hk, rfl⟩ := List.mem_map.1 hx
    exact ⟨proper_sample k, by rintro hk'; rw [sample_fst] at hk'; exact hv (hk' ▸ hk)⟩
  obtain ⟨file, d, -, hd, -, heq⟩ := run_eq (tree room form) file? (show ts ++ cs ++ [e] ≠ [] by simp)
  obtain ⟨t, d', -, hrun, -⟩ := h room hroom [e.lexeme] (.cons (by simp [Sym.goesOn, Token.lexeme, he])
    (by simp [Token.lexeme, he])) file d ⟨ts ++ cs, e, hd, he⟩ (by simp [Cursor.lexemes, hd, hcs])
  exact ⟨t, by rw [heq, hrun]⟩

theorem run_eq_error (hts : TokenStream ts) {file? : Option String} {e : Failure}
    (h : (tree depth form).run file? ts = .error e) :
    e.Excused ts ∨ ∃ r i, e = .rejected r ∧ r.At ts i ∧ Completable depth form (ts.take i) ∧
      r.Local depth form ts i := by
  obtain ⟨file, c, -, rfl, -, heq⟩ := run_eq (tree depth form) file? hts.ne_nil
  have hmends : Mends depth 0 .program (filler form) (tree depth form) (fun m (_ : Unit) => tree m form)
      file c := tree_mends form hts
  cases hrun : tree depth form file c with
  | done t c' => simp [heq, hrun] at h
  | failed e' c' =>
    obtain rfl : e' = e := by simpa [heq, hrun] using h
    refine (hmends.viable.failed e' c' hrun).imp_right fun hr => ?_
    obtain ⟨r, i, rfl, hr⟩ := hr
    refine ⟨r, i, rfl, hr.placed, ?_, fun us z file? hz hagree => ?_⟩
    · rcases Nat.eq_zero_or_pos i with rfl | hi
      · exact completable_of_takes hmends.fills.fair fun m hm => hmends.fills.takes m hm ()
      · obtain ⟨v, hv, htakes⟩ := hr.mended hi
        refine completable_of_takes hv fun m hm R hR => ?_
        rw [List.map_take]
        exact htakes m hm () R hR
    · obtain ⟨file', d, -, hd, -, heq'⟩ := run_eq (tree depth form) file? (show us ++ [z] ≠ [] by simp)
      obtain ⟨r', d', hrun', hr', hreport⟩ := hr.again depth (Nat.le_refl _) () file' d ⟨us, z, hd, hz⟩
        (by rwa [← hd] at hagree)
      exact ⟨r', by rw [heq', hrun'], hd ▸ hr', hreport⟩

end Parser

variable {depth : Nat} {form : Form} {file source : String}

theorem runSource_of_lex {α : Type} (p : Parser α) {ts : List Token} (hlex : lex file source = .ok ts) :
    p.runSource file source = (p.run (some file) ts).mapError .unreadable := by
  rw [Parser.runSource, hlex]
  cases h : p.run (some file) ts <;> simp [h, Except.mapError]

namespace Parser

variable {ε : Type} {f : Family ε} {element : Parser ε} {c : Cursor}

/-- What is to come of the integer literal under the cursor: its decimal value if that fits 64 bits. -/
def literal (f : Family ε) (c : Cursor) : Outcome ε :=
  let t := c.current
  if digitLimit < t.text.toList.length then .failed (.literalTooLong t.text.toList.length) c.advance
  else if decimalValue t.text.toList ≤ maxNumber then
    .done (f.ofLeaf (.number (decimalValue t.text.toList)) t.span) c.advance
  else .failed (.rejected ⟨.malformedLiteral t.text, f.category, t.span⟩) c.advance

theorem atom_of_integer (hk : c.current.kind = .integer) (hd : isDecimal c.current.text.toList = true) :
    atom f element file c = literal f c := by
  rw [atom_of_ne_lparen (by simp [hk]), bind_apply, leaf_of_integer hk, bind_apply, literal]
  by_cases hl : digitLimit < c.current.text.toList.length
  · simp [number, hd, hl, fail]
  · by_cases hv : decimalValue c.current.text.toList ≤ maxNumber <;> simp [number, hd, hl, hv, fail]

end Parser

theorem isDecimal_of_lex {ts : List Token} (hlex : lex file source = .ok ts) {t : Token} (ht : t ∈ ts)
    (hk : t.kind = .integer) : isDecimal t.text.toList = true := by
  have hproper := (stream_of_lex hlex).proper t ht
  rw [Token.lexeme, hk] at hproper
  exact hproper

/-- A text is read as a tree, or it has stray characters, or it is rejected, or a number in it has more
digits than can be read. A number that is come to is read as its decimal value or rejected for its size. -/
theorem runSource_cases (depth : Nat) (form : Form) (file source : String) :
    ((∃ t, (Parser.tree depth form).runSource file source = .ok t) ∨
    (∃ reports, reports ≠ [] ∧ (Parser.tree depth form).runSource file source = .error (.strays reports)) ∨
    (∃ r, (Parser.tree depth form).runSource file source = .error (.unreadable (.rejected r)) ∧
      (r.cause = .nestingTooDeep ∨ ∃ ts i, lex file source = .ok ts ∧ r.At ts i)) ∨
    ∃ ts t, lex file source = .ok ts ∧ t ∈ ts ∧ t.kind = .integer ∧ digitLimit < t.text.toList.length ∧
      (Parser.tree depth form).runSource file source =
        .error (.unreadable (.literalTooLong t.text.toList.length))) ∧
    ∀ ts, lex file source = .ok ts → ∀ c : Cursor, c.current ∈ ts → c.current.kind = .integer →
      ∀ {ε : Type} (f : Family ε) (element : Parser ε),
        Parser.atom f element file c = Parser.literal f c := by
  refine ⟨?_, fun ts hlex c hmem hk _ f element =>
    Parser.atom_of_integer hk (isDecimal_of_lex hlex hmem hk)⟩
  cases hlex : lex file source with
  | error reports =>
    refine .inr (.inl ⟨reports, ?_, by simp [Parser.runSource, hlex]⟩)
    rintro rfl
    simp only [lex] at hlex
    split at hlex <;> simp_all
  | ok ts =>
    rw [runSource_of_lex _ hlex]
    cases hrun : (Parser.tree depth form).run (some file) ts with
    | ok t => exact .inl ⟨t, rfl⟩
    | error e =>
      obtain he | ⟨r, i, rfl, hr, -⟩ := Parser.run_eq_error (stream_of_lex hlex) hrun
      · cases e with
        | rejected r => exact .inr (.inr (.inl ⟨r, rfl, .inl he⟩))
        | literalTooLong n =>
          obtain ⟨hlong, t, ht, hk, rfl⟩ := he
          exact .inr (.inr (.inr ⟨ts, t, rfl, ht, hk, hlong, rfl⟩))
        | unknownOperator x => cases he
        | noTokens => cases he
      · exact .inr (.inr (.inl ⟨r, rfl, .inr ⟨ts, i, rfl, hr⟩⟩))

/-- A rejected text is refused at one of its tokens. What stands before that token can be completed,
and every list that shows the same up to two tokens behind it is refused there in the same way. -/
theorem refused_of_runSource {r : Rejection}
    (h : (Parser.tree depth form).runSource file source = .error (.unreadable (.rejected r)))
    (hr : r.cause ≠ .nestingTooDeep) : ∃ ts i, lex file source = .ok ts ∧ r.At ts i ∧
      Completable depth form (ts.take i) ∧ r.Local depth form ts i := by
  cases hlex : lex file source with
  | error reports => simp [Parser.runSource, hlex] at h
  | ok ts =>
    rw [runSource_of_lex _ hlex] at h
    cases hrun : (Parser.tree depth form).run (some file) ts with
    | ok t => simp [hrun, Except.mapError] at h
    | error e =>
      rw [hrun] at h
      cases h
      obtain he | ⟨r, i, hr', hrest⟩ := Parser.run_eq_error (stream_of_lex hlex) hrun
      · exact absurd he hr
      · cases hr'
        exact ⟨ts, i, rfl, hrest⟩

/-- Whether a text is refused for want of a token, and not for its depth. -/
def rejected {α : Type} : Except SourceFailure α → Bool
  | .error (.unreadable (.rejected r)) => r.cause != .nestingTooDeep
  | _ => false

theorem exists_of_rejected {α : Type} {result : Except SourceFailure α} (h : rejected result = true) :
    ∃ r, result = .error (.unreadable (.rejected r)) ∧ r.cause ≠ .nestingTooDeep := by
  unfold rejected at h
  split at h
  · exact ⟨_, rfl, by simpa using h⟩
  · cases h

/-- The scrutinee takes the brace for that of a record, and none is left for the clauses. -/
theorem refused_of_record : ∃ r : Rejection,
    (Parser.tree 3 .expression).runSource "a" "match x \x7by = 1\x7d" = .error (.unreadable (.rejected r)) ∧
      r.cause ≠ .nestingTooDeep ∧ ∃ ts i, lex "a" "match x \x7by = 1\x7d" = .ok ts ∧ r.At ts i ∧
        Completable 3 .expression (ts.take i) ∧ r.Local 3 .expression ts i := by
  obtain ⟨r, h, hr⟩ := exists_of_rejected (show rejected ((Parser.tree 3 .expression).runSource "a"
    "match x \x7by = 1\x7d") = true by decide +kernel)
  exact ⟨r, h, hr, refused_of_runSource h hr⟩

end TinyFront
