import TinyFront.Proofs.Calls
import TinyFront.Proofs.Programs
import TinyFront.Proofs.Slices

/-!
Programs one after the other. Main statement: a program, a line feed and a text that begins with a
declaration or has no tokens are read as the declarations of the program followed by those of the text,
or refused as the text is, each at its place behind the program.
-/
namespace TinyFront

theorem Token.ofPieces_append (file : String) (offset : Nat) (ps qs : List Piece) :
    ofPieces file offset (ps ++ qs) =
      (ofPieces file offset ps).dropLast ++ ofPieces file (offset + Piece.widthOf ps) qs := by
  induction ps generalizing offset with
  | nil => rfl
  | cons p ps ih =>
    have hne := ofPieces_ne_nil file (offset + p.width) ps
    rw [List.cons_append, ofPieces, ofPieces, ih, Piece.widthOf_cons, ← Nat.add_assoc]
    cases p.kind? with
    | none => rfl
    | some k => rw [List.dropLast_cons_of_ne_nil hne, List.cons_append]

namespace Diagnostic

theorem ofPieces_append (file : String) (offset : Nat) (ps qs : List Piece) :
    ofPieces file offset (ps ++ qs) =
      ofPieces file offset ps ++ ofPieces file (offset + Piece.widthOf ps) qs := by
  induction ps generalizing offset with
  | nil => rfl
  | cons p ps ih =>
    rw [List.cons_append, ofPieces, ofPieces, ih, Piece.widthOf_cons, Nat.add_assoc]
    split <;> rfl

theorem ofPieces_add (file : String) (offset k : Nat) (ps : List Piece) :
    ofPieces file (offset + k) ps = (ofPieces file offset ps).map (shift k) := by
  induction ps generalizing offset with
  | nil => rfl
  | cons p ps ih =>
    rw [ofPieces, ofPieces, Nat.add_right_comm, ih]
    split
    · simp [stray, shift, Span.shift, Int.add_right_comm]
    · rfl

end Diagnostic

theorem cut_joined (first second : String) : Piece.cut (first ++ "\n" ++ second).toList =
    Piece.cut first.toList ++ ⟨.blank, ['\n']⟩ :: Piece.cut second.toList := by
  rw [← Piece.cut_feed]
  simp

theorem reports_joined (file first second : String) :
    Diagnostic.ofPieces file 0 (Piece.cut (first ++ "\n" ++ second).toList) =
      Diagnostic.ofPieces file 0 (Piece.cut first.toList) ++
        (Diagnostic.ofPieces file 0 (Piece.cut second.toList)).map
          (Diagnostic.shift (first.utf8ByteSize + 1)) := by
  have hfeed : Diagnostic.ofPieces file (0 + first.utf8ByteSize)
      (⟨.blank, ['\n']⟩ :: Piece.cut second.toList) =
      Diagnostic.ofPieces file (0 + (first.utf8ByteSize + 1)) (Piece.cut second.toList) := rfl
  rw [cut_joined, Diagnostic.ofPieces_append, Piece.widthOf_cut, byteWidth_toList, hfeed,
    Diagnostic.ofPieces_add]
  rfl

theorem lex_joined {file first second : String} {ts us : List Token} (hfirst : lex file first = .ok ts)
    (hsecond : lex file second = .ok us) :
    lex file (first ++ "\n" ++ second) =
      .ok (ts.dropLast ++ us.map (Token.shift (first.utf8ByteSize + 1))) := by
  obtain ⟨hstrays, rfl⟩ := lex_eq_ok hfirst
  obtain ⟨hstrays', rfl⟩ := lex_eq_ok hsecond
  have hnone : Diagnostic.ofPieces file 0 (Piece.cut (first ++ "\n" ++ second).toList) = [] := by
    rw [reports_joined, hstrays, hstrays']
    rfl
  have hfeed : Token.ofPieces file (0 + first.utf8ByteSize) (⟨.blank, ['\n']⟩ :: Piece.cut second.toList) =
      Token.ofPieces file (0 + (first.utf8ByteSize + 1)) (Piece.cut second.toList) := rfl
  rw [lex_eq, if_pos hnone, cut_joined, Token.ofPieces_append, Piece.widthOf_cut, byteWidth_toList, hfeed,
    Token.ofPieces_add]
  rfl

namespace Parser

variable {α : Type} {ρ : Placing} {p : Parser α} {place : α → α} {file : String}

/-- Items up to the end of the input. -/
abbrev all (p : Parser α) : Parser (List α) := many (fun c => !c.isAt .eof) p

/-- What was read up to the end of the input is read again where something else follows that continues
nothing, and reading goes on there. -/
theorem Follows.all_again (h : Follows ρ False p p place) {c c' : Cursor} {as : List α} (hc : c.Ended)
    (hrun : all p file c = .done as c') :
    c'.current.kind = .eof ∧ ∃ ts, c.remaining = ts ++ c'.remaining ∧
      ∀ (d : Cursor) stop tail, d.Ended → stop.kind.isStop = true →
        d.remaining = ts.map ρ.token ++ stop :: tail →
        ∃ d', d'.remaining = stop :: tail ∧ d'.Ended ∧ all p (ρ.file file) d =
          (all p >>= fun bs => pure (as.map place ++ bs)) (ρ.file file) d' := by
  have hitem {file : String} : ∀ c : Cursor, c.Ended → (!c.isAt .eof) = true → p.Shortens file c :=
    fun c hc _ => h.shortens hc
  induction hn : c.remaining.length using Nat.strong_induction_on generalizing c as with
  | _ n ih =>
    rw [all, many_eq hitem hc] at hrun
    by_cases hstart : (!c.isAt .eof) = true
    · rw [if_pos hstart] at hrun
      obtain ⟨a, e, ha, hrest⟩ := bind_eq_done.1 hrun
      obtain ⟨bs, e', hbs, hpure⟩ := bind_eq_done.1 hrest
      obtain ⟨rfl, rfl⟩ := pure_eq_done.1 hpure
      obtain ⟨he, hlt⟩ := h.shortens hc a e ha
      obtain ⟨hstop, us, hus, hagain⟩ := ih _ (hn ▸ hlt) he hbs rfl
      obtain ⟨-, vs, hlen, hvs, hrepeat⟩ := h file c hc a e ha
      refine ⟨hstop, vs ++ us, by rw [hvs.remaining, hus, List.append_assoc], ?_⟩
      intro d stop tail hd hk hrem
      have hrem : d.remaining = vs.map ρ.token ++ (us.map ρ.token ++ stop :: tail) := by simp [hrem]
      have hcut : Cut ρ e.remaining (us.map ρ.token ++ stop :: tail) := by
        rw [hus]
        exact .append us (.here hk)
      have hcurrent := SteadyUpTo.current_eq hvs.remaining hrem hlen
      have hstart' : (!d.isAt .eof) = true := by rwa [Cursor.isAt, hcurrent]
      obtain ⟨b, d₁, hb, hd₁, rfl⟩ | ⟨hdeep, -⟩ :=
        hrepeat vs.length (Nat.le_refl _) _ hcut d hrem (by omega)
      · have hrem₁ := (List.append_cancel_left (hrem.symm.trans hd₁.remaining)).symm
        obtain ⟨d', hd', hended, hloop⟩ := hagain d₁ stop tail (hd₁.ended hd) hk hrem₁
        refine ⟨d', hd', hended, ?_⟩
        rw [all, many_eq hitem hd, if_pos hstart', bind_done hb, bind_apply, ← all, hloop]
        simp only [bind_apply]
        cases all p (ρ.file file) d' <;> rfl
      · exact hdeep.elim
    · rw [if_neg hstart] at hrun
      cases hrun
      refine ⟨by simpa [Cursor.isAt] using hstart, [], rfl, fun d stop tail hd _ hrem => ?_⟩
      refine ⟨d, hrem, hd, ?_⟩
      simp only [bind_apply]
      cases all p (ρ.file file) d <;> rfl

theorem all_of_eof {c : Cursor} (h : c.current.kind = .eof) : all p file c = .done [] c := by
  have hstart : (!c.isAt .eof) = false := by simp [Cursor.isAt, h]
  exact many_of_stop hstart

/-- Behind what was read up to the end of the input one may go on reading. -/
theorem Follows.all_joins (h : Follows (.shift 0) False p p place) {c c' : Cursor} {as : List α}
    (hc : c.Ended) (hrun : all p file c = .done as c') :
    c'.current.kind = .eof ∧ ∃ ts, c.remaining = ts ++ c'.remaining ∧
      ∀ (d : Cursor) stop tail, d.Ended → stop.kind.isStop = true → d.remaining = ts ++ stop :: tail →
        ∃ d', d'.remaining = stop :: tail ∧ d'.Ended ∧
          all p file d = (all p >>= fun bs => pure (as ++ bs)) file d' := by
  obtain ⟨hk, ts, hts, hagain⟩ := h.all_again hc hrun
  rw [Placing.map_token_shift_zero] at hagain
  -- what was read is its own image, since it is read again where it was read first
  have himage : as = as.map place := by
    obtain ⟨d', hd', -, hloop⟩ := hagain c c'.current c'.rest hc (by rw [hk]; rfl) hts
    have hk' : d'.current.kind = .eof := by rw [(Cursor.current_of_remaining hd').1, hk]
    have hall : all p file c = .done (as.map place ++ []) d' :=
      hloop.trans (bind_done (all_of_eof hk'))
    rw [hrun, List.append_nil] at hall
    exact (Outcome.done.inj hall).1
  rw [← himage] at hagain
  exact ⟨hk, ts, hts, hagain⟩

/-- A program is all declarations up to the end marker, where it ends too. -/
theorem run_program (depth : Nat) (file : String) {ts : List Token} (hts : ts ≠ []) :
    ∃ c : Cursor, c.remaining = ts ∧ (program depth).run (some file) ts =
      match all (declaration depth) file c with
      | .done ds c' => .ok ⟨ds, ⟨file, 0, c'.current.span.stop⟩⟩
      | .failed e _ => .error e := by
  obtain ⟨file', c, hfile, hc, -, hrun⟩ := run_eq (program depth) (some file) hts
  obtain rfl := hfile file rfl
  refine ⟨c, hc, ?_⟩
  rw [hrun, program, bind_apply, all]
  cases many (fun c => !c.isAt .eof) (declaration depth) file c <;> rfl

end Parser

/-- Tokens with the same tokens further on. -/
def Pairing.shift (distance : Int) : Pairing where
  rel t u := u = t.shift distance
  lexeme := by
    rintro t u rfl
    rfl

/-- The same failure further on. -/
def Failure.shift (distance : Int) : Failure → Failure
  | .rejected r => .rejected (r.shift distance)
  | e => e

def SourceFailure.shift (distance : Int) : SourceFailure → SourceFailure
  | .strays reports => .strays (reports.map (Diagnostic.shift distance))
  | .unreadable e => .unreadable (e.shift distance)

theorem Failure.Alike.eq_shift {k : Int} {e f : Failure} (h : e.Alike (.shift k) f) : f = e.shift k := by
  cases h with
  | rejected cause category h =>
    rw [show _ = _ from h]
    rfl
  | literalTooLong => rfl
  | unknownOperator => rfl
  | noTokens => rfl

/-- The declarations of one program, then those of another one at their places further on. -/
def Program.followedBy (distance : Int) (p q : Program Span) : Program Span :=
  ⟨p.decls ++ q.decls.map (Decl.map (Span.shift distance)),
    ⟨p.span.file, p.span.start, q.span.stop + distance⟩⟩

namespace Parser

theorem remaining_of_eof {c c' : Cursor} {ts : List Token} (hc : TokenStream c.remaining)
    (hts : c.remaining = ts ++ c'.remaining) (hk : c'.current.kind = .eof) :
    c.remaining = ts ++ [c'.current] := by
  have hrest := hc.last ts c'.current c'.rest hts hk
  rw [hts, Cursor.remaining, hrest]

theorem all_shifted (depth : Nat) (k : Int) (file : String) {c d : Cursor} (hc : TokenStream c.remaining)
    (hd : d.remaining = c.remaining.map (Token.shift k)) (hended : d.Ended) :
    match all (declaration depth) file c with
    | .done ds c' => ∃ d', all (declaration depth) file d = .done (ds.map (Decl.map (Span.shift k))) d' ∧
        d'.current = c'.current.shift k
    | .failed e _ => ∃ d', all (declaration depth) file d = .failed (e.shift k) d' := by
  cases hrun : all (declaration depth) file c with
  | done ds c' =>
    obtain ⟨hk, ts, hts, hagain⟩ := (declaration_follows_self (.shift k) depth).all_again hc.ended hrun
    have hrem : d.remaining = ts.map (Placing.shift k).token ++ [c'.current.shift k] := by
      rw [hd, remaining_of_eof hc hts hk, List.map_append]
      rfl
    have hk' : (c'.current.shift k).kind = .eof := hk
    obtain ⟨d', hd', -, hloop⟩ := hagain d (c'.current.shift k) [] hended (by rw [hk']; rfl) hrem
    have hcurrent := (Cursor.current_of_remaining hd').1
    have hall := hloop.trans (bind_done (all_of_eof (hcurrent ▸ hk')))
    rw [List.append_nil] at hall
    exact ⟨d', hall, hcurrent⟩
  | failed e c' =>
    have hecho : Echo (.shift k) (all (declaration depth)) (all (declaration depth)) :=
      .many (.not (.isAt _)) (declaration_echo depth)
    have hahead : (Pairing.shift k).Ahead c d := by
      refine ⟨?_, hc.ended⟩
      rw [hd, List.forall₂_map_right_iff]
      exact List.forall₂_same.2 fun _ _ => rfl
    have halike := hecho file file c d hahead
    rw [hrun] at halike
    generalize all (declaration depth) file d = y at halike ⊢
    cases halike with
    | failed he _ => exact ⟨_, by rw [he.eq_shift]⟩

theorem run_joined {depth : Nat} {file : String} {ts us : List Token} (hts : TokenStream ts)
    (hus : TokenStream us) (hhead : ∀ u ∈ us.head?, u.kind.isStop = true) {p : Program Span}
    (hrun : (program depth).run (some file) ts = .ok p) (k : Int) :
    (program depth).run (some file) (ts.dropLast ++ us.map (Token.shift k)) =
      (((program depth).run (some file) us).map (p.followedBy k)).mapError (Failure.shift k) := by
  obtain ⟨c, rfl, hrunc⟩ := run_program depth file hts.ne_nil
  obtain ⟨b, rfl, hrunb⟩ := run_program depth file hus.ne_nil
  obtain ⟨d, hd, hrund⟩ := run_program depth file
    (show c.remaining.dropLast ++ b.remaining.map (Token.shift k) ≠ [] by simp [hus.ne_nil])
  have hended : d.Ended := by
    obtain ⟨vs, e, hvs, he⟩ := hus.ended
    exact ⟨c.remaining.dropLast ++ vs.map (Token.shift k), e.shift k, by simp [hd, hvs], he⟩
  cases hfirst : all (declaration depth) file c with
  | failed f c' => simp [hrunc, hfirst] at hrun
  | done as c' =>
    obtain rfl : ⟨as, ⟨file, 0, c'.current.span.stop⟩⟩ = p := by simpa [hrunc, hfirst] using hrun
    obtain ⟨hk, vs, hvs, hjoins⟩ := (declaration_follows_self (.shift 0) depth).all_joins hts.ended hfirst
    have hfront : c.remaining.dropLast = vs := by
      rw [remaining_of_eof hts hvs hk, List.dropLast_concat]
    obtain ⟨d', hd', hended', hloop⟩ := hjoins d (b.current.shift k) (b.rest.map (Token.shift k)) hended
      (hhead b.current rfl) (by rw [hd, hfront]; rfl)
    have hsecond := all_shifted depth k file hus hd' hended'
    rw [hrund, hrunb, hloop, bind_apply]
    cases hall : all (declaration depth) file b with
    | done bs b' =>
      rw [hall] at hsecond
      obtain ⟨d'', hrest, hcurrent⟩ := hsecond
      simp only [hrest, pure_apply, hcurrent]
      rfl
    | failed f b' =>
      rw [hall] at hsecond
      obtain ⟨d'', hrest⟩ := hsecond
      simp only [hrest]
      rfl

end Parser

/-- Programs may be put together and taken apart. Where a text is a program, and a second one has
tokens of which the first one begins a declaration, or none at all, the first text, a line feed and the
second text are read as the declarations of both, those of the second one at their places behind the
first, or are refused for the reason that the second text is refused for, at its place behind the
first. -/
theorem runSource_joined {depth : Nat} {file first second : String} {p : Program Span} {us : List Token}
    (hfirst : (Parser.program depth).runSource file first = .ok p) (hsecond : lex file second = .ok us)
    (hhead : ∀ u ∈ us.head?, u.kind = .eof ∨ u.kind = .kwFn ∨ u.kind = .kwType) :
    let k : Int := first.utf8ByteSize + 1
    (Parser.program depth).runSource file (first ++ "\n" ++ second) =
      (((Parser.program depth).runSource file second).map (p.followedBy k)).mapError (.shift k) := by
  intro k
  obtain ⟨ts, hlex, hrun⟩ := Parser.runSource_eq_ok.1 hfirst
  have hstop : ∀ u ∈ us.head?, u.kind.isStop = true := by
    intro u hu
    rcases hhead u hu with h | h | h <;> rw [h] <;> rfl
  have hjoined := Parser.run_joined (stream_of_lex hlex) (stream_of_lex hsecond) hstop hrun k
  rw [Parser.runSource_eq_run (lex_joined hlex hsecond), hjoined, Parser.runSource_eq_run hsecond]
  cases (Parser.program depth).run (some file) us <;> rfl

theorem runSource_joined_of_variant : ∃ p us,
    (Parser.program 3).runSource "a" "type T = | A b" = .ok p ∧ lex "a" "fn f A" = .ok us ∧
    (∀ u ∈ us.head?, u.kind = .eof ∨ u.kind = .kwFn ∨ u.kind = .kwType) ∧
    (Parser.program 3).runSource "a" ("type T = | A b" ++ "\n" ++ "fn f A") =
      (((Parser.program 3).runSource "a" "fn f A").map (p.followedBy 15)).mapError (.shift 15) := by
  have hsecond : lex "a" "fn f A" = .ok _ := rfl
  obtain ⟨p, hfirst⟩ : ∃ p, (Parser.program 3).runSource "a" "type T = | A b" = .ok p :=
    exists_of_isOk (by decide +kernel)
  have hhead : ∀ u ∈ (Token.ofPieces "a" 0 (Piece.cut "fn f A".toList)).head?,
      u.kind = .eof ∨ u.kind = .kwFn ∨ u.kind = .kwType := by
    decide
  exact ⟨p, _, hfirst, hsecond, hhead, runSource_joined hfirst hsecond hhead⟩

end TinyFront
