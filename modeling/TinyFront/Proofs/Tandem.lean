import TinyFront.Proofs.Steady

/-!
A logic of progress. A run goes on over tokens in front of the next end marker, whether it succeeds or
fails, and another parser does the same. One rule for each way in which parsers are built.
-/
namespace TinyFront

/-- The cursor has moved over the tokens, and none of them is an end marker. -/
structure Cursor.Passes (c : Cursor) (ts : List Token) (c' : Cursor) : Prop
    extends c.Consumes ts c' where
  fair : ∀ t ∈ ts, t.kind ≠ .eof

namespace Cursor.Passes

variable {a b c : Cursor} {ts us : List Token}

theorem refl (c : Cursor) : c.Passes [] c := ⟨.refl c, by simp⟩

theorem trans (h : a.Passes ts b) (h' : b.Passes us c) : a.Passes (ts ++ us) c :=
  ⟨h.toConsumes.trans h'.toConsumes, fun t ht => (List.mem_append.1 ht).elim (h.fair t) (h'.fair t)⟩

theorem advance (hc : c.Ended) (hk : c.current.kind ≠ .eof) : c.Passes [c.current] c.advance :=
  ⟨hc.consumes_advance hk, by simpa using hk⟩

end Cursor.Passes

/-- The failure of a parser that the input nests too deeply for. -/
def Failure.IsOverflow : Failure → Prop
  | .rejected r => r.cause = .nestingTooDeep
  | _ => False

namespace Parser

variable {α β : Type} {deep : Prop} {k m n : Nat} {file : String} {c : Cursor}

/-- A run passes tokens, at least `k` of them if it succeeds. It fails for too deep nesting only if
`deep`. -/
structure Advances (deep : Prop) (k : Nat) (p : Parser α) (file : String) (c : Cursor) : Prop where
  done : ∀ a c', p file c = .done a c' → ∃ ts, k ≤ ts.length ∧ c.Passes ts c'
  failed : ∀ e c', p file c = .failed e c' → (∃ ts, c.Passes ts c') ∧ (e.IsOverflow → deep)

/-- Two parsers do the same at a cursor, and go on from there. -/
structure Tandem (deep : Prop) (k : Nat) (p q : Parser α) (file : String) (c : Cursor) : Prop where
  agree : q file c = p file c
  advances : p.Advances deep k file c

theorem Advances.shortens {p : Parser α} (h : p.Advances deep 1 file c) (hc : c.Ended) :
    p.Shortens file c := by
  intro a c' hrun
  obtain ⟨ts, hlen, hts⟩ := h.done a c' hrun
  have hlen' := hts.length
  exact ⟨hts.ended hc, by omega⟩

namespace Tandem

variable {p q : Parser α}

theorem mono (h : Tandem deep k p q file c) (hm : m ≤ k) : Tandem deep m p q file c where
  agree := h.agree
  advances := ⟨fun a c' hrun => by
    obtain ⟨ts, hlen, hts⟩ := h.advances.done a c' hrun
    exact ⟨ts, Nat.le_trans hm hlen, hts⟩, h.advances.failed⟩

theorem loosen (h : Tandem deep 1 p q file c) : Tandem deep 0 p q file c := h.mono (Nat.zero_le 1)

/-! Parsers in a row. -/

theorem still {a : α} (hrun : p file c = .done a c) : Tandem deep 0 p p file c where
  agree := rfl
  advances := by
    refine ⟨fun b c' h => ?_, fun e c' h => ?_⟩
    · rw [hrun] at h
      cases h
      exact ⟨[], Nat.le_refl 0, .refl c⟩
    · rw [hrun] at h
      cases h

theorem pure {a : α} : Tandem deep 0 (Pure.pure a : Parser α) (Pure.pure a) file c := .still rfl

/-- What is read behind a run of `p` need only make up for what `p` has not passed. -/
theorem bind {f g : α → Parser β} (hc : c.Ended) (hp : Tandem deep k p q file c)
    (hf : ∀ a d, p file c = .done a d → d.Ended → d.remaining.length + k ≤ c.remaining.length →
      Tandem deep (m - k) (f a) (g a) file d) : Tandem deep m (p >>= f) (q >>= g) file c := by
  cases hrun : p file c with
  | failed e d =>
    refine ⟨by rw [bind_failed (hp.agree.trans hrun), bind_failed hrun], ?_, ?_⟩
    · intro b c' h
      rw [bind_failed hrun] at h
      cases h
    · intro e' c' h
      rw [bind_failed hrun] at h
      cases h
      exact hp.advances.failed e d hrun
  | done a d =>
    obtain ⟨ts, hlen, hts⟩ := hp.advances.done a d hrun
    have hlen' := hts.length
    have hrest := hf a d hrun (hts.ended hc) (by omega)
    refine ⟨by rw [bind_done (hp.agree.trans hrun), bind_done hrun, hrest.agree], ?_, ?_⟩
    · intro b c' h
      rw [bind_done hrun] at h
      obtain ⟨us, hle, hus⟩ := hrest.advances.done b c' h
      exact ⟨ts ++ us, by rw [List.length_append]; omega, hts.trans hus⟩
    · intro e c' h
      rw [bind_done hrun] at h
      obtain ⟨⟨us, hus⟩, hdeep⟩ := hrest.advances.failed e c' h
      exact ⟨⟨ts ++ us, hts.trans hus⟩, hdeep⟩

theorem advance (hc : c.Ended) (hk : c.current.kind ≠ .eof) :
    Tandem deep 1 Parser.advance Parser.advance file c where
  agree := rfl
  advances := by
    refine ⟨fun t c' hrun => ?_, fun e c' hrun => by cases hrun⟩
    obtain ⟨-, rfl⟩ := advance_eq_done.1 hrun
    exact ⟨[c.current], Nat.le_refl 1, .advance hc hk⟩

theorem current {f g : Token → Parser β} (h : Tandem deep k (f c.current) (g c.current) file c) :
    Tandem deep k (Parser.current >>= f) (Parser.current >>= g) file c :=
  ⟨h.agree, h.advances.done, h.advances.failed⟩

theorem start {f g : Int → Parser β}
    (h : Tandem deep k (f c.current.span.start) (g c.current.span.start) file c) :
    Tandem deep k (Parser.start >>= f) (Parser.start >>= g) file c :=
  ⟨h.agree, h.advances.done, h.advances.failed⟩

theorem spanFrom {s : Int} {f g : Span → Parser β}
    (h : Tandem deep k (f ⟨file, s, c.lastEnd⟩) (g ⟨file, s, c.lastEnd⟩) file c) :
    Tandem deep k (Parser.spanFrom s >>= f) (Parser.spanFrom s >>= g) file c :=
  ⟨h.agree, h.advances.done, h.advances.failed⟩

theorem close {f g : (Int → Span) → Parser β}
    (h : Tandem deep k (f fun s => ⟨file, s, c.lastEnd⟩) (g fun s => ⟨file, s, c.lastEnd⟩) file c) :
    Tandem deep k (Parser.close >>= f) (Parser.close >>= g) file c :=
  ⟨h.agree, h.advances.done, h.advances.failed⟩

theorem ite {b : Prop} [Decidable b] {p' q' : Parser α} (h : b → Tandem deep k p q file c)
    (h' : ¬ b → Tandem deep k p' q' file c) :
    Tandem deep k (if b then p else p') (if b then q else q') file c := by
  split
  · exact h ‹_›
  · exact h' ‹_›

theorem test {t : Cursor → Bool} {p' q' : Parser α} (h : t c = true → Tandem deep k p q file c)
    (h' : t c = false → Tandem deep k p' q' file c) :
    Tandem deep k (do if ← Parser.test t then p else p') (do if ← Parser.test t then q else q')
      file c := by
  have hboth : Tandem deep k (if t c then p else p') (if t c then q else q') file c :=
    ite h fun hc => h' (by simpa using hc)
  exact ⟨hboth.agree, hboth.advances.done, hboth.advances.failed⟩

theorem refused {e : Failure} (hrun : p file c = .failed e c) (he : e.IsOverflow → deep) :
    Tandem deep k p p file c where
  agree := rfl
  advances := by
    refine ⟨fun a c' h => ?_, fun e' c' h => ?_⟩
    · rw [hrun] at h
      cases h
    · rw [hrun] at h
      cases h
      exact ⟨⟨[], .refl c⟩, he⟩

theorem fail {e : Failure} (he : ¬ e.IsOverflow) :
    Tandem deep k (Parser.fail e : Parser α) (Parser.fail e) file c :=
  .refused rfl fun h => absurd h he

theorem reject {category : Category} {cause : Cause} (h : cause = .nestingTooDeep → deep) :
    Tandem deep k (Parser.reject category cause : Parser α) (Parser.reject category cause) file c :=
  .refused rfl h

theorem unexpected {category : Category} {expected : Expected} :
    Tandem deep k (Parser.unexpected category expected : Parser α)
      (Parser.unexpected category expected) file c :=
  .refused rfl fun h => by cases h

theorem expect {category : Category} {kind : TokenKind} (hc : c.Ended) (hk : kind ≠ .eof) :
    Tandem deep 1 (Parser.expect category kind) (Parser.expect category kind) file c :=
  .test (fun h => .advance hc (by rw [Cursor.kind_of_isAt h]; exact hk)) fun _ => .unexpected

theorem expectClosing {category : Category} {opener closer : TokenKind} (hc : c.Ended)
    (hk : closer ≠ .eof) :
    Tandem deep 1 (Parser.expectClosing category opener closer)
      (Parser.expectClosing category opener closer) file c :=
  .test (fun h => .advance hc (by rw [Cursor.kind_of_isAt h]; exact hk)) fun _ =>
    .test (fun _ => .reject fun h => by cases h) fun _ => .unexpected

theorem located {p q : Parser (Span → α)} (hc : c.Ended) (h : Tandem deep k p q file c) :
    Tandem deep k (Parser.located p) (Parser.located q) file c :=
  .start (.bind hc h fun _ _ _ _ _ => by
    rw [Nat.sub_self]
    exact .spanFrom .pure)

theorem closing (hc : c.Ended) (h : Tandem deep k p q file c) :
    Tandem deep k (Parser.closing p) (Parser.closing q) file c :=
  .bind hc h fun _ _ _ _ _ => by
    rw [Nat.sub_self]
    exact .close .pure

/-! Loops. -/

/-- The items are read at cursors that a loop from `c` comes to. -/
theorem many {starts : Cursor → Bool} (hc : c.Ended)
    (h : ∀ d, d.Ended → d.remaining.length ≤ c.remaining.length → starts d = true →
      Tandem deep 1 p q file d) :
    Tandem deep 0 (Parser.many starts p) (Parser.many starts q) file c := by
  have hall : ∀ bound c, c.Ended → (∀ d, d.Ended → d.remaining.length ≤ c.remaining.length →
      starts d = true → Tandem deep 1 p q file d) →
      Tandem deep 0 (manyUpTo starts p bound) (manyUpTo starts q bound) file c := by
    intro bound
    induction bound with
    | zero => exact fun _ _ _ => .pure
    | succ bound ih =>
      intro c hc h
      refine .test (fun hs => ?_) fun _ => .pure
      refine .bind hc (h c hc (Nat.le_refl _) hs) fun a d _ hd hlt => ?_
      exact .bind hd (ih d hd fun d' hd' hle => h d' hd' (by omega)) fun _ _ _ _ _ => .pure
  have hbounded := hall c.remaining.length c hc h
  exact ⟨hbounded.agree, hbounded.advances.done, hbounded.advances.failed⟩

theorem commas {closer : TokenKind} (hc : c.Ended)
    (h : ∀ d, d.Ended → d.remaining.length ≤ c.remaining.length → listEnds closer d = false →
      Tandem deep 1 p q file d) :
    Tandem deep 0 (Parser.commas closer p) (Parser.commas closer q) file c := by
  have hall : ∀ bound c, c.Ended → (∀ d, d.Ended → d.remaining.length ≤ c.remaining.length →
      listEnds closer d = false → Tandem deep 1 p q file d) →
      Tandem deep 0 (commasUpTo closer p bound) (commasUpTo closer q bound) file c := by
    intro bound
    induction bound with
    | zero => exact fun _ _ _ => .pure
    | succ bound ih =>
      intro c hc h
      refine .test (fun _ => .pure) fun hs => ?_
      refine .bind hc (h c hc (Nat.le_refl _) hs) fun a d _ hd hlt => ?_
      refine .test (fun hcomma => ?_) fun _ => .pure
      refine .bind hd (.advance hd (by simp [Cursor.kind_of_isAt hcomma])) fun _ d' _ hd' hlt' => ?_
      exact .bind hd' (ih d' hd' fun d hd hle => h d hd (by omega)) fun _ _ _ _ _ => .pure
  have hbounded := hall c.remaining.length c hc h
  exact ⟨hbounded.agree, hbounded.advances.done, hbounded.advances.failed⟩

end Tandem

end Parser
end TinyFront
