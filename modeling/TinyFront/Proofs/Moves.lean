import TinyFront.Parser.Reader

/-!
Moves of a cursor over a token list that ends with an end marker, and the loops of the parsers on
such lists. Main statements: moves compose and never pass the end marker, and a loop whose steps
consume something obeys its equation without a bound.
-/
namespace TinyFront
namespace Cursor

theorem remaining_ne_nil (c : Cursor) : c.remaining ≠ [] := by simp [remaining]

/-- The last token ahead is an end marker. -/
def Ended (c : Cursor) : Prop := ∃ ts e, c.remaining = ts ++ [e] ∧ e.kind = .eof

/-- Where the last of some consumed tokens ended. -/
def endOf (start : Int) (ts : List Token) : Int := ts.foldl (fun _ t => t.span.stop) start

@[simp] theorem endOf_nil (s : Int) : endOf s [] = s := rfl

@[simp] theorem endOf_singleton (s : Int) (t : Token) : endOf s [t] = t.span.stop := rfl

@[simp] theorem endOf_append (s : Int) (ts us : List Token) :
    endOf s (ts ++ us) = endOf (endOf s ts) us := by simp [endOf]

/-- Behind at least one token it does not matter where the move began. -/
theorem endOf_of_ne_nil {ts : List Token} (h : ts ≠ []) (s s' : Int) : endOf s ts = endOf s' ts := by
  cases ts with
  | nil => contradiction
  | cons t ts => rfl

/-- The cursor has moved over the tokens, and over nothing else. -/
structure Consumes (c : Cursor) (ts : List Token) (c' : Cursor) : Prop where
  remaining : c.remaining = ts ++ c'.remaining
  lastEnd : c'.lastEnd = endOf c.lastEnd ts

theorem eq_of_remaining {c c' : Cursor} (h : c.remaining = c'.remaining)
    (he : c.lastEnd = c'.lastEnd) : c = c' := by
  cases c; cases c'
  simp_all [Cursor.remaining]

theorem Consumes.refl (c : Cursor) : c.Consumes [] c := ⟨rfl, rfl⟩

theorem Consumes.trans {a b c : Cursor} {ts us : List Token} (h : a.Consumes ts b)
    (h' : b.Consumes us c) : a.Consumes (ts ++ us) c := by
  refine ⟨?_, ?_⟩
  · rw [h.remaining, h'.remaining, List.append_assoc]
  · rw [h'.lastEnd, h.lastEnd, endOf_append]

theorem Consumes.length {c c' : Cursor} {ts : List Token} (h : c.Consumes ts c') :
    c.remaining.length = ts.length + c'.remaining.length := by
  rw [h.remaining, List.length_append]

theorem Consumes.ended {c c' : Cursor} {ts : List Token} (h : c.Consumes ts c') (hc : c.Ended) :
    c'.Ended := by
  obtain ⟨us, e, hus, he⟩ := hc
  have hlast : c'.remaining.getLast? = some e := by
    have hall : (ts ++ c'.remaining).getLast? = some e := by simp [← h.remaining, hus]
    rwa [List.getLast?_append, Option.or_of_isSome (by simp [c'.remaining_ne_nil])] at hall
  obtain ⟨vs, hvs⟩ := List.getLast?_eq_some_iff.1 hlast
  exact ⟨vs, e, hvs, he⟩

theorem current_of_remaining {c : Cursor} {t : Token} {ts : List Token}
    (h : c.remaining = t :: ts) : c.current = t ∧ c.rest = ts := by
  simpa [Cursor.remaining] using h

theorem advance_of_remaining {c : Cursor} {t : Token} {ts : List Token}
    (h : c.remaining = t :: ts) (hts : ts ≠ []) :
    c.advance.remaining = ts ∧ c.advance.lastEnd = t.span.stop := by
  obtain ⟨rfl, rfl⟩ := current_of_remaining h
  refine ⟨?_, advance_lastEnd c⟩
  unfold advance
  split
  · contradiction
  · simp_all [Cursor.remaining]

theorem Ended.rest_ne_nil {c : Cursor} (hc : c.Ended) (hk : c.current.kind ≠ .eof) :
    c.rest ≠ [] := by
  obtain ⟨ts, e, h, he⟩ := hc
  intro hrest
  cases ts with
  | nil => exact hk (by rw [(current_of_remaining h).1, he])
  | cons t ts => simp [Cursor.remaining, hrest] at h

theorem Ended.consumes_advance {c : Cursor} (hc : c.Ended) (hk : c.current.kind ≠ .eof) :
    c.Consumes [c.current] c.advance := by
  have h := advance_of_remaining (c := c) rfl (hc.rest_ne_nil hk)
  refine ⟨?_, by simp⟩
  rw [h.1]
  rfl

theorem Ended.advance {c : Cursor} (hc : c.Ended) (hk : c.current.kind ≠ .eof) :
    c.advance.Ended := (hc.consumes_advance hk).ended hc

theorem kind_of_isAt {c : Cursor} {k : TokenKind} (h : c.isAt k = true) : c.current.kind = k := by
  simpa [isAt] using h

theorem Ended.advance_of_isAt {c : Cursor} {k : TokenKind} (hc : c.Ended) (h : c.isAt k = true)
    (hk : k ≠ .eof) : c.advance.Ended ∧ c.advance.remaining.length < c.remaining.length := by
  have hkind : c.current.kind ≠ .eof := by rw [kind_of_isAt h]; exact hk
  have hlen := (hc.consumes_advance hkind).length
  simp only [List.length_singleton] at hlen
  exact ⟨hc.advance hkind, by omega⟩

theorem isAt_iff {c : Cursor} {k : TokenKind} : c.isAt k = true ↔ c.current.kind = k := by
  simp [isAt]

end Cursor

namespace Parser

variable {α β : Type} {file : String} {c c' : Cursor}

/-! What the primitive parsers answer. -/

@[simp] theorem test_bind (p : Cursor → Bool) (k : Bool → Parser β) (file : String) (c : Cursor) :
    (test p >>= k) file c = k (p c) file c := rfl

@[simp] theorem current_bind (k : Token → Parser β) (file : String) (c : Cursor) :
    (current >>= k) file c = k c.current file c := rfl

@[simp] theorem start_bind (k : Int → Parser β) (file : String) (c : Cursor) :
    (start >>= k) file c = k c.current.span.start file c := rfl

@[simp] theorem advance_bind (k : Token → Parser β) (file : String) (c : Cursor) :
    (advance >>= k) file c = k c.current file c.advance := rfl

@[simp] theorem spanFrom_bind (s : Int) (k : Span → Parser β) (file : String) (c : Cursor) :
    (spanFrom s >>= k) file c = k ⟨file, s, c.lastEnd⟩ file c := rfl

@[simp] theorem ite_apply (b : Prop) [Decidable b] (p q : Parser α) (file : String) (c : Cursor) :
    (if b then p else q) file c = if b then p file c else q file c := by
  split <;> rfl

@[simp] theorem pure_eq_done {a b : α} : (pure a : Parser α) file c = .done b c' ↔ a = b ∧ c = c' := by
  simp

theorem bind_eq_done {p : Parser α} {k : α → Parser β} {b : β} :
    (p >>= k) file c = .done b c' ↔ ∃ a d, p file c = .done a d ∧ k a file d = .done b c' := by
  rw [bind_apply]
  cases p file c with
  | done a d =>
    constructor
    · intro h
      exact ⟨a, d, rfl, h⟩
    · rintro ⟨a, d, ⟨⟩, h⟩
      exact h
  | failed e d => simp

@[simp] theorem unexpected_ne_done {cat : Category} {e : Expected} {a : α} :
    (unexpected cat e : Parser α) file c = .done a c' ↔ False := by simp [unexpected]

@[simp] theorem reject_ne_done {cat : Category} {e : Cause} {a : α} :
    (reject cat e : Parser α) file c = .done a c' ↔ False := by simp [reject]

@[simp] theorem fail_ne_done {e : Failure} {a : α} :
    (fail e : Parser α) file c = .done a c' ↔ False := by simp [fail]

theorem advance_eq_done {t : Token} :
    advance file c = .done t c' ↔ t = c.current ∧ c' = c.advance := by
  simp [advance, eq_comm]

theorem expect_eq_done {cat : Category} {k : TokenKind} {t : Token} :
    expect cat k file c = .done t c' ↔ c.current.kind = k ∧ t = c.current ∧ c' = c.advance := by
  unfold expect
  rw [test_bind, ite_apply]
  by_cases h : c.current.kind = k
  · simp [Cursor.isAt, h, advance_eq_done]
  · simp [Cursor.isAt, h]

theorem expectClosing_eq_done {cat : Category} {o k : TokenKind} {t : Token} :
    expectClosing cat o k file c = .done t c' ↔
      c.current.kind = k ∧ t = c.current ∧ c' = c.advance := by
  unfold expectClosing
  rw [test_bind, ite_apply]
  by_cases h : c.current.kind = k
  · simp [Cursor.isAt, h, advance_eq_done]
  · by_cases he : c.current.kind = .eof
    · rw [he] at h
      simp [Cursor.isAt, h, he]
    · simp [Cursor.isAt, h, he]

theorem located_eq_done {p : Parser (Span → α)} {a : α} :
    located p file c = .done a c' ↔
      ∃ build, p file c = .done build c' ∧ a = build ⟨file, c.current.span.start, c'.lastEnd⟩ := by
  simp only [located, start_bind, bind_eq_done, spanFrom_bind, pure_eq_done]
  constructor
  · rintro ⟨build, d, h, rfl, rfl⟩
    exact ⟨build, h, rfl⟩
  · rintro ⟨build, h, rfl⟩
    exact ⟨build, c', h, rfl, rfl⟩

theorem closing_eq_done {p : Parser α} {x : α × (Int → Span)} :
    closing p file c = .done x c' ↔
      p file c = .done x.1 c' ∧ x.2 = fun s => ⟨file, s, c'.lastEnd⟩ := by
  simp only [closing, bind_eq_done, pure_eq_done]
  constructor
  · rintro ⟨a, d, h, b, d', hb, rfl, rfl⟩
    simp only [close, Outcome.done.injEq] at hb
    obtain ⟨rfl, rfl⟩ := hb
    exact ⟨h, rfl⟩
  · rintro ⟨h, hx⟩
    exact ⟨x.1, c', h, x.2, c', by simp [close, hx], rfl, rfl⟩

theorem number_eq_done {cat : Category} {t : Token} {n : Nat} :
    number cat t file c = .done n c' ↔
      (isDecimal t.text.toList = true ∧ t.text.toList.length ≤ digitLimit ∧
        decimalValue t.text.toList ≤ maxNumber) ∧ n = decimalValue t.text.toList ∧ c' = c := by
  simp only [number, ite_apply]
  by_cases hd : isDecimal t.text.toList = true
  · by_cases hl : digitLimit < t.text.toList.length
    · simp [hd, hl, Nat.not_le_of_lt hl]
    · by_cases hv : decimalValue t.text.toList ≤ maxNumber
      · simp [hd, hl, hv, Nat.le_of_not_lt hl, eq_comm]
      · simp [hd, hl, hv]
  · simp [hd]

/-! Loops are bounded by the number of tokens left. That bound is never met where each step
consumes a token and the last token stops the loop. -/

/-- Where it succeeds, the parser consumes something in front of the end marker. -/
def Shortens (p : Parser α) (file : String) (c : Cursor) : Prop :=
  ∀ a c', p file c = .done a c' → c'.Ended ∧ c'.remaining.length < c.remaining.length

section

variable {starts : Cursor → Bool} {item : Parser α}

theorem manyUpTo_eq_of_le (hitem : ∀ c, c.Ended → starts c = true → item.Shortens file c)
    (m n : Nat) {c : Cursor} (hc : c.Ended) (hm : c.remaining.length ≤ m)
    (hn : c.remaining.length ≤ n) :
    manyUpTo starts item m file c = manyUpTo starts item n file c := by
  induction m generalizing n c with
  | zero => exact absurd (List.length_eq_zero_iff.1 (Nat.le_zero.1 hm)) c.remaining_ne_nil
  | succ m ih =>
    cases n with
    | zero => exact absurd (List.length_eq_zero_iff.1 (Nat.le_zero.1 hn)) c.remaining_ne_nil
    | succ n =>
      simp only [manyUpTo, test_bind, ite_apply]
      split
      · rename_i hs
        cases hrun : item file c with
        | failed e d => rw [bind_failed hrun, bind_failed hrun]
        | done a d =>
          obtain ⟨hd, hlt⟩ := hitem c hc hs a d hrun
          rw [bind_done hrun, bind_done hrun, bind_apply, bind_apply,
            ih n hd (by omega) (by omega)]
      · rfl

theorem many_eq (hitem : ∀ c, c.Ended → starts c = true → item.Shortens file c) (hc : c.Ended) :
    many starts item file c =
      if starts c then (do let a ← item; return a :: (← many starts item) : Parser _) file c
      else .done [] c := by
  have hlen : c.remaining.length = c.rest.length + 1 := rfl
  simp only [many, hlen, manyUpTo, test_bind, ite_apply, pure_apply]
  split
  · rename_i hs
    cases hrun : item file c with
    | failed e d => rw [bind_failed hrun, bind_failed hrun]
    | done a d =>
      obtain ⟨hd, hlt⟩ := hitem c hc hs a d hrun
      rw [bind_done hrun, bind_done hrun, bind_apply, bind_apply,
        manyUpTo_eq_of_le hitem c.rest.length d.remaining.length hd (by omega) (by omega)]
      rfl
  · rfl

end

section

variable {closer : TokenKind} {item : Parser α}

def listEnds (closer : TokenKind) (c : Cursor) : Bool := c.isAt closer || c.isAt .eof

theorem commasUpTo_eq_of_le
    (hitem : ∀ c, c.Ended → listEnds closer c = false → item.Shortens file c)
    (m n : Nat) {c : Cursor} (hc : c.Ended) (hm : c.remaining.length ≤ m)
    (hn : c.remaining.length ≤ n) :
    commasUpTo closer item m file c = commasUpTo closer item n file c := by
  induction m generalizing n c with
  | zero => exact absurd (List.length_eq_zero_iff.1 (Nat.le_zero.1 hm)) c.remaining_ne_nil
  | succ m ih =>
    cases n with
    | zero => exact absurd (List.length_eq_zero_iff.1 (Nat.le_zero.1 hn)) c.remaining_ne_nil
    | succ n =>
      simp only [commasUpTo, test_bind, ite_apply]
      split
      · rfl
      · rename_i hs
        cases hrun : item file c with
        | failed e d => rw [bind_failed hrun, bind_failed hrun]
        | done a d =>
          obtain ⟨hd, hlt⟩ := hitem c hc (by simpa [listEnds] using hs) a d hrun
          rw [bind_done hrun, bind_done hrun]
          simp only [test_bind, ite_apply, advance_bind]
          split
          · rename_i hcomma
            obtain ⟨hadv, hlt'⟩ := hd.advance_of_isAt hcomma (by decide)
            rw [bind_apply, bind_apply, ih n hadv (by omega) (by omega)]
          · rfl

theorem commas_eq (hitem : ∀ c, c.Ended → listEnds closer c = false → item.Shortens file c)
    (hc : c.Ended) :
    commas closer item file c =
      if listEnds closer c then .done ([], false) c
      else (do
        let a ← item
        if ← test (·.isAt .comma) then
          let _ ← advance
          let (as, trailing) ← commas closer item
          return (a :: as, trailing || as.isEmpty)
        else return ([a], false) : Parser _) file c := by
  have hlen : c.remaining.length = c.rest.length + 1 := rfl
  simp only [commas, hlen, commasUpTo, test_bind, ite_apply, pure_apply, listEnds]
  split
  · rfl
  · rename_i hs
    cases hrun : item file c with
    | failed e d => rw [bind_failed hrun, bind_failed hrun]
    | done a d =>
      obtain ⟨hd, hlt⟩ := hitem c hc (by simpa [listEnds] using hs) a d hrun
      rw [bind_done hrun, bind_done hrun]
      simp only [test_bind, ite_apply, advance_bind]
      split
      · rename_i hcomma
        obtain ⟨hadv, hlt'⟩ := hd.advance_of_isAt hcomma (by decide)
        rw [bind_apply, bind_apply, commasUpTo_eq_of_le hitem c.rest.length
          d.advance.remaining.length hadv (by omega) (by omega)]
        rfl
      · rfl

end

section

variable {inner : Parser (Expr Span)} {pattern : Parser (Pattern Span)}

theorem statementsUpTo_eq_of_le
    (hitem : ∀ c, c.Ended → (statement inner pattern).Shortens file c)
    (m n : Nat) {c : Cursor} (hc : c.Ended) (hm : c.remaining.length ≤ m)
    (hn : c.remaining.length ≤ n) :
    statementsUpTo inner pattern m file c = statementsUpTo inner pattern n file c := by
  induction m generalizing n c with
  | zero => exact absurd (List.length_eq_zero_iff.1 (Nat.le_zero.1 hm)) c.remaining_ne_nil
  | succ m ih =>
    cases n with
    | zero => exact absurd (List.length_eq_zero_iff.1 (Nat.le_zero.1 hn)) c.remaining_ne_nil
    | succ n =>
      simp only [statementsUpTo]
      cases hrun : statement inner pattern file c with
      | failed e d => rw [bind_failed hrun, bind_failed hrun]
      | done a d =>
        obtain ⟨hd, hlt⟩ := hitem c hc a d hrun
        rw [bind_done hrun, bind_done hrun]
        simp only [test_bind, ite_apply, advance_bind]
        split
        · rename_i hsemi
          obtain ⟨hadv, hlt'⟩ := hd.advance_of_isAt hsemi (by decide)
          rw [bind_apply, bind_apply, ih n hadv (by omega) (by omega)]
        · rfl

theorem statements_eq (hitem : ∀ c, c.Ended → (statement inner pattern).Shortens file c)
    (hc : c.Ended) :
    statements inner pattern file c =
      (do
        let s ← statement inner pattern
        if ← test (·.isAt .semicolon) then
          let _ ← advance
          if ← test fun c => c.isAt .rbrace || c.isAt .eof then return [s]
          else return s :: (← statements inner pattern)
        else return [s] : Parser _) file c := by
  have hlen : c.remaining.length = c.rest.length + 1 := rfl
  simp only [statements, hlen, statementsUpTo]
  cases hrun : statement inner pattern file c with
  | failed e d => rw [bind_failed hrun, bind_failed hrun]
  | done a d =>
    obtain ⟨hd, hlt⟩ := hitem c hc a d hrun
    rw [bind_done hrun, bind_done hrun]
    simp only [test_bind, ite_apply, advance_bind]
    split
    · rename_i hsemi
      obtain ⟨hadv, hlt'⟩ := hd.advance_of_isAt hsemi (by decide)
      rw [bind_apply, bind_apply, statementsUpTo_eq_of_le hitem c.rest.length
        d.advance.remaining.length hadv (by omega) (by omega)]
      rfl
    · rfl

end

section

variable {inner : Parser (Ty Span)}

theorem arrowChain_eq_of_le (hitem : ∀ c, c.Ended → (typeApplication inner).Shortens file c)
    (m n : Nat) {c : Cursor} (hc : c.Ended) (hm : c.remaining.length ≤ m)
    (hn : c.remaining.length ≤ n) :
    arrowChain inner m file c = arrowChain inner n file c := by
  induction m generalizing n c with
  | zero => exact absurd (List.length_eq_zero_iff.1 (Nat.le_zero.1 hm)) c.remaining_ne_nil
  | succ m ih =>
    cases n with
    | zero => exact absurd (List.length_eq_zero_iff.1 (Nat.le_zero.1 hn)) c.remaining_ne_nil
    | succ n =>
      simp only [arrowChain, test_bind, ite_apply, start_bind]
      split
      · rfl
      · cases hrun : typeApplication inner file c with
        | failed e d => rw [bind_failed hrun, bind_failed hrun]
        | done a d =>
          obtain ⟨hd, hlt⟩ := hitem c hc a d hrun
          rw [bind_done hrun, bind_done hrun]
          simp only [test_bind, ite_apply, advance_bind]
          split
          · rename_i harrow
            obtain ⟨hadv, hlt'⟩ := hd.advance_of_isAt harrow (by decide)
            rw [bind_apply, bind_apply, ih n hadv (by omega) (by omega)]
          · rfl

theorem arrows_eq (hitem : ∀ c, c.Ended → (typeApplication inner).Shortens file c)
    (hc : c.Ended) :
    arrows inner file c =
      (do
        if ← test (·.isAt .kwForall) then return ([], ← quantified inner)
        else
          let s ← start
          let t ← typeApplication inner
          if ← test (·.isAt .arrow) then
            let _ ← advance
            let (domains, codomain) ← arrows inner
            return ((s, t) :: domains, codomain)
          else return ([], t) : Parser _) file c := by
  have hlen : c.remaining.length = c.rest.length + 1 := rfl
  simp only [arrows, hlen, arrowChain, test_bind, ite_apply, start_bind]
  split
  · rfl
  · cases hrun : typeApplication inner file c with
    | failed e d => rw [bind_failed hrun, bind_failed hrun]
    | done a d =>
      obtain ⟨hd, hlt⟩ := hitem c hc a d hrun
      rw [bind_done hrun, bind_done hrun]
      simp only [test_bind, ite_apply, advance_bind]
      split
      · rename_i harrow
        obtain ⟨hadv, hlt'⟩ := hd.advance_of_isAt harrow (by decide)
        rw [bind_apply, bind_apply, arrowChain_eq_of_le hitem c.rest.length
          d.advance.remaining.length hadv (by omega) (by omega)]
        rfl
      · rfl

end

theorem listEnds_advance_of_startsRecord (hs : startsRecord c = true) :
    c.current.kind = .lbrace ∧ listEnds .rbrace c.advance = false := by
  simp only [startsRecord, Bool.and_eq_true] at hs
  refine ⟨Cursor.kind_of_isAt hs.1, ?_⟩
  have hs' := hs.2
  split at hs'
  · rename_i n e rest hrest
    simp only [Bool.and_eq_true, beq_iff_eq] at hs'
    simp [listEnds, Cursor.advance, hrest, Cursor.isAt, hs'.1]
  · cases hs'

end Parser
end TinyFront
