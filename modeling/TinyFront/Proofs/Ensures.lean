import TinyFront.Proofs.Grammar
import TinyFront.Proofs.Moves

/-!
A logic for what parsers read: on the tokens of a text, a successful run has consumed lexemes that
stand in a given relation to its answer. One rule for each way in which parsers are built.
-/
namespace TinyFront
namespace Cursor

def lexemes (c : Cursor) : List Lexeme := c.remaining.map Token.lexeme

end Cursor

namespace TokenStream

theorem ended' {c : Cursor} (h : TokenStream c.remaining) : c.Ended := h.ended

theorem proper_current {c : Cursor} (h : TokenStream c.remaining) :
    Lexeme.Proper c.current.lexeme := h.proper _ (by simp [Cursor.remaining])

theorem of_consumes {c c' : Cursor} {ts : List Token} (h : TokenStream c.remaining)
    (hc : c.Consumes ts c') : TokenStream c'.remaining := by
  refine ⟨hc.ended h.ended, fun us t vs hts ht => ?_, fun t ht => ?_⟩
  · exact h.last (ts ++ us) t vs (by rw [hc.remaining, hts, List.append_assoc]) ht
  · exact h.proper t (by rw [hc.remaining]; exact List.mem_append_right _ ht)

theorem advance {c : Cursor} (h : TokenStream c.remaining) (hk : c.current.kind ≠ .eof) :
    TokenStream c.advance.remaining ∧ c.lexemes = c.current.lexeme :: c.advance.lexemes := by
  have hc := Cursor.Ended.consumes_advance h.ended hk
  refine ⟨h.of_consumes hc, ?_⟩
  rw [Cursor.lexemes, hc.remaining]
  rfl

theorem lexeme_of_isAt {c : Cursor} {k : TokenKind} (h : TokenStream c.remaining)
    (hk : c.current.kind = k) (hs : k.spelling?.isSome = true) : c.current.lexeme = k.lexeme := by
  have hp := (h.proper_current).eq_lexeme (by rw [show c.current.lexeme.1 = k from hk]; exact hs)
  rw [hp, show c.current.lexeme.1 = k from hk]

end TokenStream

namespace Parser

variable {α β : Type} {file : String} {c : Cursor}

/-- Each successful run consumes lexemes that the relation pairs with the answer. -/
def Ensures (p : Parser α) (file : String) (c : Cursor) (Q : List Lexeme → α → Prop) : Prop :=
  ∀ a c', p file c = .done a c' →
    TokenStream c'.remaining ∧ ∃ xs, c.lexemes = xs ++ c'.lexemes ∧ Q xs a

namespace Ensures

theorem mono {p : Parser α} {P Q : List Lexeme → α → Prop} (h : p.Ensures file c P)
    (hq : ∀ xs a, P xs a → Q xs a) : p.Ensures file c Q := by
  intro a c' hrun
  obtain ⟨hs, xs, hxs, hp⟩ := h a c' hrun
  exact ⟨hs, xs, hxs, hq xs a hp⟩

theorem pure {a : α} {Q : List Lexeme → α → Prop} (hc : TokenStream c.remaining)
    (hq : Q [] a) : (pure a : Parser α).Ensures file c Q := by
  intro b c' hrun
  obtain ⟨rfl, rfl⟩ := pure_eq_done.1 hrun
  exact ⟨hc, [], rfl, hq⟩

theorem bind {p : Parser α} {k : α → Parser β} {P : List Lexeme → α → Prop}
    {Q : List Lexeme → β → Prop} (hp : p.Ensures file c P)
    (hk : ∀ xs a c', TokenStream c'.remaining → P xs a →
      (k a).Ensures file c' fun ys b => Q (xs ++ ys) b) :
    (p >>= k).Ensures file c Q := by
  intro b c' hrun
  obtain ⟨a, d, ha, hb⟩ := bind_eq_done.1 hrun
  obtain ⟨hd, xs, hxs, hpa⟩ := hp a d ha
  obtain ⟨hc', ys, hys, hq⟩ := hk xs a d hd hpa b c' hb
  exact ⟨hc', xs ++ ys, by rw [hxs, hys, List.append_assoc], hq⟩

theorem advance (hc : TokenStream c.remaining) (hk : c.current.kind ≠ .eof) :
    Parser.advance.Ensures file c fun xs t => xs = [t.lexeme] ∧ t = c.current := by
  intro t c' hrun
  obtain ⟨rfl, rfl⟩ := advance_eq_done.1 hrun
  obtain ⟨hs, hx⟩ := hc.advance hk
  exact ⟨hs, [c.current.lexeme], hx, rfl, rfl⟩

/-- Consuming the token under the cursor, when it matters what is said of the cursor behind it. -/
theorem step {k : Token → Parser β} {Q : List Lexeme → β → Prop} (hc : TokenStream c.remaining)
    (hk : c.current.kind ≠ .eof)
    (h : TokenStream c.advance.remaining →
      (k c.current).Ensures file c.advance fun ys b => Q (c.current.lexeme :: ys) b) :
    (Parser.advance >>= k).Ensures file c Q := by
  obtain ⟨hs, hx⟩ := hc.advance hk
  intro b c' hrun
  rw [advance_bind] at hrun
  obtain ⟨hc', ys, hys, hq⟩ := h hs b c' hrun
  exact ⟨hc', c.current.lexeme :: ys, by rw [hx, hys]; rfl, hq⟩

theorem advance_symbol {k : TokenKind} (hc : TokenStream c.remaining)
    (hk : c.current.kind = k) (hs : k.spelling?.isSome = true) :
    Parser.advance.Ensures file c fun xs _ => xs = [k.lexeme] := by
  have hne : c.current.kind ≠ .eof := by
    rintro he
    rw [← hk, he] at hs
    cases hs
  refine (advance hc hne).mono ?_
  rintro xs t ⟨rfl, rfl⟩
  rw [hc.lexeme_of_isAt hk hs]

theorem advance_word {k : TokenKind} (hc : TokenStream c.remaining)
    (hk : c.current.kind = k) (hne : k ≠ .eof) :
    Parser.advance.Ensures file c fun xs t =>
      xs = [(k, t.text)] ∧ Lexeme.Proper (k, t.text) ∧ t = c.current := by
  refine (advance hc (hk ▸ hne)).mono ?_
  rintro xs t ⟨rfl, rfl⟩
  have hx : c.current.lexeme = (k, c.current.text) := by rw [← hk]; rfl
  exact ⟨by rw [hx], hx ▸ hc.proper_current, rfl⟩

theorem expect_symbol {cat : Category} {k : TokenKind} (hc : TokenStream c.remaining)
    (hs : k.spelling?.isSome = true) : (expect cat k).Ensures file c fun xs _ => xs = [k.lexeme] := by
  intro t c' hrun
  obtain ⟨hk, rfl, rfl⟩ := expect_eq_done.1 hrun
  exact advance_symbol hc hk hs c.current c.advance (show Parser.advance file c = _ from rfl)

theorem expect_word {cat : Category} {k : TokenKind} (hc : TokenStream c.remaining)
    (hne : k ≠ .eof) :
    (expect cat k).Ensures file c fun xs t => xs = [(k, t.text)] ∧ Lexeme.Proper (k, t.text) := by
  intro t c' hrun
  obtain ⟨hk, rfl, rfl⟩ := expect_eq_done.1 hrun
  obtain ⟨hs, xs, hx, hxs, hp, -⟩ :=
    advance_word hc hk hne c.current c.advance (show Parser.advance file c = _ from rfl)
  exact ⟨hs, xs, hx, hxs, hp⟩

theorem expectClosing {cat : Category} {o k : TokenKind} (hc : TokenStream c.remaining)
    (hs : k.spelling?.isSome = true) :
    (expectClosing cat o k).Ensures file c fun xs _ => xs = [k.lexeme] := by
  intro t c' hrun
  obtain ⟨hk, rfl, rfl⟩ := expectClosing_eq_done.1 hrun
  exact advance_symbol hc hk hs c.current c.advance (show Parser.advance file c = _ from rfl)

theorem located {p : Parser (Span → α)} {Q : List Lexeme → α → Prop}
    (h : p.Ensures file c fun xs build => ∀ s, Q xs (build s)) : (located p).Ensures file c Q := by
  intro a c' hrun
  obtain ⟨build, hb, rfl⟩ := located_eq_done.1 hrun
  obtain ⟨hs, xs, hxs, hq⟩ := h build c' hb
  exact ⟨hs, xs, hxs, hq _⟩

theorem closing {p : Parser α} {Q : List Lexeme → α → Prop} (h : p.Ensures file c Q) :
    (closing p).Ensures file c fun xs x => Q xs x.1 := by
  intro x c' hrun
  exact h x.1 c' (closing_eq_done.1 hrun).1

theorem current {k : Token → Parser β} {Q : List Lexeme → β → Prop}
    (h : (k c.current).Ensures file c Q) : (current >>= k).Ensures file c Q := h

theorem start {k : Int → Parser β} {Q : List Lexeme → β → Prop}
    (h : (k c.current.span.start).Ensures file c Q) : (start >>= k).Ensures file c Q := h

theorem spanFrom {s : Int} {k : Span → Parser β} {Q : List Lexeme → β → Prop}
    (h : (k ⟨file, s, c.lastEnd⟩).Ensures file c Q) : (spanFrom s >>= k).Ensures file c Q := h

theorem test {t : Cursor → Bool} {p q : Parser β} {Q : List Lexeme → β → Prop}
    (hp : t c = true → p.Ensures file c Q) (hq : t c = false → q.Ensures file c Q) :
    (test t >>= fun b => if b then p else q).Ensures file c Q := by
  show (if t c = true then p else q).Ensures file c Q
  split
  · rename_i h
    exact hp h
  · rename_i h
    exact hq (by simpa using h)

theorem unexpected {cat : Category} {e : Expected} {Q : List Lexeme → α → Prop} :
    (unexpected cat e : Parser α).Ensures file c Q := fun _ _ h => (unexpected_ne_done.1 h).elim

theorem reject {cat : Category} {e : Cause} {Q : List Lexeme → α → Prop} :
    (reject cat e : Parser α).Ensures file c Q := fun _ _ h => (reject_ne_done.1 h).elim

theorem fail {e : Failure} {Q : List Lexeme → α → Prop} :
    (fail e : Parser α).Ensures file c Q := fun _ _ h => (fail_ne_done.1 h).elim

theorem many {starts : Cursor → Bool} {item : Parser α} {P : List Lexeme → α → Prop}
    (hc : TokenStream c.remaining)
    (h : ∀ c, TokenStream c.remaining → starts c = true → item.Ensures file c P) :
    (many starts item).Ensures file c fun xs as => ∃ parts : List (List Lexeme × α),
      xs = parts.flatMap (·.1) ∧ as = parts.map (·.2) ∧ (∀ p ∈ parts, P p.1 p.2) ∧
        (starts c = true → parts ≠ []) := by
  suffices hall : ∀ n c, TokenStream c.remaining →
      (manyUpTo starts item n).Ensures file c fun xs as => ∃ parts : List (List Lexeme × α),
        xs = parts.flatMap (·.1) ∧ as = parts.map (·.2) ∧ (∀ p ∈ parts, P p.1 p.2) ∧
          (0 < n → starts c = true → parts ≠ []) from
    (hall c.remaining.length c hc).mono fun xs as ⟨parts, hxs, has, hp, hne⟩ =>
      ⟨parts, hxs, has, hp, hne (by simp [Cursor.remaining])⟩
  intro n
  induction n with
  | zero => exact fun c hc => Ensures.pure hc ⟨[], rfl, rfl, by simp, by simp⟩
  | succ n ih =>
    intro c hc
    unfold manyUpTo
    refine Ensures.test (fun hs => ?_) (fun hs => Ensures.pure hc ⟨[], rfl, rfl, by simp, by simp [hs]⟩)
    refine (h c hc hs).bind fun xs a c' hc' ha => ?_
    refine (ih c' hc').bind fun ys as c'' hc'' has => Ensures.pure hc'' ?_
    obtain ⟨parts, rfl, rfl, hparts, -⟩ := has
    refine ⟨(xs, a) :: parts, by simp, rfl, ?_, by simp⟩
    simpa using ⟨ha, fun xs a hm => hparts (xs, a) hm⟩

theorem commas {closer : TokenKind} {item : Parser α} {P : List Lexeme → α → Prop}
    (hc : TokenStream c.remaining)
    (h : ∀ c, TokenStream c.remaining → item.Ensures file c P) :
    (commas closer item).Ensures file c fun xs x => ∃ parts : List (List Lexeme × α),
      xs = Grammar.listed TokenKind.comma.lexeme x.2 (parts.map (·.1)) ∧ x.1 = parts.map (·.2) ∧
        (∀ p ∈ parts, P p.1 p.2) ∧ (listEnds closer c = false → parts ≠ []) := by
  suffices hall : ∀ n c, TokenStream c.remaining →
      (commasUpTo closer item n).Ensures file c fun xs x => ∃ parts : List (List Lexeme × α),
        xs = Grammar.listed TokenKind.comma.lexeme x.2 (parts.map (·.1)) ∧ x.1 = parts.map (·.2) ∧
          (∀ p ∈ parts, P p.1 p.2) ∧ (0 < n → listEnds closer c = false → parts ≠ []) from
    (hall c.remaining.length c hc).mono fun xs x ⟨parts, hxs, has, hp, hne⟩ =>
      ⟨parts, hxs, has, hp, hne (by simp [Cursor.remaining])⟩
  intro n
  induction n with
  | zero => exact fun c hc => Ensures.pure hc ⟨[], rfl, rfl, by simp, by simp⟩
  | succ n ih =>
    intro c hc
    unfold commasUpTo
    refine Ensures.test (fun hends => Ensures.pure hc ⟨[], rfl, rfl, by simp, ?_⟩) (fun _ => ?_)
    · intro _ hne
      simp [listEnds, hends] at hne
    refine (h c hc).bind fun xs a d hd ha => Ensures.test (fun hcomma => ?_) (fun _ => ?_)
    · refine (advance_symbol hd (Cursor.kind_of_isAt hcomma) rfl).bind fun ys t d' hd' hys => ?_
      subst hys
      refine (ih d' hd').bind fun zs x d'' hd'' hx => Ensures.pure hd'' ?_
      obtain ⟨parts, rfl, hparts, hall, -⟩ := hx
      refine ⟨(xs, a) :: parts, ?_, by simp [hparts], ?_, by simp⟩
      · cases parts <;> simp_all [Grammar.listed]
      · simpa using ⟨ha, fun xs a hm => hall (xs, a) hm⟩
    · exact Ensures.pure hd ⟨[(xs, a)], by simp [Grammar.listed], rfl, by simpa using ha, by simp⟩

end Ensures
end Parser
end TinyFront
