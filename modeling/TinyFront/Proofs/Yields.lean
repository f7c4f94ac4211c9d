import TinyFront.Proofs.Moves

/-!
A logic of what runs yield. A run keeps what advancing keeps of the cursor, and what is said of its
answer may depend on where the last consumed token ended. One rule for each way in which parsers are
built.
-/
namespace TinyFront.Parser

variable {α β : Type}

/-- What holds of a cursor still holds when the cursor has advanced. -/
class Stays (I : Cursor → Prop) : Prop where
  advance : ∀ c, I c → I c.advance

/-- Where it succeeds from a cursor that has the invariant, the parser keeps the invariant and answers
with what has the property. -/
def Yields (I : Cursor → Prop) (p : Parser α) (file : String) (c : Cursor) (Q : Int → α → Prop) :
    Prop :=
  I c → ∀ a c', p file c = .done a c' → I c' ∧ Q c'.lastEnd a

theorem remaining_advance (c : Cursor) : c.advance.remaining <:+ c.remaining := by
  obtain ⟨t, ts, e⟩ := c
  cases ts with
  | nil => exact List.suffix_refl _
  | cons u us => exact List.suffix_cons t _

/-- The cursor is on one of the tokens, or on the last of them for good. -/
abbrev Within (ts : List Token) (c : Cursor) : Prop := c.remaining <:+ ts

instance (ts : List Token) : Stays (Within ts) := ⟨fun c h => (remaining_advance c).trans h⟩

theorem eq_of_manyUpTo_nil {starts : Cursor → Bool} {item : Parser α} {m : Nat} {file : String}
    {c c' : Cursor} (h : manyUpTo starts item m file c = .done [] c') : c' = c := by
  cases m with
  | zero => exact (pure_eq_done.1 h).2.symm
  | succ m =>
    rw [manyUpTo, test_bind, ite_apply] at h
    split at h
    · obtain ⟨a, d, -, h⟩ := bind_eq_done.1 h
      obtain ⟨as, d', -, h⟩ := bind_eq_done.1 h
      cases h
    · exact (pure_eq_done.1 h).2.symm

theorem manyUpTo_eq_done_snoc {starts : Cursor → Bool} {item : Parser α} {m : Nat} {file : String}
    {c c' : Cursor} {as : List α} {a : α} (h : manyUpTo starts item m file c = .done (as ++ [a]) c') :
    ∃ d, manyUpTo starts item as.length file c = .done as d ∧ starts d = true ∧
      item file d = .done a c' ∧ manyUpTo starts item (as.length + 1) file c = .done (as ++ [a]) c' := by
  induction as generalizing c m with
  | nil =>
    cases m with
    | zero => cases h
    | succ m =>
      rw [manyUpTo, test_bind, ite_apply] at h
      split at h
      · rename_i hs
        obtain ⟨b, d, hb, h⟩ := bind_eq_done.1 h
        obtain ⟨bs, d', hbs, h⟩ := bind_eq_done.1 h
        cases h
        obtain rfl := eq_of_manyUpTo_nil hbs
        refine ⟨c, rfl, hs, hb, ?_⟩
        rw [List.length_nil, manyUpTo, test_bind, hs, if_pos rfl, bind_done hb]
        rfl
      · cases h
  | cons x as ih =>
    cases m with
    | zero => cases h
    | succ m =>
      rw [manyUpTo, test_bind, ite_apply] at h
      split at h
      · rename_i hs
        obtain ⟨b, d, hb, h⟩ := bind_eq_done.1 h
        obtain ⟨bs, d', hbs, h⟩ := bind_eq_done.1 h
        cases h
        obtain ⟨e, has, he, ha, hall⟩ := ih hbs
        refine ⟨e, ?_, he, ha, ?_⟩
        · rw [List.length_cons, manyUpTo, test_bind, hs, if_pos rfl, bind_done hb, bind_done has]
          rfl
        · rw [List.length_cons, manyUpTo, test_bind, hs, if_pos rfl, bind_done hb, bind_done hall]
          rfl
      · cases h

namespace Yields

variable {I : Cursor → Prop} {file : String} {c : Cursor} {Q : Int → α → Prop} {p : Parser α}

theorem within (h : I c → p.Yields I file c Q) : p.Yields I file c Q := fun hc => h hc hc

theorem congr {q : Parser α} (h : p file c = q file c) (hq : q.Yields I file c Q) :
    p.Yields I file c Q := fun hc a c' hrun => hq hc a c' (h ▸ hrun)

theorem mono {P : Int → α → Prop} (h : p.Yields I file c P) (hPQ : ∀ z a, P z a → Q z a) :
    p.Yields I file c Q := by
  intro hc a c' hrun
  obtain ⟨hc', ha⟩ := h hc a c' hrun
  exact ⟨hc', hPQ _ a ha⟩

theorem pure {a : α} (h : Q c.lastEnd a) : (pure a : Parser α).Yields I file c Q := by
  intro hc a' c' hrun
  obtain ⟨rfl, rfl⟩ := pure_eq_done.1 hrun
  exact ⟨hc, h⟩

theorem bind {P : Int → α → Prop} {k : α → Parser β} {Q : Int → β → Prop} (hp : p.Yields I file c P)
    (hk : ∀ a c', p file c = .done a c' → P c'.lastEnd a → (k a).Yields I file c' Q) :
    (p >>= k).Yields I file c Q := by
  intro hc b c' hrun
  obtain ⟨a, d, ha, hb⟩ := bind_eq_done.1 hrun
  obtain ⟨hd, hP⟩ := hp hc a d ha
  exact hk a d ha hP hd b c' hb

theorem advance [Stays I] {k : Token → Parser α} (h : (k c.current).Yields I file c.advance Q) :
    (Parser.advance >>= k).Yields I file c Q :=
  fun hc a c' hrun => h (Stays.advance c hc) a c' hrun

theorem expect [Stays I] {cat : Category} {kind : TokenKind} {k : Token → Parser α}
    (h : c.current.kind = kind → (k c.current).Yields I file c.advance Q) :
    (Parser.expect cat kind >>= k).Yields I file c Q := by
  intro hc b c' hrun
  obtain ⟨t, d, ht, hb⟩ := bind_eq_done.1 hrun
  obtain ⟨hk, rfl, rfl⟩ := expect_eq_done.1 ht
  exact h hk (Stays.advance c hc) b c' hb

theorem expectClosing [Stays I] {cat : Category} {opener kind : TokenKind} {k : Token → Parser α}
    (h : (k c.current).Yields I file c.advance Q) :
    (Parser.expectClosing cat opener kind >>= k).Yields I file c Q := by
  intro hc b c' hrun
  obtain ⟨t, d, ht, hb⟩ := bind_eq_done.1 hrun
  obtain ⟨-, rfl, rfl⟩ := expectClosing_eq_done.1 ht
  exact h (Stays.advance c hc) b c' hb

theorem located {p : Parser (Span → α)}
    (h : p.Yields I file c fun z build => Q z (build ⟨file, c.current.span.start, z⟩)) :
    (located p).Yields I file c Q := by
  intro hc a c' hrun
  obtain ⟨build, hb, rfl⟩ := located_eq_done.1 hrun
  exact h hc build c' hb

theorem closing {Q : Int → α × (Int → Span) → Prop}
    (h : p.Yields I file c fun z a => Q z (a, fun s => ⟨file, s, z⟩)) :
    (closing p).Yields I file c Q := by
  rintro hc ⟨a, f⟩ c' hrun
  obtain ⟨ha, hf⟩ := closing_eq_done.1 hrun
  obtain rfl : f = _ := hf
  exact h hc a c' ha

theorem current {k : Token → Parser α} (h : (k c.current).Yields I file c Q) :
    (current >>= k).Yields I file c Q := h

theorem start {k : Int → Parser α} (h : (k c.current.span.start).Yields I file c Q) :
    (start >>= k).Yields I file c Q := h

theorem spanFrom {s : Int} {k : Span → Parser α}
    (h : (k ⟨file, s, c.lastEnd⟩).Yields I file c Q) : (spanFrom s >>= k).Yields I file c Q := h

theorem test {t : Cursor → Bool} {q : Parser α} (hp : t c = true → p.Yields I file c Q)
    (hq : t c = false → q.Yields I file c Q) :
    (test t >>= fun b => if b then p else q).Yields I file c Q := by
  show (if t c = true then p else q).Yields I file c Q
  split
  · rename_i h
    exact hp h
  · rename_i h
    exact hq (by simpa using h)

theorem unexpected {cat : Category} {e : Expected} :
    (unexpected cat e : Parser α).Yields I file c Q := fun _ _ _ h => (unexpected_ne_done.1 h).elim

theorem reject {cat : Category} {e : Cause} : (reject cat e : Parser α).Yields I file c Q :=
  fun _ _ _ h => (reject_ne_done.1 h).elim

/-! Loops. What is said of the items of a list, between the ends before and behind it, is said step by
step. -/

/-- Nothing is said of no items, and what is skipped in front of the items does not matter. -/
structure Gathers (I : Cursor → Prop) (S : Int → List α → Int → Prop) : Prop where
  nil : ∀ z, S z [] z
  skip : ∀ c as z, I c → S c.advance.lastEnd as z → S c.lastEnd as z

theorem gathers_forall (I : Cursor → Prop) (P : α → Prop) :
    Gathers I fun _ as _ => ∀ a ∈ as, P a := ⟨fun _ => by simp, fun _ _ _ _ h => h⟩

section

variable {S : Int → List α → Int → Prop}

theorem many_gathers (hS : Gathers I S) {starts : Cursor → Bool}
    (h : ∀ c, starts c = true →
      p.Yields I file c fun z a => ∀ as z', S z as z' → S c.lastEnd (a :: as) z') :
    (many starts p).Yields I file c fun z as => S c.lastEnd as z := by
  suffices hall : ∀ m c, (manyUpTo starts p m).Yields I file c fun z as => S c.lastEnd as z from
    hall _ c
  intro m
  induction m with
  | zero => exact fun c => .pure (hS.nil _)
  | succ m ih =>
    intro c
    unfold manyUpTo
    refine .test (fun hs => (h c hs).bind fun a d _ ha => ?_) fun _ => .pure (hS.nil _)
    exact (ih d).bind fun as _ _ has => .pure (ha as _ has)

variable [Stays I]

theorem commas_gathers (hS : Gathers I S) {closer : TokenKind}
    (h : ∀ c, p.Yields I file c fun z a => ∀ as z', S z as z' → S c.lastEnd (a :: as) z') :
    (commas closer p).Yields I file c fun z x => S c.lastEnd x.1 z := by
  suffices hall : ∀ m c, (commasUpTo closer p m).Yields I file c fun z x => S c.lastEnd x.1 z from
    hall _ c
  intro m
  induction m with
  | zero => exact fun c => .pure (hS.nil _)
  | succ m ih =>
    intro c
    unfold commasUpTo
    refine .test (fun _ => .pure (hS.nil _)) fun _ => (h c).bind fun a d _ ha => .within fun hd =>
      .test (fun _ => ?_) fun _ => .pure (ha [] _ (hS.nil _))
    exact .advance ((ih _).bind fun x _ _ hx => .pure (ha _ _ (hS.skip d _ _ hd hx)))

theorem statements_gathers {inner : Parser (Expr Span)} {pattern : Parser (Pattern Span)}
    {S : Int → List (Statement Span) → Int → Prop} (hS : Gathers I S)
    (h : ∀ c, (statement inner pattern).Yields I file c
      fun z a => ∀ as z', S z as z' → S c.lastEnd (a :: as) z') :
    (statements inner pattern).Yields I file c fun z ss => S c.lastEnd ss z := by
  suffices hall : ∀ m c, (statementsUpTo inner pattern m).Yields I file c
      fun z ss => S c.lastEnd ss z from hall _ c
  intro m
  induction m with
  | zero => exact fun c => .pure (hS.nil _)
  | succ m ih =>
    intro c
    unfold statementsUpTo
    refine (h c).bind fun s d _ hs => .within fun hd => .test (fun _ => .advance (.test (fun _ => ?_)
      fun _ => ?_)) fun _ => .pure (hs [] _ (hS.nil _))
    · exact .pure (hs [] _ (hS.skip d _ _ hd (hS.nil _)))
    · exact (ih _).bind fun ss _ _ hss => .pure (hs ss _ (hS.skip d _ _ hd hss))

end

theorem many {starts : Cursor → Bool} {P : α → Prop}
    (h : ∀ c, starts c = true → p.Yields I file c fun _ => P) :
    (many starts p).Yields I file c fun _ as => ∀ a ∈ as, P a :=
  many_gathers (gathers_forall I P) fun c hs =>
    (h c hs).mono fun _ _ ha _ _ has => List.forall_mem_cons.2 ⟨ha, has⟩

theorem names [Stays I] {starts : Cursor → Bool} :
    (Parser.many starts Parser.advance).Yields I file c fun _ _ => True := by
  refine (many (P := fun _ => True) fun c _ hc t c' hrun => ?_).mono fun _ _ _ => trivial
  obtain ⟨-, rfl⟩ := advance_eq_done.1 hrun
  exact ⟨Stays.advance c hc, trivial⟩

theorem commas [Stays I] {closer : TokenKind} {P : α → Prop}
    (h : ∀ c, p.Yields I file c fun _ => P) :
    (commas closer p).Yields I file c fun _ x => ∀ a ∈ x.1, P a :=
  commas_gathers (gathers_forall I P) fun c =>
    (h c).mono fun _ _ ha _ _ has => List.forall_mem_cons.2 ⟨ha, has⟩

theorem statements [Stays I] {inner : Parser (Expr Span)} {pattern : Parser (Pattern Span)}
    {P : Statement Span → Prop} (h : ∀ c, (statement inner pattern).Yields I file c fun _ => P) :
    (statements inner pattern).Yields I file c fun _ ss => ∀ s ∈ ss, P s :=
  statements_gathers (gathers_forall I P) fun c =>
    (h c).mono fun _ _ ha _ _ has => List.forall_mem_cons.2 ⟨ha, has⟩

end Yields
end TinyFront.Parser
