import TinyFront.Proofs.Ensures
import TinyFront.Proofs.Phrases

/-!
A logic for the pairs that parsers go through. A run is told by a forest: its words, the pairs of
parentheses among them and, as pairs that are not needed, the places at which a lambda was read, or an
argument that is selected from a group. One rule for each way in which parsers are built; each such place
is one where a lambda or such an argument takes just those lexemes.
-/
namespace TinyFront

namespace Parser

/-- Somewhere, the parser takes just these lexemes before those, with such an answer. -/
def TakesJust {α : Type} (p : Parser α) (P : α → Bool) (xs rest : List Lexeme) : Prop :=
  ∃ file c a c', p file c = .done a c' ∧ P a = true ∧ c.lexemes = xs ++ rest ∧ c'.lexemes = rest

/-- What is read behind a callee. -/
def argument (depth : Nat) : Parser (Expr Span) :=
  withSuffixes (expression depth) (atom .expression (expression depth))

end Parser

/-- What was read at the place of a pair that is not needed. -/
def Reason.Holds (before : Bool) (xs rest : List Lexeme) : Reason → Prop
  | needed => True
  | lambda => (xs ++ rest).head? = some TokenKind.pipe.lexeme ∧
      ∃ depth, (Parser.lambda (Parser.expression depth)).TakesJust Expr.isLambda xs rest
  | argument => before = true ∧ ∃ depth, (Parser.argument depth).TakesJust Expr.isDetached xs rest

/-- The lexemes, with others behind them, were read as the words and pairs of a forest. -/
inductive Traced : Bool → List Lexeme → List Lexeme → Forest → Prop
  | nil (b : Bool) (rest : List Lexeme) : Traced b [] rest .nil
  | word {b : Bool} {x : Lexeme} {xs rest : List Lexeme} {w : Word} {f : Forest}
      (hx : x.sign = .word w) (hf : Traced w.ends xs rest f) : Traced b (x :: xs) rest (.word w f)
  | unit {b : Bool} {x y : Lexeme} {xs rest : List Lexeme} {f : Forest} (hx : x.sign = .opening)
      (hy : y.sign = .closing) (hf : Traced true xs rest f) : Traced b (x :: y :: xs) rest (.unit f)
  | pair {b : Bool} {x y : Lexeme} {xs ys rest : List Lexeme} {i f : Forest} (hx : x.sign = .opening)
      (hy : y.sign = .closing) (hi : Traced false xs (y :: ys ++ rest) i)
      (hf : Traced true ys rest f) : Traced b (x :: (xs ++ y :: ys)) rest (.pair .needed i f)
  | place {b : Bool} {xs ys rest : List Lexeme} {r : Reason} {i f : Forest} (hr : r ≠ .needed)
      (holds : r.Holds b xs (ys ++ rest)) (solid : i.Solid) (hi : Traced b xs (ys ++ rest) i)
      (hf : Traced true ys rest f) : Traced b (xs ++ ys) rest (.pair r i f)

namespace Traced

open Forest Sign

variable {b : Bool} {xs ys rest : List Lexeme} {f g : Forest}

theorem plain_place {r : Reason} (hr : r ≠ .needed) (i f : Forest) :
    (Forest.pair r i f).plain = i.plain ++ f.plain := by
  cases r <;> first | rfl | contradiction

theorem signs (h : Traced b xs rest f) : f.plain.signs = xs.map Lexeme.sign := by
  induction h with
  | nil => rfl
  | word hx _ ih => simp [Forest.plain, Forest.signs, ih, hx]
  | unit hx hy _ ih => simp [Forest.plain, Forest.signs, ih, hx, hy]
  | pair hx hy _ _ ihi ihf => simp [Forest.plain, Forest.signs, ihi, ihf, hx, hy]
  | place hr _ _ _ _ ihi ihf => simp [plain_place hr, ihi, ihf]

theorem append (h : Traced b xs (ys ++ rest) f) (hg : Traced (f.plain.ends b) ys rest g) :
    Traced b (xs ++ ys) rest (f ++ g) := by
  generalize hr : ys ++ rest = behind at h
  induction h with
  | nil => exact hg
  | word hx _ ih => exact .word hx (ih hg hr)
  | unit hx hy _ ih => exact .unit hx hy (ih hg hr)
  | @pair b x y us vs _ i f hx hy hi _ _ ihf =>
    subst hr
    have hall : Traced b (x :: (us ++ y :: (vs ++ ys))) rest (.pair .needed i (f ++ g)) :=
      .pair hx hy (by simpa using hi) (ihf hg rfl)
    simpa using hall
  | @place b us vs _ r i f hr' holds solid hi _ _ ihf =>
    subst hr
    rw [plain_place hr', ends_append, solid] at hg
    have hall : Traced b (us ++ (vs ++ ys)) rest (.pair r i (f ++ g)) :=
      .place hr' (by simpa using holds) solid (by simpa using hi) (ihf hg rfl)
    simpa using hall

theorem of_firm (hf : f.Firm) (h : f.signs = xs.map Lexeme.sign) (b : Bool) (rest : List Lexeme) :
    Traced b xs rest f := by
  induction f generalizing xs b rest with
  | nil =>
    obtain rfl : xs = [] := List.map_eq_nil_iff.1 h.symm
    exact .nil _ _
  | word w f ih =>
    obtain ⟨x, ys, rfl, hx, hys⟩ := List.map_eq_cons_iff.1 h.symm
    exact .word hx (ih hf hys.symm _ _)
  | unit f ih =>
    obtain ⟨x, ys, rfl, hx, hys⟩ := List.map_eq_cons_iff.1 h.symm
    obtain ⟨y, zs, rfl, hy, hzs⟩ := List.map_eq_cons_iff.1 hys
    exact .unit hx hy (ih hf hzs.symm _ _)
  | pair r i f ihi ihf =>
    obtain ⟨rfl, hi, hf⟩ := hf
    obtain ⟨x, ys, rfl, hx, hys⟩ := List.map_eq_cons_iff.1 h.symm
    obtain ⟨us, vs, rfl, hus, hvs⟩ := List.map_eq_append_iff.1 hys
    obtain ⟨y, zs, rfl, hy, hzs⟩ := List.map_eq_cons_iff.1 hvs
    exact .pair hx hy (ihi hi hus.symm _ _) (ihf hf hzs.symm _ _)

/-- Where a pair stands that is not needed, a lambda or an argument was read. -/
theorem exists_place (h : Traced b xs rest f) (hf : f.Clean) {r : Reason} (hr : r ≠ .needed) {n : Nat}
    {x : Nat × Nat} (hx : x ∈ f.places (· == r) n) :
    ∃ (as : List Lexeme) (i : Forest) (bs cs : List Lexeme), xs = as ++ bs ++ cs ∧
      i.plain.signs = bs.map Lexeme.sign ∧ i.Clean ∧ i.Solid ∧
      x = (n + leaves (as.map Lexeme.sign), n + leaves (as.map Lexeme.sign) + i.weight) ∧
      r.Holds (endsAfter b (as.map Lexeme.sign)) bs (cs ++ rest) := by
  induction h generalizing n with
  | nil => simp [Forest.places] at hx
  | @word b y ys rest w f hy _ ih =>
    obtain ⟨as, i, bs, cs, rfl, hi, hclean, hsolid, rfl, holds⟩ := ih hf hx
    refine ⟨y :: as, i, bs, cs, by simp, hi, hclean, hsolid, ?_, ?_⟩
    · simp [leaves, hy, Nat.add_assoc]
    · simpa [endsAfter, Sign.ends, hy] using holds
  | @unit b y z ys rest f hy hz _ ih =>
    obtain ⟨as, i, bs, cs, rfl, hi, hclean, hsolid, rfl, holds⟩ := ih hf hx
    refine ⟨y :: z :: as, i, bs, cs, by simp, hi, hclean, hsolid, ?_, ?_⟩
    · simp [leaves, hy, hz, Nat.add_assoc, Nat.add_comm 1]
    · simpa [endsAfter, Sign.ends, hy, hz] using holds
  | @pair b y z ys zs rest i f hy hz hi _ ihi ihf =>
    obtain ⟨hw, hci, hcf⟩ := hf
    simp only [Forest.places, Multiset.mem_add] at hx
    rcases hx with hx | hx | hx
    · rw [if_neg (by simpa using hr.symm)] at hx
      simp at hx
    · obtain ⟨as, j, bs, cs, rfl, hj, hclean, hsolid, rfl, holds⟩ := ihi hci hx
      have hhead : (as.map Lexeme.sign).head? ≠ some .closing := by
        refine head_of_append (t := (bs ++ cs).map Lexeme.sign) ?_
        rw [← List.map_append, ← List.append_assoc, ← hi.signs]
        exact head_signs _
      refine ⟨y :: as, j, bs, cs ++ z :: zs, by simp, hj, hclean, hsolid, ?_, ?_⟩
      · simp [hy, leaves_opening hhead]
      · simpa [endsAfter, Sign.ends, hy] using holds
    · obtain ⟨as, j, bs, cs, rfl, hj, hclean, hsolid, rfl, holds⟩ := ihf hcf hx
      have hinside := hi.signs
      refine ⟨y :: (ys ++ z :: as), j, bs, cs, by simp, hj, hclean, hsolid, ?_, ?_⟩
      · have hw' : 0 < i.plain.weight := by simpa using hw
        simp only [List.map_cons, List.map_append, hy, hz, ← hinside]
        rw [leaves_opening (head_signs_append hw' _), leaves_signs hci.plain, leaves, weight_plain,
          Nat.add_assoc]
      · simpa [endsAfter, Sign.ends, hy, hz, endsAfter_append] using holds
  | @place b ys zs rest r' i f hr' holds solid hi _ ihi ihf =>
    obtain ⟨hw, hci, hcf⟩ := hf
    simp only [Forest.places, Multiset.mem_add] at hx
    rcases hx with hx | hx | hx
    · by_cases heq : r' = r
      · subst heq
        obtain rfl : x = (n, n + i.weight) := by simpa using hx
        exact ⟨[], i, ys, zs, by simp, hi.signs, hci, solid, by simp [leaves], holds⟩
      · simp [heq] at hx
    · obtain ⟨as, j, bs, cs, rfl, hj, hclean, hsolid, rfl, holds⟩ := ihi hci hx
      exact ⟨as, j, bs, cs ++ zs, by simp, hj, hclean, hsolid, rfl, by simpa using holds⟩
    · obtain ⟨as, j, bs, cs, rfl, hj, hclean, hsolid, rfl, holds⟩ := ihf hcf hx
      have hinside := hi.signs
      have hends : endsAfter b (ys.map Lexeme.sign) = true := by
        rw [← hinside, endsAfter_signs, solid]
      refine ⟨ys ++ as, j, bs, cs, by simp, hj, hclean, hsolid, ?_, ?_⟩
      · have hleaves : leaves ((ys ++ as).map Lexeme.sign) =
            i.weight + leaves (as.map Lexeme.sign) := by
          rw [List.map_append, ← hinside, leaves_signs hci.plain, weight_plain]
        rw [hleaves, Nat.add_assoc]
      · simpa [endsAfter_append, hends] using holds

end Traced

namespace Parser

variable {α β : Type} {file : String} {b : Bool} {c : Cursor}

/-- Each successful run goes through the words and pairs of a forest that the relation pairs with the
answer. -/
def Traces (p : Parser α) (b : Bool) (file : String) (c : Cursor) (Q : Forest → α → Prop) : Prop :=
  ∀ a c', p file c = .done a c' →
    TokenStream c'.remaining ∧
      ∃ xs f, c.lexemes = xs ++ c'.lexemes ∧ Traced b xs c'.lexemes f ∧ Q f a

namespace Traces

theorem mono {p : Parser α} {P Q : Forest → α → Prop} (h : p.Traces b file c P)
    (hq : ∀ f a, P f a → Q f a) : p.Traces b file c Q := by
  intro a c' hrun
  obtain ⟨hs, xs, f, hxs, hf, hp⟩ := h a c' hrun
  exact ⟨hs, xs, f, hxs, hf, hq f a hp⟩

theorem pure {a : α} {Q : Forest → α → Prop} (hc : TokenStream c.remaining) (hq : Q .nil a) :
    (pure a : Parser α).Traces b file c Q := by
  intro a' c' hrun
  obtain ⟨rfl, rfl⟩ := pure_eq_done.1 hrun
  exact ⟨hc, [], .nil, rfl, .nil _ _, hq⟩

theorem bind {p : Parser α} {k : α → Parser β} {P : Forest → α → Prop} {Q : Forest → β → Prop}
    (hp : p.Traces b file c P)
    (hk : ∀ f a c', TokenStream c'.remaining → P f a →
      (k a).Traces (f.plain.ends b) file c' fun g x => Q (f ++ g) x) :
    (p >>= k).Traces b file c Q := by
  intro x c' hrun
  obtain ⟨a, d, ha, hx⟩ := bind_eq_done.1 hrun
  obtain ⟨hd, xs, f, hxs, hf, hpa⟩ := hp a d ha
  obtain ⟨hc', ys, g, hys, hg, hq⟩ := hk f a d hd hpa x c' hx
  rw [hys] at hf
  exact ⟨hc', xs ++ ys, f ++ g, by rw [hxs, hys, List.append_assoc], hf.append hg, hq⟩

theorem of_drawn {p : Parser α} {g : α → Forest} (h : p.Ensures file c fun xs a => Drawn xs (g a)) :
    p.Traces b file c fun f a => f.Covers (g a) ∧ 0 < f.weight ∧ f.Solid := by
  intro a c' hrun
  obtain ⟨hs, xs, hxs, f, hf, hpos, hsolid⟩ := h a c' hrun
  exact ⟨hs, xs, f, hxs, .of_firm hf.firm hf.signs _ _, hf.covers, hpos, hsolid⟩

theorem word {p : Parser α} {w : Word}
    (h : p.Ensures file c fun xs _ => ∃ x : Lexeme, xs = [x] ∧ x.sign = .word w) :
    p.Traces b file c fun f _ => f = .single w := by
  intro a c' hrun
  obtain ⟨hs, xs, hxs, x, rfl, hx⟩ := h a c' hrun
  exact ⟨hs, [x], .single w, hxs, .word hx (.nil _ _), rfl⟩

theorem advance_symbol {k : TokenKind} (hc : TokenStream c.remaining) (hk : c.current.kind = k)
    (hs : k.spelling?.isSome = true) (hsign : k.sign = .word k.word) :
    Parser.advance.Traces b file c fun f _ => f = .single k.word :=
  word ((Ensures.advance_symbol hc hk hs).mono fun _ _ h => ⟨_, h, hsign⟩)

theorem advance_word {k : TokenKind} (hc : TokenStream c.remaining) (hk : c.current.kind = k)
    (hne : k ≠ .eof) (hsign : k.sign = .word k.word) :
    Parser.advance.Traces b file c fun f _ => f = .single k.word :=
  word ((Ensures.advance_word hc hk hne).mono fun _ _ h => ⟨_, h.1, hsign⟩)

theorem step {k : Token → Parser β} {Q : Forest → β → Prop} {kind : TokenKind}
    (hc : TokenStream c.remaining) (hk : c.current.kind = kind) (hne : kind ≠ .eof)
    (hsign : kind.sign = .word kind.word)
    (h : TokenStream c.advance.remaining →
      (k c.current).Traces kind.word.ends file c.advance fun f x => Q (.word kind.word f) x) :
    (Parser.advance >>= k).Traces b file c Q := by
  obtain ⟨hd, hlex⟩ := hc.advance (hk ▸ hne)
  intro x c' hrun
  rw [advance_bind] at hrun
  obtain ⟨hs, xs, f, hxs, hf, hq⟩ := h hd x c' hrun
  have hx : Lexeme.sign c.current.lexeme = .word kind.word := (congrArg TokenKind.sign hk).trans hsign
  exact ⟨hs, c.current.lexeme :: xs, _, by rw [hlex, hxs]; rfl, .word hx hf, hq⟩

theorem expect_symbol {cat : Category} {k : TokenKind} (hc : TokenStream c.remaining)
    (hs : k.spelling?.isSome = true) (hsign : k.sign = .word k.word) :
    (expect cat k).Traces b file c fun f _ => f = .single k.word :=
  word ((Ensures.expect_symbol hc hs).mono fun _ _ h => ⟨_, h, hsign⟩)

theorem expect_word {cat : Category} {k : TokenKind} (hc : TokenStream c.remaining) (hne : k ≠ .eof)
    (hsign : k.sign = .word k.word) : (expect cat k).Traces b file c fun f _ => f = .single k.word :=
  word ((Ensures.expect_word hc hne).mono fun _ _ h => ⟨_, h.1, hsign⟩)

theorem expectClosing {cat : Category} {o k : TokenKind} (hc : TokenStream c.remaining)
    (hs : k.spelling?.isSome = true) (hsign : k.sign = .word k.word) :
    (expectClosing cat o k).Traces b file c fun f _ => f = .single k.word :=
  word ((Ensures.expectClosing hc hs).mono fun _ _ h => ⟨_, h, hsign⟩)

theorem located {p : Parser (Span → α)} {Q : Forest → α → Prop}
    (h : p.Traces b file c fun f build => ∀ s, Q f (build s)) : (located p).Traces b file c Q := by
  intro a c' hrun
  obtain ⟨build, hb, rfl⟩ := located_eq_done.1 hrun
  obtain ⟨hs, xs, f, hxs, hf, hq⟩ := h build c' hb
  exact ⟨hs, xs, f, hxs, hf, hq _⟩

theorem closing {p : Parser α} {Q : Forest → α → Prop} (h : p.Traces b file c Q) :
    (closing p).Traces b file c fun f x => Q f x.1 := by
  intro x c' hrun
  exact h x.1 c' (closing_eq_done.1 hrun).1

theorem current {k : Token → Parser β} {Q : Forest → β → Prop}
    (h : (k c.current).Traces b file c Q) : (current >>= k).Traces b file c Q := h

theorem start {k : Int → Parser β} {Q : Forest → β → Prop}
    (h : (k c.current.span.start).Traces b file c Q) : (start >>= k).Traces b file c Q := h

theorem spanFrom {s : Int} {k : Span → Parser β} {Q : Forest → β → Prop}
    (h : (k ⟨file, s, c.lastEnd⟩).Traces b file c Q) : (spanFrom s >>= k).Traces b file c Q := h

theorem test {t : Cursor → Bool} {p q : Parser β} {Q : Forest → β → Prop}
    (hp : t c = true → p.Traces b file c Q) (hq : t c = false → q.Traces b file c Q) :
    (test t >>= fun d => if d then p else q).Traces b file c Q := by
  show (if t c = true then p else q).Traces b file c Q
  split
  · rename_i h
    exact hp h
  · rename_i h
    exact hq (by simpa using h)

theorem unexpected {cat : Category} {e : Expected} {Q : Forest → α → Prop} :
    (unexpected cat e : Parser α).Traces b file c Q := fun _ _ h => (unexpected_ne_done.1 h).elim

theorem reject {cat : Category} {e : Cause} {Q : Forest → α → Prop} :
    (reject cat e : Parser α).Traces b file c Q := fun _ _ h => (reject_ne_done.1 h).elim

/-- What is read in parentheses. Nothing in them makes a unit. -/
theorem enclosed {p : Parser α} {g : α → β} {cat : Category} {P : Forest → α → Prop}
    {Q : Forest → β → Prop} (hc : TokenStream c.remaining) (hk : c.current.kind = .lparen)
    (hp : ∀ c, TokenStream c.remaining → p.Traces false file c P)
    (hq : ∀ f a, P f a → f = .nil ∧ Q (.unit .nil) (g a) ∨ Q (.enclosed .needed f) (g a)) :
    Traces (do
      let _ ← Parser.advance
      let a ← p
      let _ ← Parser.expectClosing cat .lparen .rparen
      return g a) b file c Q := by
  intro x c' hrun
  obtain ⟨hd, hlex⟩ := hc.advance (by rw [hk]; decide)
  rw [advance_bind] at hrun
  obtain ⟨a, d, ha, hrun⟩ := bind_eq_done.1 hrun
  obtain ⟨hd', xs, f, hxs, hf, hpa⟩ := hp _ hd a d ha
  obtain ⟨t, d', ht, hrun⟩ := bind_eq_done.1 hrun
  obtain ⟨rfl, rfl⟩ := pure_eq_done.1 hrun
  obtain ⟨hk', rfl, rfl⟩ := expectClosing_eq_done.1 ht
  obtain ⟨hs, hlex'⟩ := hd'.advance (by rw [hk']; decide)
  have hopening : Lexeme.sign c.current.lexeme = .opening := congrArg TokenKind.sign hk
  have hclosing : Lexeme.sign d.current.lexeme = .closing := congrArg TokenKind.sign hk'
  rw [hxs, hlex'] at hlex
  rw [hlex'] at hf
  refine ⟨hs, c.current.lexeme :: (xs ++ [d.current.lexeme]), ?_⟩
  rcases hq f a hpa with ⟨rfl, hq⟩ | hq
  · cases hf
    exact ⟨_, by simpa using hlex, .unit hopening hclosing (.nil _ _), hq⟩
  · exact ⟨_, by simpa using hlex, .pair hopening hclosing hf (.nil _ _), hq⟩

/-- The place of what is read, where the answer is one that has a place. -/
theorem place {p : Parser α} {P : α → Bool} {Q : Forest → α → Prop} {r : Reason} (hr : r ≠ .needed)
    (holds : ∀ xs rest, p.TakesJust P xs rest → xs ++ rest = c.lexemes → r.Holds b xs rest)
    (solid : ∀ f a, Q f a → f.Solid) (h : p.Traces b file c Q) :
    p.Traces b file c fun f a => ∃ g, f = (if P a then .enclosed r g else g) ∧ Q g a := by
  intro a c' hrun
  obtain ⟨hs, xs, f, hxs, hf, hq⟩ := h a c' hrun
  refine ⟨hs, xs, _, hxs, ?_, f, rfl, hq⟩
  split
  · rename_i hp
    have htakes := holds xs c'.lexemes ⟨file, c, a, c', hrun, hp, hxs, rfl⟩ hxs.symm
    rw [← List.append_nil xs]
    exact .place hr htakes (solid f a hq) hf (.nil _ _)
  · exact hf

/-- The parts of a loop follow each other. What stands before each of them is what stands before the
first, or behind one of them. -/
theorem many {starts : Cursor → Bool} {item : Parser α} {P : Forest → α → Prop} {B : Bool → Prop}
    (hc : TokenStream c.remaining) (hb : B b) (hB : ∀ f a b, P f a → B b → B (f.plain.ends b))
    (h : ∀ b c, B b → TokenStream c.remaining → starts c = true → item.Traces b file c P) :
    (many starts item).Traces b file c fun f as => ∃ parts : List (Forest × α),
      f = .row (parts.map (·.1)) ∧ as = parts.map (·.2) ∧ ∀ p ∈ parts, P p.1 p.2 := by
  suffices hall : ∀ n b c, B b → TokenStream c.remaining →
      (manyUpTo starts item n).Traces b file c fun f as => ∃ parts : List (Forest × α),
        f = .row (parts.map (·.1)) ∧ as = parts.map (·.2) ∧ ∀ p ∈ parts, P p.1 p.2 from
    hall c.remaining.length b c hb hc
  intro n
  induction n with
  | zero => exact fun b c _ hc => Traces.pure hc ⟨[], rfl, rfl, by simp⟩
  | succ n ih =>
    intro b c hb hc
    unfold manyUpTo
    refine Traces.test (fun hs => ?_) (fun _ => Traces.pure hc ⟨[], rfl, rfl, by simp⟩)
    refine (h b c hb hc hs).bind fun f a c' hc' ha => ?_
    refine (ih _ c' (hB f a b ha hb) hc').bind fun g as c'' hc'' has => Traces.pure hc'' ?_
    obtain ⟨parts, rfl, rfl, hparts⟩ := has
    exact ⟨(f, a) :: parts, by simp [Forest.row], rfl, List.forall_mem_cons.2 ⟨ha, hparts⟩⟩

theorem commas {closer : TokenKind} {item : Parser α} {P : Forest → α → Prop} {k : α → Forest}
    (hP : ∀ f a, P f a → f.Covers (k a) ∧ 0 < f.weight) (hc : TokenStream c.remaining)
    (h : ∀ b c, TokenStream c.remaining → item.Traces b file c P) :
    (commas closer item).Traces b file c fun f x =>
      f.Covers (.separated (x.1.map k)) ∧ (x.1 = [] → f = .nil) ∧
        (x.1 ≠ [] → 0 < f.weight) ∧ ∀ a, x = ([a], false) → P f a := by
  suffices hall : ∀ n b c, TokenStream c.remaining →
      (commasUpTo closer item n).Traces b file c fun f x =>
        f.Covers (.separated (x.1.map k)) ∧ (x.1 = [] → f = .nil) ∧
          (x.1 ≠ [] → 0 < f.weight) ∧ ∀ a, x = ([a], false) → P f a from
    hall c.remaining.length b c hc
  intro n
  induction n with
  | zero => exact fun b c hc => Traces.pure hc ⟨.nil, by simp, by simp, by simp⟩
  | succ n ih =>
    intro b c hc
    unfold commasUpTo
    refine Traces.test (fun _ => Traces.pure hc ⟨.nil, by simp, by simp, by simp⟩) (fun _ => ?_)
    refine (h b c hc).bind fun f a d hd ha => ?_
    obtain ⟨hcovers, hpos⟩ := hP f a ha
    refine Traces.test (fun hcomma => ?_) (fun _ => ?_)
    · refine (advance_symbol hd (Cursor.kind_of_isAt hcomma) rfl rfl).bind fun g t d' hd' hg => ?_
      subst hg
      refine (ih _ d' hd').bind fun g x d'' hd'' hx => Traces.pure hd'' ?_
      obtain ⟨as, trailing⟩ := x
      obtain ⟨hg, -⟩ := hx
      rw [Forest.append_nil]
      refine ⟨?_, by simp, fun _ => by rw [Forest.weight_append]; omega, ?_⟩
      · exact hcovers.separated_cons hg
      · intro a' heq
        cases as <;> simp at heq
    · rw [← Forest.append_nil f] at hcovers hpos ha
      refine Traces.pure hd ⟨hcovers, by simp, fun _ => hpos, fun a' heq => ?_⟩
      obtain rfl : a = a' := by simpa using heq
      exact ha

end Traces
end Parser
end TinyFront
