import TinyFront.Proofs.Repeats
import TinyFront.Proofs.Soundness

/-!
Parts of a text alone. Main statements: a chain that is cut off behind some of its links is read as
what these links have built, and what a parser of parts has read with nothing behind it is read in
the same way by the parsers above it.
-/
namespace TinyFront.Parser

variable {α β γ δ : Type} {ρ : Placing} {deep : Prop} {file : String} {c : Cursor} {n : Nat}

/-- A run consumes at least `n` tokens, and `q` repeats it where these tokens stand again with just
an end marker behind them. -/
def Alone (ρ : Placing) (deep : Prop) (n : Nat) (p : Parser α) (q : Parser β) (R : α → β → Prop)
    (file : String) (c : Cursor) : Prop :=
  ∀ a c', p file c = .done a c' → ∃ ts, n ≤ ts.length ∧ c.Consumes ts c' ∧
    ∀ (d : Cursor) (e : Token), e.kind = .eof → d.remaining = ts.map ρ.token ++ [e] →
      Again ρ deep q (R a) file d ts

theorem SteadyUpTo.alone {p : Parser α} {q : Parser β} {R : α → β → Prop}
    (h : Steady ρ deep n p q R file c) (hn : 1 ≤ n) : Alone ρ deep n p q R file c := by
  intro a c' hrun
  obtain ⟨-, ts, hlen, hcons, hrep⟩ := h a c' hrun
  exact ⟨ts, hlen, hcons, fun d e he hd =>
    hrep ts.length (Nat.le_refl _) [e] (.here (by rw [he]; rfl)) d hd (by omega)⟩

namespace Alone

/-- What comes first is not cut off. -/
theorem bind {p : Parser α} {q : Parser β} {R : α → β → Prop} {k : α → Parser γ} {l : β → Parser δ}
    {S : γ → δ → Prop} (hc : c.Ended) (hn : 1 ≤ n) (hp : Steady ρ deep n p q R file c)
    (hk : ∀ a b c', p file c = .done a c' → c'.Ended → R a b → Alone ρ deep 0 (k a) (l b) S file c') :
    Alone ρ deep n (p >>= k) (q >>= l) S file c := by
  intro b c' hrun
  obtain ⟨a, x, ha, hb⟩ := bind_eq_done.1 hrun
  obtain ⟨⟨b₀, hb₀⟩, ts, hlen, hts, hrep⟩ := hp a x ha
  obtain ⟨us, -, hus, -⟩ := hk a b₀ x ha (hts.ended hc) hb₀ b c' hb
  refine ⟨ts ++ us, by simp; omega, hts.trans hus, fun d e he hd => ?_⟩
  have hd₁ : d.remaining = ts.map ρ.token ++ (us.map ρ.token ++ [e]) := by simp [hd]
  have hcut : Cut ρ x.remaining (us.map ρ.token ++ [e]) := by
    rw [hus.remaining]
    exact Cut.append us (.here (by rw [he]; rfl))
  obtain ⟨y, d₁, hy, hd₁', hR⟩ | ⟨hdeep, hover⟩ :=
    hrep ts.length (Nat.le_refl _) _ hcut d hd₁ (by omega)
  · obtain ⟨us', -, hus', hrep'⟩ := hk a y x ha (hts.ended hc) hR b c' hb
    obtain rfl : us' = us := List.append_cancel_right (hus'.remaining.symm.trans hus.remaining)
    have hrem : d₁.remaining = us'.map ρ.token ++ [e] :=
      (List.append_cancel_left (hd₁.symm.trans hd₁'.remaining)).symm
    obtain ⟨z, d₂, hz, hd₂, hS⟩ | ⟨hdeep, hover⟩ := hrep' d₁ e he hrem
    · refine .inl ⟨z, d₂, (bind_done hy).trans hz, ?_, hS⟩
      rw [List.map_append]
      exact hd₁'.trans hd₂
    · exact .inr ⟨hdeep, .bind_of_done hy hover⟩
  · exact .inr ⟨hdeep, hover.bind _⟩

theorem start {k : Int → Parser α} {l : Int → Parser β} {R : α → β → Prop} (hn : 1 ≤ n)
    (h : Alone ρ deep n (k c.current.span.start) (l (ρ.offset c.current.span.start)) R file c) :
    Alone ρ deep n (start >>= k) (start >>= l) R file c := by
  intro a c' hrun
  obtain ⟨ts, hlen, hcons, hrep⟩ := h a c' hrun
  refine ⟨ts, hlen, hcons, fun d e he hd => ?_⟩
  have hagain := hrep d e he hd
  have hcur := SteadyUpTo.current_eq hcons.remaining hd (by omega)
  rw [show ρ.offset c.current.span.start = d.current.span.start by rw [hcur]; rfl] at hagain
  exact hagain

theorem many {starts : Cursor → Bool} {item : Parser α} {item' : Parser β} {R : α → β → Prop}
    (hlooks : SteadyUpTo.Looks ρ starts item file)
    (hitem : ∀ c, c.Ended → starts c = true → Steady ρ deep 1 item item' R file c)
    (hstop : ∀ d : Cursor, d.current.kind = .eof → starts d = false) (m : Nat) (hc : c.Ended) :
    Alone ρ deep 0 (manyUpTo starts item m) (many starts item') (List.Forall₂ R) file c := by
  suffices hall : ∀ as c', manyUpTo starts item m file c = .done as c' → ∃ ts, c.Consumes ts c' ∧
      ∀ bound, ts.length ≤ bound → ∀ (d : Cursor) (e : Token), e.kind = .eof →
        d.remaining = ts.map ρ.token ++ [e] →
        Again ρ deep (manyUpTo starts item' (bound + 1)) (List.Forall₂ R as) file d ts by
    intro as c' hrun
    obtain ⟨ts, hcons, hrep⟩ := hall as c' hrun
    refine ⟨ts, Nat.zero_le _, hcons, fun d e he hd => ?_⟩
    have hagain := hrep ts.length (Nat.le_refl _) d e he hd
    rwa [show ts.length + 1 = d.remaining.length by simp [hd]] at hagain
  induction m generalizing c with
  | zero =>
    intro as c' hrun
    obtain ⟨rfl, rfl⟩ := pure_eq_done.1 hrun
    refine ⟨[], .refl _, fun bound _ d e he hd => .inl ⟨[], d, ?_, .refl _, .nil⟩⟩
    have hs : starts d = false := hstop d (by rw [(Cursor.current_of_remaining hd).1, he])
    simp [manyUpTo, hs]
  | succ m ih =>
    intro as c' hrun
    rw [manyUpTo, test_bind, ite_apply] at hrun
    split at hrun
    · rename_i hs
      obtain ⟨a, x, ha, hrun⟩ := bind_eq_done.1 hrun
      obtain ⟨as, y, has, hrun⟩ := bind_eq_done.1 hrun
      obtain ⟨rfl, rfl⟩ := pure_eq_done.1 hrun
      obtain ⟨-, ts, hlen, hts, hrep⟩ := hitem c hc hs a x ha
      obtain ⟨us, hus, hrep'⟩ := ih (hts.ended hc) as y has
      refine ⟨ts ++ us, hts.trans hus, fun bound hbound d e he hd => ?_⟩
      simp only [List.length_append] at hbound
      have hd₁ : d.remaining = ts.map ρ.token ++ (us.map ρ.token ++ [e]) := by simp [hd]
      have hs' : starts d = true := hlooks.same c a x ts d _ hc hs ha hts hd₁
      have hcut : Cut ρ x.remaining (us.map ρ.token ++ [e]) := by
        rw [hus.remaining]
        exact Cut.append us (.here (by rw [he]; rfl))
      obtain ⟨b, d₁, hb, hd₁', hR⟩ | ⟨hdeep, hover⟩ :=
        hrep ts.length (Nat.le_refl _) _ hcut d hd₁ (by omega)
      · have hrem : d₁.remaining = us.map ρ.token ++ [e] :=
          (List.append_cancel_left (hd₁.symm.trans hd₁'.remaining)).symm
        have hagain := hrep' (bound - 1) (by omega) d₁ e he hrem
        rw [show bound - 1 + 1 = bound by omega] at hagain
        obtain ⟨bs, d₂, hbs, hd₂, hRs⟩ | ⟨hdeep, hover⟩ := hagain
        · refine .inl ⟨b :: bs, d₂, ?_, ?_, .cons hR hRs⟩
          · rw [manyUpTo, test_bind, hs', if_pos rfl, bind_done hb, bind_done hbs, pure_apply]
          · rw [List.map_append]
            exact hd₁'.trans hd₂
        · refine .inr ⟨hdeep, ?_⟩
          simp only [Overflows, manyUpTo, test_bind, hs', if_true]
          exact Overflows.bind_of_done hb (hover.bind _)
      · refine .inr ⟨hdeep, ?_⟩
        simp only [Overflows, manyUpTo, test_bind, hs', if_true]
        exact hover.bind _
    · obtain ⟨rfl, rfl⟩ := pure_eq_done.1 hrun
      refine ⟨[], .refl _, fun bound _ d e he hd => .inl ⟨[], d, ?_, .refl _, .nil⟩⟩
      have hs : starts d = false := hstop d (by rw [(Cursor.current_of_remaining hd).1, he])
      simp [manyUpTo, hs]

end Alone

section

variable {operand operand' : Parser (Expr Span)} {starts : Cursor → Bool} {item item' : Parser β}
  {build : Int → Expr Span → β → Expr Span}

/-- A chain with no more than the given number of links. -/
def chainUpTo (operand : Parser (Expr Span)) (starts : Cursor → Bool) (item : Parser β)
    (build : Int → Expr Span → β → Expr Span) (links : Nat) : Parser (Expr Span) := do
  let s ← start
  let e ← operand
  let xs ← manyUpTo starts item links
  return xs.foldl (build s) e

theorem chainUpTo_alone {R : β → β → Prop} (ho : Follows ρ deep operand operand' (Expr.map ρ.span))
    (h : ∀ file, Links ρ deep starts item item' build R file)
    (hstop : ∀ d : Cursor, d.current.kind = .eof → starts d = false) (links : Nat) (hc : c.Ended) :
    Alone ρ deep 1 (chainUpTo operand starts item build links) (chain operand' starts item' build)
      (fun a b => b = a.map ρ.span) file c := by
  unfold chainUpTo chain
  refine .start (Nat.le_refl 1) (.bind hc (Nat.le_refl 1) (ho file c hc) fun e e' d _ hd he => ?_)
  have hmany := Alone.many (h file).looks (h file).steady hstop links hd
  intro a c' hrun
  obtain ⟨xs, c₁, hxs, hrun⟩ := bind_eq_done.1 hrun
  obtain ⟨rfl, rfl⟩ := pure_eq_done.1 hrun
  obtain ⟨ts, hlen, hcons, hrep⟩ := hmany xs c₁ hxs
  refine ⟨ts, hlen, hcons, fun d' x hx hd' => ?_⟩
  obtain ⟨ys, d₁, hys, hd₁, hR⟩ | ⟨hdeep, hover⟩ := hrep d' x hx hd'
  · refine .inl ⟨_, d₁, bind_done hys, hd₁, ?_⟩
    rw [he]
    exact foldl_natural (fun e x y hxy => (h file).build _ e x y hxy) hR e
  · exact .inr ⟨hdeep, hover.bind _⟩

end

/-! What reads a part with nothing behind it, and what reads it just so. -/

/-- Wherever the first parser succeeds, or stops because of too deep nesting, the second one does so
in the same way. -/
def Refines (q q' : Parser α) : Prop :=
  ∀ file d, (∀ a d', q file d = .done a d' → q' file d = .done a d') ∧
    (q.Overflows file d → q'.Overflows file d)

theorem Refines.bind {q q' : Parser α} (h : Refines q q') (k : α → Parser β) :
    Refines (q >>= k) (q' >>= k) := by
  intro file d
  refine ⟨fun b d' hrun => ?_, fun ⟨r, d', hrun, hr⟩ => ?_⟩
  · obtain ⟨a, x, ha, hb⟩ := bind_eq_done.1 hrun
    exact (bind_done ((h file d).1 a x ha)).trans hb
  · cases hq : q file d with
    | done a x =>
      rw [bind_done hq] at hrun
      exact .bind_of_done ((h file d).1 a x hq) ⟨r, d', hrun, hr⟩
    | failed e x =>
      rw [bind_failed hq] at hrun
      cases hrun
      exact Overflows.bind ((h file d).2 ⟨r, d', hq, hr⟩) k

theorem Refines.chain {operand operand' : Parser (Expr Span)} (h : Refines operand operand')
    (starts : Cursor → Bool) (item : Parser β) (build : Int → Expr Span → β → Expr Span) :
    Refines (chain operand starts item build) (chain operand' starts item build) :=
  fun file d => h.bind (fun e => do
    let xs ← many starts item
    return xs.foldl (build d.current.span.start) e) file d

/-- A cursor on a token of the file, with an end marker somewhere behind it. -/
structure Fair (file : String) (c : Cursor) : Prop where
  ended : c.Ended
  proper : Lexeme.Proper c.current.lexeme
  file : c.current.span.file = file

/-- What the first parser reads up to the end of the input is all that the second one reads. -/
def Lifts (q q' : Parser α) : Prop :=
  ∀ file d, Fair file d →
    (∀ a d', q file d = .done a d' → d'.current.kind = .eof → q' file d = .done a d') ∧
    (q.Overflows file d → q'.Overflows file d)

theorem Refines.lifts {q q' : Parser α} (h : Refines q q') : Lifts q q' :=
  fun file d _ => ⟨fun a d' hrun _ => (h file d).1 a d' hrun, (h file d).2⟩

theorem Lifts.trans {p q r : Parser α} (h : Lifts p q) (h' : Lifts q r) : Lifts p r :=
  fun file d hd => ⟨fun a d' hrun hk => (h' file d hd).1 a d' ((h file d hd).1 a d' hrun hk) hk,
    fun hover => (h' file d hd).2 ((h file d hd).2 hover)⟩

theorem Alone.lift {p : Parser α} {q q' : Parser β} {R : α → β → Prop}
    (h : Alone ρ deep 1 p q R file c) (hq : Lifts q q') (hc : Fair file c) :
    Alone ρ deep 1 p q' R file c := by
  intro a c' hrun
  obtain ⟨ts, hlen, hcons, hrep⟩ := h a c' hrun
  refine ⟨ts, hlen, hcons, fun d e he hd => ?_⟩
  have hcur := SteadyUpTo.current_eq hcons.remaining hd hlen
  have hd' : Fair (ρ.file file) d := by
    refine ⟨⟨_, e, hd, he⟩, ?_, ?_⟩
    · rw [hcur]
      exact hc.proper
    · rw [hcur, ← hc.file]
      rfl
  obtain ⟨b, x, hb, hx, hR⟩ | ⟨hdeep, hover⟩ := hrep d e he hd
  · have hrem : x.remaining = [e] :=
      (List.append_cancel_left (hd.symm.trans hx.remaining)).symm
    have hk : x.current.kind = .eof := by rw [(Cursor.current_of_remaining hrem).1, he]
    exact .inl ⟨b, x, (hq _ d hd').1 b x hb hk, hx, hR⟩
  · exact .inr ⟨hdeep, (hq _ d hd').2 hover⟩

theorem manyUpTo_of_stop {starts : Cursor → Bool} {item : Parser α} {d : Cursor}
    (hs : starts d = false) (m : Nat) : manyUpTo starts item m file d = .done [] d := by
  cases m with
  | zero => rfl
  | succ m =>
    rw [manyUpTo, test_bind, hs]
    rfl

theorem many_of_stop {starts : Cursor → Bool} {item : Parser α} {d : Cursor} (hs : starts d = false) :
    many starts item file d = .done [] d := manyUpTo_of_stop hs _

theorem lifts_chain {operand : Parser (Expr Span)} {starts : Cursor → Bool} {item : Parser β}
    {build : Int → Expr Span → β → Expr Span}
    (hstop : ∀ d : Cursor, d.current.kind = .eof → starts d = false) :
    Lifts operand (chain operand starts item build) := by
  intro file d _
  refine ⟨fun e d' hrun hk => ?_, fun h => ?_⟩
  · rw [chain, start_bind, bind_done hrun, bind_done (many_of_stop (hstop d' hk))]
    rfl
  · rw [Overflows, chain, start_bind]
    exact h.bind _

section

variable {ε : Type} {f : Family ε} {element : Parser ε}

theorem startsAtom_eof {d : Cursor} (hk : d.current.kind = .eof) : f.startsAtom d = false := by
  rw [Family.startsAtom, hk]

theorem atom_of_not_startsAtom (element : Parser ε) {d : Cursor} (hs : f.startsAtom d = false) :
    atom f element file d = unexpected f.category (.category f.category) file d := by
  have hleaf : leaf f file d = unexpected f.category (.category f.category) file d := by
    rw [Family.startsAtom] at hs
    rw [leaf, current_bind]
    cases hk : d.current.kind with
    | boolean =>
      have hb : f.booleans = false := by simpa only [hk] using hs
      simp [hb]
    | _ => simp only [hk] at hs ⊢ <;> contradiction
  have hk : d.current.kind ≠ .lparen := by
    rintro hk
    simp [Family.startsAtom, hk] at hs
  rw [atom, current_bind, if_neg hk]
  exact bind_failed hleaf

theorem not_overflows_unexpected {cat : Category} {e : Expected} {p : Parser α}
    (h : p file c = unexpected cat e file c) :
    (∀ a c', p file c ≠ .done a c') ∧ ¬ p.Overflows file c := by
  refine ⟨fun a c' hrun => ?_, fun ⟨r, d, hrun, hr⟩ => ?_⟩
  · rw [h] at hrun
    exact unexpected_ne_done.1 hrun
  · rw [h, unexpected] at hrun
    cases hrun
    cases hr

/-- What an atom is read as where one starts is what it is read as. -/
theorem refines_of_startsAtom {p : Parser ε}
    (h : ∀ file d, f.startsAtom d = true → p file d = atom f element file d) :
    Refines (atom f element) p := by
  intro file d
  cases hs : f.startsAtom d with
  | true => exact ⟨fun a d' hrun => (h file d hs).trans hrun, fun hover => by rwa [Overflows, h file d hs]⟩
  | false =>
    obtain ⟨hdone, hover⟩ := not_overflows_unexpected (atom_of_not_startsAtom element hs)
    exact ⟨fun a d' hrun => absurd hrun (hdone a d'), fun h => absurd h hover⟩

end

/-- Parsers with room for nesting read what a parser over them reads just so. -/
theorem Alone.all_depths {p : Parser α} {q whole : Nat → Parser β} {R : α → β → Prop} {d : Nat}
    (hdeep : ∀ file c, (whole 0).Overflows file c) (hlift : ∀ depth, Lifts (q depth) (whole (depth + 1)))
    (h : ∀ depth, Alone ρ (depth < d) 1 p (q depth) R file c) (hc : Fair file c) (depth : Nat) :
    Alone ρ (depth < d + 1) 1 p (whole depth) R file c := by
  intro a c' hrun
  cases depth with
  | zero =>
    obtain ⟨ts, hlen, hcons, -⟩ := h 0 a c' hrun
    exact ⟨ts, hlen, hcons, fun d _ _ _ => .inr ⟨Nat.succ_pos _, hdeep _ d⟩⟩
  | succ depth =>
    obtain ⟨ts, hlen, hcons, hrep⟩ := (h depth).lift (hlift depth) hc a c' hrun
    exact ⟨ts, hlen, hcons, fun d e he hd => (hrep d e he hd).imp_right
      fun hover => ⟨Nat.succ_lt_succ hover.1, hover.2⟩⟩

/-! Expressions. -/

section

variable {inner : Parser (Expr Span)} {pattern : Parser (Pattern Span)} {type : Parser (Ty Span)}

theorem startsSuffix_eof {d : Cursor} (hk : d.current.kind = .eof) : startsSuffix d = false := by
  simp [startsSuffix, startsRecord, Cursor.isAt, hk]

theorem refines_atom_primary : Refines (atom .expression inner) (primary inner pattern) := by
  refine refines_of_startsAtom fun file d hs => ?_
  rw [primary, current_bind]
  have hs' := hs
  rw [Family.startsAtom] at hs'
  cases hk : d.current.kind <;> simp only [hk] at hs' ⊢ <;> first
    | rw [test_bind, if_pos hs]
    | contradiction

theorem refines_block_primary : Refines (block inner pattern) (primary inner pattern) := by
  intro file d
  by_cases hk : d.current.kind = .lbrace
  · have heq : primary inner pattern file d = block inner pattern file d := by
      rw [primary, current_bind]
      simp only [hk]
    exact ⟨fun a d' hrun => heq.trans hrun, fun hover => by rwa [Overflows, heq]⟩
  · have hrefused : block inner pattern file d = unexpected .expression (.kind .lbrace) file d := by
      have hexpect : expect .expression .lbrace file d =
          unexpected .expression (.kind .lbrace) file d := by
        rw [expect, test_bind, if_neg (by simpa [Cursor.isAt] using hk)]
      rw [block, located, start_bind, bind_assoc]
      exact bind_failed hexpect
    obtain ⟨hdone, hover⟩ := not_overflows_unexpected hrefused
    exact ⟨fun a d' hrun => absurd hrun (hdone a d'), fun h => absurd h hover⟩

theorem lifts_operand : Lifts (withSuffixes inner (primary inner pattern)) (application inner pattern) :=
  lifts_chain fun _ hk => startsAtom_eof hk

theorem lifts_primary : Lifts (primary inner pattern) (application inner pattern) :=
  Lifts.trans (lifts_chain fun _ hk => startsSuffix_eof hk) lifts_operand

theorem lifts_argument :
    Lifts (withSuffixes inner (atom .expression inner)) (application inner pattern) :=
  (refines_atom_primary.chain startsSuffix (closing (suffix inner)) Suffix.apply).lifts.trans
    lifts_operand

theorem lifts_tier {binds : TokenKind → Bool} (hbinds : binds .eof = false)
    {operand : Parser (Expr Span)} : Lifts operand (tier binds operand) :=
  lifts_chain fun d hk => by rw [hk, hbinds]

/-- The loops of both tiers of operators. -/
def operations (operand : Parser (Expr Span)) : Parser (Expr Span) :=
  tier TokenKind.isAdditive (tier TokenKind.isMultiplicative operand)

theorem lifts_operations
    (happ : ∀ file c, c.Ended → (application inner pattern).Shortens file c) :
    Lifts (operations (application inner pattern)) (expressionWithin inner pattern type) := by
  intro file d hd
  rw [operations, expressionWithin, Overflows, Overflows, start_bind,
    ← climb_eq_tiers (fun c hc => happ file c hc) hd.ended]
  refine ⟨fun e d' hrun hk => ?_, fun h => Overflows.bind h _⟩
  rw [bind_done hrun, test_bind, if_neg (by simp [Cursor.isAt, hk])]
  rfl

end

theorem lifts_expression (depth : Nat) :
    Lifts (operations (application (expression depth) (pattern (depth + 1)))) (expression (depth + 1)) :=
  lifts_operations fun _ _ hc => application_shortens depth hc

/-! Patterns and types. -/

theorem lifts_pattern {inner : Parser (Pattern Span)} :
    Lifts (atom .pattern inner) (patternWithin inner) := by
  intro file d hd
  by_cases hk : d.current.kind = .typeIdentifier
  · -- a capitalised name is a constructor either way
    have hne : d.current.kind ≠ .lparen := by simp [hk]
    have hatom : atom .pattern inner file d =
        .done (.constructor d.current.text [] d.current.span) d.advance := by
      have hup : isUpperName d.current.text = true := by
        have hproper := hd.proper
        rwa [Token.lexeme, hk] at hproper
      rw [atom, current_bind, if_neg hne]
      have hleaf : leaf Family.pattern file d = .done (.name d.current.text) d.advance := by
        rw [leaf, current_bind]
        simp only [hk]
        rfl
      rw [bind_done hleaf, pure_apply]
      have hcapital := any_isCapital_of_isName (isName_of_isUpperName hup)
      simp only [isUpperName, Bool.and_eq_true] at hup
      simp [Family.pattern, Family.patternOfLeaf, hcapital, hup.2]
    refine ⟨fun a d' hrun heof => ?_, fun h => ?_⟩
    rotate_left
    · obtain ⟨r, d', hrun, -⟩ := h
      simp [hatom] at hrun
    rw [hatom] at hrun
    cases hrun
    rw [patternWithin, current_bind, if_pos hk, advance_bind, bind_done (many_of_stop (startsAtom_eof heof)),
      spanFrom_bind, Cursor.advance_lastEnd, ← hd.file]
    rfl
  · have heq : patternWithin inner file d = atom .pattern inner file d := by
      rw [patternWithin, current_bind, if_neg hk]
    exact ⟨fun a d' hrun _ => heq.trans hrun, fun hover => by rwa [Overflows, heq]⟩

theorem lifts_typeAtom {inner : Parser (Ty Span)} :
    Lifts (atom .type inner) (typeApplication inner) := by
  intro file d hd
  by_cases hk : d.current.kind = .typeIdentifier
  · have hne : d.current.kind ≠ .lparen := by simp [hk]
    have hatom : atom .type inner file d = .done (.var d.current.text d.current.span) d.advance := by
      have hleaf : leaf Family.type file d = .done (.name d.current.text) d.advance := by
        rw [leaf, current_bind]
        simp only [hk]
        rfl
      rw [atom, current_bind, if_neg hne, bind_done hleaf]
      rfl
    refine ⟨fun a d' hrun heof => ?_, fun h => ?_⟩
    rotate_left
    · obtain ⟨r, d', hrun, -⟩ := h
      simp [hatom] at hrun
    rw [hatom] at hrun
    cases hrun
    rw [typeApplication, current_bind, if_pos hk, advance_bind, bind_done (many_of_stop (startsAtom_eof heof))]
    rfl
  · have heq : typeApplication inner file d = atom .type inner file d := by
      rw [typeApplication, current_bind, if_neg hk]
    exact ⟨fun a d' hrun _ => heq.trans hrun, fun hover => by rwa [Overflows, heq]⟩

theorem lifts_typeApplication (depth : Nat) :
    Lifts (typeApplication (type depth)) (type (depth + 1)) := by
  intro file d hd
  have heq : type (depth + 1) file d = _ :=
    typeWithin_eq (fun _ hc => typeApplication_shortens depth hc) hd.ended
  by_cases hk : d.isAt .kwForall = true
  · -- no application begins with such a keyword
    have hs : Family.type.startsAtom d = false := by
      rw [Family.startsAtom, Cursor.kind_of_isAt hk]
    have hrefused : atom .type (type depth) file d = _ := atom_of_not_startsAtom (type depth) hs
    have happ : typeApplication (type depth) file d = atom .type (type depth) file d := by
      rw [typeApplication, current_bind, if_neg (by simp [Cursor.kind_of_isAt hk])]
    obtain ⟨hdone, hover⟩ := not_overflows_unexpected (happ.trans hrefused)
    exact ⟨fun a d' hrun => absurd hrun (hdone a d'), fun h => absurd h hover⟩
  · rw [Overflows, Overflows, heq, test_bind, if_neg hk, start_bind]
    refine ⟨fun t d' hrun heof => ?_, fun h => Overflows.bind h _⟩
    rw [bind_done hrun, test_bind, if_neg (by simp [Cursor.isAt, heof])]
    rfl

end TinyFront.Parser
