import TinyFront.Proofs.Alone
import TinyFront.Proofs.Viable

/-!
Viable runs with a phrase of their own: what a parser takes where nothing of its phrase has been read
yet. The rules put such phrases together, so that what is left of a refused phrase can be filled in;
then come the loops, which are filled in with nothing.
-/
namespace TinyFront

open Grammar

instance : Nonempty (Expr Span) := ⟨.leaf .unit default⟩

instance : Nonempty (Pattern Span) := ⟨.leaf .unit default⟩

instance : Nonempty (Ty Span) := ⟨.leaf .unit default⟩

namespace Parser

variable {ι κ α β γ : Type} {n l : Nat} {s s' : Sym} {w w' : List TokenKind} {file : String}
  {c : Cursor}

abbrev Like (t : Token) : Type := { u : Token // u.lexeme = t.lexeme }

theorem exists_like (k : TokenKind) : ∃ t : Token, t.kind = k ∧ t.lexeme = sample k :=
  ⟨⟨(sample k).1, (sample k).2, default⟩, sample_fst k, rfl⟩

namespace Fills

variable {P : Nat → ι → Parser β} {P' : Nat → κ → Parser β}

theorem of_sort (h : Fills n s' w P) (hs : ∀ k, s'.goesOn k = true → s.goesOn k = true) :
    Fills n s w P := ⟨h.fair, fun m hm x R hR => h.takes m hm x R (hR.mono hs)⟩

theorem reindex (h : Fills n s w P) (f : κ → ι) : Fills n s w fun m x => P m (f x) :=
  ⟨h.fair, fun m hm x => h.takes m hm (f x)⟩

theorem congr (h : Fills n s w P')
    (hP : ∀ m, n < m → ∀ x file d, d.Ended → ∃ y, P m x file d = P' m y file d) : Fills n s w P := by
  refine ⟨h.fair, fun m hm x R hR file d hd hx => ?_⟩
  obtain ⟨y, hy⟩ := hP m hm x file d hd
  rw [hy]
  exact h.takes m hm y R hR file d hd hx

theorem quiet (h : ∀ m x, (P m x).Quiet) : Fills n s [] P :=
  ⟨by simp, fun m _ x _ _ => .quiet (h m x)⟩

theorem bind {Q : Nat → Parser α} {L : Nat → ι → α → Parser γ}
    (hQ : Fills n s' w fun m (_ : Unit) => Q m) (hL : Fills n s w' fun m (x : ι × α) => L m x.1 x.2)
    (hends : ∀ R, Ends s R → Ends s' (w'.map sample ++ R)) :
    Fills n s (w ++ w') fun m x => Q m >>= L m x := by
  refine ⟨by simp [hQ.fair, hL.fair], fun m hm x R hR => ?_⟩
  rw [List.map_append]
  exact .bind (hQ.takes m hm () _ (hends R hR)) fun a => hL.takes m hm (x, a) R hR

theorem branch {k : TokenKind} (h : Fills n s (k :: w) P')
    (hP : ∀ m, n < m → ∀ x file d, d.Ended → d.current.lexeme = sample k →
      ∃ y, P m x file d = P' m y file d) : Fills n s (k :: w) P := by
  refine ⟨h.fair, fun m hm x R hR file d hd hx => ?_⟩
  obtain ⟨y, hy⟩ := hP m hm x file d hd (Cursor.current_lexeme hx)
  rw [hy]
  exact h.takes m hm y R hR file d hd hx

theorem step {k : TokenKind} {Q : Nat → κ → Parser β} (hk : k ≠ .eof) (h : Fills n s w Q)
    (hP : ∀ m, n < m → ∀ x file d, d.Ended → d.current.lexeme = sample k →
      ∃ y, P m x file d = Q m y file d.advance) : Fills n s (k :: w) P := by
  refine ⟨by simp [hk.symm, h.fair], fun m hm x R hR file d hd hx => ?_⟩
  have hlex : d.current.lexeme = sample k := Cursor.current_lexeme hx
  have hne : d.current.kind ≠ .eof := by
    rwa [show d.current.kind = k from (congrArg Prod.fst hlex).trans (sample_fst k)]
  obtain ⟨y, hy⟩ := hP m hm x file d hd hlex
  have hstep := hd.consumes_advance hne
  obtain ⟨b, d', ts, hrun, hts, hw⟩ := h.takes m hm y R hR file d.advance (hd.advance hne)
    (hstep.lexemes_eq (show d.lexemes = [sample k] ++ (w.map sample ++ R) from hx) (by simp [hlex]))
  exact ⟨b, d', _, by rw [hy, hrun], hstep.trans hts, by simp [hlex, hw]⟩

theorem perhaps {j : TokenKind} {b : Nat → ι → β} (hgoes : s.goesOn j = true) :
    Fills n s [] fun m x => (do
      if ← test (·.isAt j) then let _ ← Parser.advance; P m x else return b m x : Parser β) := by
  refine ⟨by simp, fun m _ x R hR file d _ hx => ⟨b m x, d, [], ?_, .refl d, rfl⟩⟩
  rw [test_bind, if_neg (by simp [isAt_of_ends hR hgoes (show d.lexemes = R from hx)]), pure_apply]

end Fills

namespace Mends

variable {p p' : Parser α} {P : Nat → ι → Parser β} {P' : Nat → κ → Parser β}

theorem of_sort (h : Mends n l s' w p P file c) (hs : ∀ k, s'.goesOn k = true → s.goesOn k = true) :
    Mends n l s w p P file c := ⟨h.fills.of_sort hs, h.viable.of_sort hs⟩

theorem reindex (h : Mends n l s w p P file c) (f : κ → ι) :
    Mends n l s w p (fun m x => P m (f x)) file c := ⟨h.fills.reindex f, h.viable.reindex f⟩

theorem weaken {l' : Nat} (h : Mends n l s w p P file c) (hl : l' ≤ l) : Mends n l' s w p P file c :=
  ⟨h.fills, h.viable.weaken hl⟩

theorem congr (h : Mends n l s w p' P' file c) (hp : p file c = p' file c)
    (hP : ∀ m, n ≤ m → ∀ x file d, d.Ended → ∃ y, P m x file d = P' m y file d) :
    Mends n l s w p P file c :=
  ⟨h.fills.congr fun m hm => hP m (Nat.le_of_lt hm), h.viable.congr hp hP⟩

theorem quiet (hp : p.Quiet) (hP : ∀ m x, (P m x).Quiet) : Mends n 0 s [] p P file c :=
  ⟨.quiet hP, .quiet hp hP⟩

theorem pure {a : α} {b : Nat → ι → β} :
    Mends n 0 s [] (pure a : Parser α) (fun m x => (Pure.pure (b m x) : Parser β)) file c :=
  .quiet (.pure a) fun m x => .pure (b m x)

section bind

variable {t : Sym} {i : Nat} {v : List TokenKind} {k : α → Parser β} {Q : Nat → Parser α}
  {L : Nat → ι → α → Parser γ}

theorem bind [Nonempty α] (hc : TokenStream c.remaining)
    (hp : Mends n l t v p (fun m (_ : Unit) => Q m) file c)
    (hk : ∀ a c', TokenStream c'.remaining →
      Mends n i s w (k a) (fun m (x : ι × α) => L m x.1 x.2) file c')
    (hlast : 1 ≤ i ∨ ∀ j, t.goesOn j = true → s.goesOn j = true)
    (hends : ∀ R, Ends s R → Ends t (w.map sample ++ R))
    (hj : t.goesOn .dot = true → Respects n k L file) :
    Mends n l s (v ++ w) (p >>= k) (fun m x => Q m >>= L m x) file c := by
  obtain ⟨a⟩ := ‹Nonempty α›
  have hfill := (hk a c hc).fills
  exact ⟨hp.fills.bind hfill hends,
    hp.viable.bind hc hfill (fun a c' _ hc' => (hk a c' hc').viable) hlast hends hj⟩

end bind

theorem last {δ : Type} {k : α → Parser γ} {L : Nat → ι → β → Parser δ} (h : Mends n l s w p P file c)
    (hk : ∀ a, (k a).Quiet) (hL : ∀ m x b, (L m x b).Quiet) :
    Mends n l s w (p >>= k) (fun m x => P m x >>= L m x) file c where
  fills := ⟨h.fills.fair, fun m hm x R hR => .bind_quiet (h.fills.takes m hm x R hR) (hL m x)⟩
  viable := h.viable.last hk hL

/-- What is looked at before a phrase does not count. -/
theorem after_quiet {q : Parser γ} {k : γ → Parser α} {Q : Parser κ} {L : Nat → ι → κ → Parser β}
    (hq : q.Quiet) (hQ : Q.Quiet)
    (h : ∀ a, Mends n l s w (k a) (fun m (x : ι × κ) => L m x.1 x.2) file c) :
    Mends n l s w (q >>= k) (fun m x => Q >>= L m x) file c := by
  obtain ⟨a, ha⟩ := hq file c
  refine (h a).congr (by rw [bind_done ha]) fun m _ x file d _ => ?_
  obtain ⟨b, hb⟩ := hQ file d
  exact ⟨(x, b), by rw [bind_done hb]⟩

theorem located {p : Parser (Span → α)} {P : Nat → ι → Parser (Span → β)}
    (h : Mends n l s w p P file c) :
    Mends n l s w (located p) (fun m x => Parser.located (P m x)) file c := by
  refine .after_quiet .start .start fun _ => (h.reindex Prod.fst).last (fun _ => ?_) fun _ _ _ => ?_
  all_goals exact .bind (.spanFrom _) fun _ => .pure _

theorem closing (h : Mends n l s w p P file c) :
    Mends n l s w (closing p) (fun m x => Parser.closing (P m x)) file c := by
  refine h.last (fun _ => ?_) fun _ _ _ => ?_
  all_goals exact .bind .close fun _ => .pure _

theorem advance {j : TokenKind} {k : Token → Parser α} {L : Nat → ι → Token → Parser β}
    (hc : TokenStream c.remaining) (hj : j ≠ .eof) (hcur : c.current.kind = j)
    (hk : ∀ t : Token, t.kind = j → ∀ c', TokenStream c'.remaining →
      Mends n l s w (k t) (fun m (x : ι × Like t) => L m x.1 x.2) file c') :
    Mends n 1 s (j :: w) (advance >>= k) (fun m x => Parser.advance >>= L m x) file c := by
  obtain ⟨t, ht, hlex⟩ := exists_like j
  refine ⟨(hk t ht c hc).fills.step hj fun m _ x file d _ hd => ⟨(x, ⟨d.current, hd.trans hlex.symm⟩), rfl⟩,
    ?_⟩
  have hne : c.current.kind ≠ .eof := by rwa [hcur]
  exact .skip_token hc hj hcur rfl (fun m _ x file d _ _ hd => ⟨(x, ⟨d.current, hd⟩), rfl⟩)
    (hk c.current hcur c hc).fills (hk c.current hcur _ (hc.advance hne).1).viable

/-- A run that begins with tokens which are consumed whatever stands behind them. -/
theorem skip {ts : List Token} {c₁ : Cursor} (h : Mends n l s w p' P' file c₁)
    (hc : TokenStream c.remaining) (hts : c.Consumes ts c₁) (hp : p file c = p' file c₁)
    (hP : ∀ m, n ≤ m → ∀ x file d us d₁, d.Ended → d.Consumes us d₁ →
      us.map Token.lexeme = ts.map Token.lexeme → ∃ y, P m x file d = P' m y file d₁) :
    Viable n ts.length s p P file c := h.viable.skip hc hts hp hP h.fills

theorem bind_expect_of_ne {cat : Category} {j : TokenKind} {k : Token → Parser α}
    (h : c.current.kind ≠ j) : (Parser.expect cat j >>= k) file c =
      .failed (.rejected ⟨.unexpected (.kind j) c.current.kind c.current.text, cat, c.current.span⟩) c := by
  refine bind_failed ?_
  have hat : c.isAt j = false := by simpa [Cursor.isAt] using h
  simp [Parser.expect, hat, unexpected]

theorem bind_expect_of_eq {cat : Category} {j : TokenKind} {k : Token → Parser α}
    (h : c.current.kind = j) : (Parser.expect cat j >>= k) file c = (Parser.advance >>= k) file c := by
  rw [bind_done (expect_eq_done.2 ⟨h, rfl, rfl⟩), advance_bind]

end Mends

theorem kind_of_agree {c d : Cursor} (h : Agree n c.lexemes d.lexemes) (hn : 0 < n) :
    d.current.kind = c.current.kind := by
  rw [c.current_kind_eq, d.current_kind_eq, h.headKind hn]

theorem lexeme_of_agree {c d : Cursor} (h : Agree n c.lexemes d.lexemes) (hn : 0 < n)
    (hk : c.current.kind ≠ .eof) : d.current.lexeme = c.current.lexeme := by
  have hc : seen c.lexemes 0 = some c.current.lexeme := seen_eq_some hk rfl
  exact Option.some.inj (getElem?_of_seen (hc ▸ (h 0 hn).symm))

theorem message_unexpected (e : Expected) (kind : TokenKind) (text : String) :
    (Cause.unexpected e kind text).message =
      "expected " ++ e.text ++ ", found " ++ Cause.found kind text := rfl

/-- A token that is not there is told apart in the same way wherever the same is seen. -/
theorem report_unexpected {e : Expected} {cat : Category} {c d : Cursor} {sp sp' : Span}
    (h : Agree 3 c.lexemes d.lexemes) :
    Rejection.report ⟨.unexpected e d.current.kind d.current.text, cat, sp⟩ =
      Rejection.report ⟨.unexpected e c.current.kind c.current.text, cat, sp'⟩ := by
  have hk : d.current.kind = c.current.kind := kind_of_agree h (by decide)
  have hfound : Cause.found d.current.kind d.current.text = Cause.found c.current.kind c.current.text := by
    by_cases he : c.current.kind = .eof
    · simp [Cause.found, hk, he, TokenKind.showsText]
    · rw [hk, show d.current.text = c.current.text from
        congrArg Prod.snd (lexeme_of_agree h (by decide) he)]
  simp [Rejection.report, Cause.code, message_unexpected, hfound]

namespace Viable

variable {P : Nat → ι → Parser β} {P' : Nat → κ → Parser β}

theorem at_kind {p p' : Parser α} (h : Viable n 1 s p' P' file c) (hp : p file c = p' file c)
    (hP : ∀ m x file d, d.current.kind = c.current.kind → ∃ y, P m x file d = P' m y file d) :
    Viable n 1 s p P file c :=
  h.branch (by decide) (by decide) hp fun m _ x file d _ ha =>
    hP m x file d (kind_of_agree ha (by decide))

theorem unexpected {p : Parser α} {e : Expected} {q : Category}
    (h : p file c = Parser.unexpected q e file c)
    (hP : ∀ m, n ≤ m → ∀ x file d, d.Ended → d.current.kind = c.current.kind →
      Agree 3 c.lexemes d.lexemes → P m x file d = Parser.unexpected q e file d) :
    Viable n l s p P file c :=
  .refuse h rfl fun m hm x file d hd ha =>
    ⟨_, d, hP m hm x file d hd (kind_of_agree ha (by decide)) ha, rfl, report_unexpected ha⟩

end Viable

namespace Mends

variable {n l : Nat} {s : Sym} {w : List TokenKind}

theorem expect {cat : Category} {j : TokenKind} {k : Token → Parser α} {L : Nat → ι → Token → Parser β}
    (hc : TokenStream c.remaining) (hj : j ≠ .eof)
    (hk : ∀ t : Token, t.kind = j → ∀ c', TokenStream c'.remaining →
      Mends n l s w (k t) (fun m (x : ι × Like t) => L m x.1 x.2) file c') :
    Mends n 1 s (j :: w) (Parser.expect cat j >>= k) (fun m x => Parser.expect cat j >>= L m x) file c := by
  obtain ⟨t, ht, hlex⟩ := exists_like j
  refine ⟨(hk t ht c hc).fills.step hj fun m _ x file d _ hd => ⟨(x, ⟨d.current, hd.trans hlex.symm⟩), ?_⟩,
    ?_⟩
  · rw [bind_expect_of_eq ((congrArg Prod.fst hd).trans (sample_fst j)), advance_bind]
  by_cases hcur : c.current.kind = j
  · refine (advance hc hj hcur hk).viable.branch (by decide) (by decide) (bind_expect_of_eq hcur)
      fun m _ x file d _ ha => ⟨x, bind_expect_of_eq ?_⟩
    rw [kind_of_agree ha (by decide), hcur]
  · refine .unexpected (e := .kind j) (q := cat) (bind_expect_of_ne hcur) fun m _ x file d _ hd _ =>
      bind_expect_of_ne (by rwa [hd])

theorem expectClosing {cat : Category} {o j : TokenKind} {k : Token → Parser α}
    {L : Nat → ι → Token → Parser β} (hc : TokenStream c.remaining) (hj : j ≠ .eof)
    (hk : ∀ t : Token, t.kind = j → ∀ c', TokenStream c'.remaining →
      Mends n l s w (k t) (fun m (x : ι × Like t) => L m x.1 x.2) file c') :
    Mends n 1 s (j :: w) (Parser.expectClosing cat o j >>= k)
      (fun m x => Parser.expectClosing cat o j >>= L m x) file c := by
  have heq : ∀ {δ : Type} (k : Token → Parser δ) (file : String) (c : Cursor), c.current.kind = j →
      (Parser.expectClosing cat o j >>= k) file c = (Parser.advance >>= k) file c := by
    intro δ k file c h
    rw [bind_done (expectClosing_eq_done.2 ⟨h, rfl, rfl⟩), advance_bind]
  have hne : ∀ {δ : Type} (k : Token → Parser δ) (file : String) (c : Cursor), c.current.kind ≠ j →
      (Parser.expectClosing cat o j >>= k) file c =
        if c.current.kind = .eof then (reject cat (.unclosed o j) : Parser δ) file c
        else (Parser.unexpected cat (.kind j) : Parser δ) file c := by
    intro δ k file c h
    have hat : c.isAt j = false := by simpa [Cursor.isAt] using h
    by_cases heof : c.current.kind = .eof
    · rw [if_pos heof]
      exact bind_failed (by simp [Parser.expectClosing, hat, Cursor.isAt_iff.2 heof, reject])
    · rw [if_neg heof]
      have hateof : c.isAt .eof = false := by simpa [Cursor.isAt] using heof
      exact bind_failed (by simp [Parser.expectClosing, hat, hateof, Parser.unexpected])
  obtain ⟨t, ht, hlex⟩ := exists_like j
  refine ⟨(hk t ht c hc).fills.step hj fun m _ x file d _ hd => ⟨(x, ⟨d.current, hd.trans hlex.symm⟩), ?_⟩,
    ?_⟩
  · rw [heq _ _ _ ((congrArg Prod.fst hd).trans (sample_fst j)), advance_bind]
  by_cases hcur : c.current.kind = j
  · refine (advance hc hj hcur hk).viable.branch (by decide) (by decide) (heq _ _ _ hcur)
      fun m _ x file d _ ha => ⟨x, heq _ _ _ ?_⟩
    rw [kind_of_agree ha (by decide), hcur]
  by_cases heof : c.current.kind = .eof
  · refine .refuse (r := ⟨.unclosed o j, cat, c.current.span⟩) (b := c) ?_ rfl fun m _ x file d _ ha =>
      ⟨⟨.unclosed o j, cat, d.current.span⟩, d, ?_, rfl, rfl⟩
    · rw [hne _ _ _ hcur, if_pos heof]
      rfl
    · have hd := kind_of_agree ha (by decide)
      rw [hne _ _ _ (by rwa [hd]), if_pos (by rwa [hd])]
      rfl
  · refine .unexpected (e := .kind j) (q := cat) ?_ fun m _ x file d _ hd _ => ?_
    · rw [hne _ _ _ hcur, if_neg heof]
    · rw [hne _ _ _ (by rwa [hd]), if_neg (by rwa [hd])]

theorem perhaps {j : TokenKind} {p : Parser α} {P : Nat → ι → Parser β} {a : α} {b : Nat → ι → β}
    (hc : TokenStream c.remaining) (hj : j ≠ .eof) (hgoes : s.goesOn j = true)
    (hp : ∀ c', TokenStream c'.remaining → c'.remaining.length < c.remaining.length →
      Mends n l s w p P file c') (hfill : Fills n s w P) :
    Mends n 0 s [] (do if ← test (·.isAt j) then let _ ← Parser.advance; p else return a)
      (fun m x => do if ← test (·.isAt j) then let _ ← Parser.advance; P m x else return b m x)
      file c := by
  have hgo : ∀ {δ : Type} {q : Parser δ} {a : δ} {file : String} {d : Cursor}, d.current.kind = j →
      (do if ← test (·.isAt j) then let _ ← Parser.advance; q else return a : Parser δ) file d =
        q file d.advance := by
    intro δ q a file d hd
    rw [test_bind, if_pos (Cursor.isAt_iff.2 hd), advance_bind]
  have hnot : ∀ {δ : Type} {q : Parser δ} {a : δ} {file : String} {d : Cursor}, d.isAt j = false →
      (do if ← test (·.isAt j) then let _ ← Parser.advance; q else return a : Parser δ) file d =
        .done a d := by
    intro δ q a file d hd
    rw [test_bind, if_neg (by simp [hd]), pure_apply]
  refine ⟨.perhaps hgoes, ?_⟩
  by_cases hcur : c.current.kind = j
  · have hne : c.current.kind ≠ .eof := by rwa [hcur]
    have hlen := (hc.ended'.consumes_advance hne).length
    rw [List.length_singleton] at hlen
    exact (Viable.skip_token hc hj hcur (hgo hcur) (fun m _ x file d _ hd _ => ⟨x, hgo hd⟩) hfill
      (hp _ (hc.advance hne).1 (by omega)).viable).weaken (Nat.zero_le 1)
  · have hat : c.isAt j = false := by simpa [Cursor.isAt] using hcur
    exact .stay (hnot hat) fun m _ x file d _ hfit => ⟨_, hnot (hfit.isAt_eq_false hgoes hat)⟩

end Mends

end Parser
end TinyFront
