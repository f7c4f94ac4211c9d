import TinyFront.Proofs.Ensures
import TinyFront.Proofs.Steady

/-!
A logic for what parsers accept. Where given lexemes stand ahead, the run consumes them and nothing
behind them and has an answer of the given sort, unless the input nests too deeply for it. One rule
for each way in which parsers are built.
-/
namespace TinyFront

namespace Cursor

variable {c : Cursor} {x : Lexeme} {xs : List Lexeme}

theorem current_lexeme (h : c.lexemes = x :: xs) : c.current.lexeme = x := by
  simp only [lexemes, remaining, List.map_cons, List.cons.injEq] at h
  exact h.1

theorem current_kind (h : c.lexemes = x :: xs) : c.current.kind = x.1 :=
  congrArg Prod.fst (current_lexeme h)

theorem isAt_of_lexemes {k : TokenKind} (h : c.lexemes = x :: xs) : c.isAt k = (x.1 == k) := by
  rw [isAt, current_kind h]

theorem Ended.lexemes_advance (hc : c.Ended) (h : c.lexemes = x :: xs) (hx : x.1 ≠ .eof) :
    c.advance.Ended ∧ c.advance.lexemes = xs := by
  have hk : c.current.kind ≠ .eof := by rwa [current_kind h]
  have hcons := hc.consumes_advance hk
  refine ⟨hc.advance hk, ?_⟩
  rw [lexemes, hcons.remaining] at h
  exact (List.cons.inj h).2

end Cursor

namespace Parser

variable {α β : Type} {deep : Prop} {xs ys R : List Lexeme} {x : Lexeme}

/-- Where the lexemes `xs` stand before `R`, the run consumes the former. -/
def Accepts (deep : Prop) (p : Parser α) (xs R : List Lexeme) (Q : α → Prop) : Prop :=
  ∀ file c, c.Ended → c.lexemes = xs ++ R →
    (∃ a c', p file c = .done a c' ∧ c'.Ended ∧ c'.lexemes = R ∧ Q a) ∨ deep ∧ p.Overflows file c

namespace Accepts

variable {p q : Parser α} {P : α → Prop} {k : α → Parser β} {Q : β → Prop}

theorem mono {deep' : Prop} (h : p.Accepts deep xs R P) (hd : deep → deep') :
    p.Accepts deep' xs R P := by
  intro file c hc hx
  exact (h file c hc hx).imp_right fun ⟨hdeep, ho⟩ => ⟨hd hdeep, ho⟩

theorem imp {S : α → Prop} (h : p.Accepts deep xs R P) (hs : ∀ a, P a → S a) :
    p.Accepts deep xs R S := by
  intro file c hc hx
  obtain ⟨a, c', hrun, hc', hR, hP⟩ | h := h file c hc hx
  · exact .inl ⟨a, c', hrun, hc', hR, hs a hP⟩
  · exact .inr h

theorem congr (h : p.Accepts deep xs R P)
    (hpq : ∀ file c, c.Ended → q file c = p file c) : q.Accepts deep xs R P := by
  intro file c hc hx
  obtain ⟨a, c', hrun, h⟩ | ⟨hd, r, d, hrun, hr⟩ := h file c hc hx
  · exact .inl ⟨a, c', by rw [hpq file c hc, hrun], h⟩
  · exact .inr ⟨hd, r, d, by rw [hpq file c hc, hrun], hr⟩

theorem pure {a : α} (h : P a) : (pure a : Parser α).Accepts deep [] R P :=
  fun _ c hc hx => .inl ⟨a, c, rfl, hc, hx, h⟩

theorem bind (hp : p.Accepts deep xs (ys ++ R) P)
    (hk : ∀ a, P a → (k a).Accepts deep ys R Q) : (p >>= k).Accepts deep (xs ++ ys) R Q := by
  intro file c hc hx
  rw [List.append_assoc] at hx
  obtain ⟨a, d, hrun, hd, hdx, hP⟩ | ⟨hdeep, ho⟩ := hp file c hc hx
  · obtain ⟨b, d', hrun', h⟩ | ⟨hdeep, ho⟩ := hk a hP file d hd hdx
    · exact .inl ⟨b, d', by rw [bind_done hrun, hrun'], h⟩
    · exact .inr ⟨hdeep, ho.bind_of_done hrun⟩
  · exact .inr ⟨hdeep, ho.bind k⟩

theorem bind_last (hp : p.Accepts deep xs R P)
    (hk : ∀ a, P a → (k a).Accepts deep [] R Q) : (p >>= k).Accepts deep xs R Q := by
  have h : (p >>= k).Accepts deep (xs ++ []) R Q := bind hp hk
  rwa [List.append_nil] at h

theorem advance {k : Token → Parser β} (hx : x.1 ≠ .eof)
    (hk : ∀ t : Token, t.lexeme = x → (k t).Accepts deep xs R Q) :
    (advance >>= k).Accepts deep (x :: xs) R Q := by
  intro file c hc h
  obtain ⟨hd, hdx⟩ := hc.lexemes_advance h hx
  exact hk c.current (Cursor.current_lexeme h) file c.advance hd hdx

theorem token (hx : x.1 ≠ .eof) : Parser.advance.Accepts deep [x] R (·.lexeme = x) := by
  have h : (Parser.advance >>= Pure.pure).Accepts deep [x] R (·.lexeme = x) :=
    advance hx fun _ ht => pure ht
  rwa [bind_pure] at h

theorem expect {cat : Category} {j : TokenKind} {k : Token → Parser β} (hx : x.1 = j) (hj : j ≠ .eof)
    (hk : ∀ t : Token, t.lexeme = x → (k t).Accepts deep xs R Q) :
    (expect cat j >>= k).Accepts deep (x :: xs) R Q := by
  intro file c hc h
  obtain ⟨hd, hdx⟩ := hc.lexemes_advance h (hx ▸ hj)
  have hrun : Parser.expect cat j file c = .done c.current c.advance :=
    expect_eq_done.2 ⟨(Cursor.current_kind h).trans hx, rfl, rfl⟩
  have hagain := hk c.current (Cursor.current_lexeme h) file c.advance hd hdx
  simpa only [Overflows, bind_done hrun] using hagain

theorem expectClosing {cat : Category} {o j : TokenKind} {k : Token → Parser β} (hx : x.1 = j)
    (hj : j ≠ .eof) (hk : ∀ t : Token, t.lexeme = x → (k t).Accepts deep xs R Q) :
    (expectClosing cat o j >>= k).Accepts deep (x :: xs) R Q := by
  intro file c hc h
  obtain ⟨hd, hdx⟩ := hc.lexemes_advance h (hx ▸ hj)
  have hrun : Parser.expectClosing cat o j file c = .done c.current c.advance :=
    expectClosing_eq_done.2 ⟨(Cursor.current_kind h).trans hx, rfl, rfl⟩
  have hagain := hk c.current (Cursor.current_lexeme h) file c.advance hd hdx
  simpa only [Overflows, bind_done hrun] using hagain

theorem located {p : Parser (Span → α)} (h : p.Accepts deep xs R fun build => ∀ s, P (build s)) :
    (located p).Accepts deep xs R P := by
  intro file c hc hx
  obtain ⟨build, d, hrun, hd, hR, hP⟩ | ⟨hdeep, ho⟩ := h file c hc hx
  · exact .inl ⟨_, d, located_eq_done.2 ⟨build, hrun, rfl⟩, hd, hR, hP _⟩
  · exact .inr ⟨hdeep, ho.bind _⟩

theorem closing (h : p.Accepts deep xs R P) :
    (closing p).Accepts deep xs R fun x => P x.1 := by
  intro file c hc hx
  obtain ⟨a, d, hrun, hd, hR, hP⟩ | ⟨hdeep, ho⟩ := h file c hc hx
  · exact .inl ⟨(a, _), d, closing_eq_done.2 ⟨hrun, rfl⟩, hd, hR, hP⟩
  · exact .inr ⟨hdeep, ho.bind _⟩

theorem current {k : Token → Parser β}
    (h : ∀ t : Token, t.lexeme = x → (k t).Accepts deep (x :: xs) R Q) :
    (current >>= k).Accepts deep (x :: xs) R Q :=
  fun file c hc hx => h c.current (Cursor.current_lexeme hx) file c hc hx

theorem start {k : Int → Parser β} (h : ∀ s, (k s).Accepts deep xs R Q) :
    (start >>= k).Accepts deep xs R Q := fun file c hc hx => h _ file c hc hx

theorem spanFrom {s : Int} {k : Span → Parser β} (h : ∀ s, (k s).Accepts deep xs R Q) :
    (spanFrom s >>= k).Accepts deep xs R Q := fun file c hc hx => h _ file c hc hx

theorem test_true {t : Cursor → Bool} {p q : Parser α} (ht : ∀ c, c.lexemes = xs ++ R → t c = true)
    (h : p.Accepts deep xs R P) :
    (Parser.test t >>= fun b => if b then p else q).Accepts deep xs R P := by
  intro file c hc hx
  have hagain := h file c hc hx
  simpa [Overflows, ht c hx] using hagain

theorem test_false {t : Cursor → Bool} {p q : Parser α}
    (ht : ∀ c, c.lexemes = xs ++ R → t c = false) (h : q.Accepts deep xs R P) :
    (Parser.test t >>= fun b => if b then p else q).Accepts deep xs R P := by
  intro file c hc hx
  have hagain := h file c hc hx
  simpa [Overflows, ht c hx] using hagain

theorem length_le_flatMap {γ : Type} {parts : List (List Lexeme × γ)}
    (hne : ∀ p ∈ parts, p.1 ≠ []) : parts.length ≤ (parts.flatMap (·.1)).length := by
  induction parts with
  | nil => simp
  | cons p ps ih =>
    have hp := List.length_pos_iff.2 (hne p (List.mem_cons_self ..))
    have hps := ih fun q hq => hne q (List.mem_cons_of_mem _ hq)
    simp only [List.length_cons, List.flatMap_cons, List.length_append]
    omega

theorem length_remaining {c : Cursor} (h : c.lexemes = xs) : c.remaining.length = xs.length := by
  rw [← h, Cursor.lexemes, List.length_map]

/-- What a loop needs to know of its items: whatever may stand behind an item, other items
included, satisfies `good`. -/
structure Loops {γ : Type} (deep : Prop) (starts : Cursor → Bool) (item : Parser α) (f : α → γ)
    (good : List Lexeme → Prop) (p : List Lexeme × γ) : Prop where
  ne_nil : p.1 ≠ []
  begins : ∀ ys, good (p.1 ++ ys)
  accepts : ∀ ys, good ys → item.Accepts deep p.1 ys fun a => f a = p.2
  starts : ∀ ys c, c.lexemes = p.1 ++ ys → starts c = true

theorem many {γ : Type} {starts : Cursor → Bool} {item : Parser α} {f : α → γ}
    {good : List Lexeme → Prop} {parts : List (List Lexeme × γ)}
    (hparts : ∀ p ∈ parts, Loops deep starts item f good p) (hgood : good R) (hR : R ≠ [])
    (hstop : ∀ c, c.lexemes = R → starts c = false) :
    (many starts item).Accepts deep (parts.flatMap (·.1)) R
      fun as => as.map f = parts.map (·.2) := by
  suffices hall : ∀ n, parts.length < n →
      (manyUpTo starts item n).Accepts deep (parts.flatMap (·.1)) R
        fun as => as.map f = parts.map (·.2) by
    intro file c hc hx
    have hle := length_le_flatMap fun p hp => (hparts p hp).ne_nil
    have hlen := length_remaining hx
    have hpos := List.length_pos_iff.2 hR
    rw [List.length_append] at hlen
    exact hall c.remaining.length (by omega) file c hc hx
  induction parts with
  | nil =>
    intro n hn
    obtain ⟨n, rfl⟩ := Nat.exists_eq_succ_of_ne_zero (Nat.ne_of_gt hn)
    exact test_false (fun c h => hstop c h) (pure rfl)
  | cons p ps ih =>
    intro n hn
    obtain ⟨n, rfl⟩ := Nat.exists_eq_succ_of_ne_zero (Nat.ne_of_gt (Nat.lt_trans (Nat.succ_pos _) hn))
    have hp := hparts p (List.mem_cons_self ..)
    have hps := ih (fun q hq => hparts q (List.mem_cons_of_mem _ hq)) n (by simpa using hn)
    have hnext : good (ps.flatMap (·.1) ++ R) := by
      cases ps with
      | nil => exact hgood
      | cons q qs =>
        rw [List.flatMap_cons, List.append_assoc]
        exact (hparts q (by simp)).begins _
    rw [List.flatMap_cons]
    refine test_true (fun c h => hp.starts _ c (h.trans (List.append_assoc ..))) ?_
    refine bind (hp.accepts _ hnext) fun a ha => bind_last hps fun as has => pure ?_
    rw [List.map_cons, List.map_cons, ha, has]

theorem many_none {starts : Cursor → Bool} {item : Parser α}
    (hstop : ∀ c, c.lexemes = R → starts c = false) :
    (Parser.many starts item).Accepts deep [] R (· = []) := by
  intro file c hc hx
  have h : (manyUpTo starts item (c.rest.length + 1)).Accepts deep [] R (· = []) :=
    test_false (fun c h => hstop c h) (pure rfl)
  exact h file c hc hx

/-- What a list between commas needs to know of its items. -/
structure Lists {γ : Type} (deep : Prop) (closer : TokenKind) (item : Parser α) (f : α → γ)
    (p : List Lexeme × γ) : Prop where
  opens : ∃ x ys, p.1 = x :: ys ∧ x.1 ≠ closer ∧ x.1 ≠ .eof
  accepts : ∀ x ys, x.1 = .comma ∨ x.1 = closer → item.Accepts deep p.1 (x :: ys) fun a => f a = p.2

theorem length_le_listed {γ : Type} (separator : Lexeme) (trailing : Bool)
    {parts : List (List Lexeme × γ)} (hne : ∀ p ∈ parts, p.1 ≠ []) :
    parts.length ≤ (Grammar.listed separator trailing (parts.map (·.1))).length := by
  induction parts with
  | nil => simp
  | cons p ps ih =>
    have hp := List.length_pos_iff.2 (hne p (List.mem_cons_self ..))
    cases ps with
    | nil =>
      simp only [List.map_cons, List.map_nil, Grammar.listed, List.length_append, List.length_cons,
        List.length_nil]
      omega
    | cons q qs =>
      have hqs := ih fun q hq => hne q (List.mem_cons_of_mem _ hq)
      simp only [List.map_cons, Grammar.listed, List.length_append, List.length_cons] at hqs ⊢
      omega

theorem commas {γ : Type} {closer : TokenKind} {item : Parser α} {f : α → γ}
    {parts : List (List Lexeme × γ)} {trailing : Bool} {z : Lexeme} (hend : z.1 = closer)
    (hcloser : closer ≠ .comma) (hparts : ∀ p ∈ parts, Lists deep closer item f p) :
    (commas closer item).Accepts deep
      (Grammar.listed TokenKind.comma.lexeme trailing (parts.map (·.1))) (z :: R)
      fun x => x.1.map f = parts.map (·.2) ∧ (parts ≠ [] → x.2 = trailing) := by
  have hne : ∀ p ∈ parts, p.1 ≠ [] := by
    intro p hp
    obtain ⟨x, ys, hx, -⟩ := (hparts p hp).opens
    simp [hx]
  suffices hall : ∀ n, parts.length < n →
      (commasUpTo closer item n).Accepts deep
        (Grammar.listed TokenKind.comma.lexeme trailing (parts.map (·.1))) (z :: R)
        fun x => x.1.map f = parts.map (·.2) ∧ (parts ≠ [] → x.2 = trailing) by
    intro file c hc hx
    have hle := length_le_listed TokenKind.comma.lexeme trailing hne
    have hlen := length_remaining hx
    rw [List.length_append, List.length_cons] at hlen
    exact hall c.remaining.length (by omega) file c hc hx
  induction parts with
  | nil =>
    intro n hn
    obtain ⟨n, rfl⟩ := Nat.exists_eq_succ_of_ne_zero (Nat.ne_of_gt hn)
    refine test_true (fun c h => ?_) (pure ⟨rfl, by simp⟩)
    simp [Cursor.isAt_of_lexemes h, hend]
  | cons p ps ih =>
    intro n hn
    obtain ⟨n, rfl⟩ := Nat.exists_eq_succ_of_ne_zero (Nat.ne_of_gt (Nat.lt_trans (Nat.succ_pos _) hn))
    have hp := hparts p (List.mem_cons_self ..)
    have hps := ih (fun q hq => hparts q (List.mem_cons_of_mem _ hq))
      (fun q hq => hne q (List.mem_cons_of_mem _ hq)) n (by simpa using hn)
    obtain ⟨x, ys, hx, hxc, hxe⟩ := hp.opens
    have hfirst : ∀ (zs : List Lexeme) (c : Cursor), c.lexemes = p.1 ++ zs → (c.isAt closer || c.isAt .eof) = false := by
      intro zs c h
      rw [hx] at h
      simp [Cursor.isAt_of_lexemes h, hxc, hxe]
    have hcomma : ∀ (zs : List Lexeme) (c : Cursor),
        c.lexemes = TokenKind.comma.lexeme :: zs → c.isAt .comma = true := by
      intro zs c h
      simp [Cursor.isAt_of_lexemes h]
    unfold commasUpTo
    cases ps with
    | nil =>
      simp only [List.map_cons, List.map_nil, Grammar.listed]
      refine test_false (fun c h => hfirst _ c (h.trans (List.append_assoc ..))) ?_
      cases trailing with
      | false =>
        refine bind (hp.accepts _ _ (.inr hend)) fun a ha => test_false (fun c h => ?_) (pure ?_)
        · simp [Cursor.isAt_of_lexemes (show c.lexemes = z :: R from h), hend, hcloser]
        · simp [ha]
      | true =>
        refine bind (hp.accepts _ _ (.inl rfl)) fun a ha => test_true (fun c h => hcomma _ c h) ?_
        refine advance (by simp) fun _ _ => bind_last hps fun as has => pure ?_
        obtain ⟨as, t⟩ := as
        obtain rfl : as = [] := List.map_eq_nil_iff.1 has.1
        simp [ha]
    | cons q qs =>
      simp only [List.map_cons, Grammar.listed] at hps ⊢
      refine test_false (fun c h => hfirst _ c (h.trans (List.append_assoc ..))) ?_
      refine bind (hp.accepts _ _ (.inl rfl)) fun a ha => test_true (fun c h => hcomma _ c h) ?_
      refine advance (by simp) fun _ _ => bind_last hps fun as has => pure ?_
      obtain ⟨as, t⟩ := as
      have hnil : as ≠ [] := by
        rintro rfl
        simp at has
      refine ⟨by simp [ha, has.1], fun _ => ?_⟩
      obtain ⟨b, bs, rfl⟩ := List.exists_cons_of_ne_nil hnil
      obtain rfl : t = trailing := has.2 (by simp)
      simp

end Accepts
end Parser
end TinyFront
