import TinyFront.Proofs.Sight

/-!
A logic of refusals. What a run has consumed when it is refused is the beginning of something that
the parser accepts when it may nest more deeply, and the refusal hangs on that and on the next three
lexemes alone. One rule for each way in which parsers are built.
-/
namespace TinyFront

open Grammar

namespace Rejection

/-- What a rejection tells apart from its place. -/
def report (r : Rejection) : String × Category × String := (r.cause.code, r.category, r.cause.message)

/-- The rejection is placed at one of the tokens. -/
def At (r : Rejection) (ts : List Token) (i : Nat) : Prop := ts[i]?.map (·.span) = some r.span

theorem At.lt_length {r : Rejection} {ts : List Token} {i : Nat} (h : r.At ts i) : i < ts.length := by
  by_contra hge
  simp [At, List.getElem?_eq_none (Nat.le_of_not_lt hge)] at h

end Rejection

/-- Failures that are not for want of a token: too deep nesting, and a number too long to be read. -/
def Failure.Excused (ts : List Token) : Failure → Prop
  | .rejected r => r.cause = .nestingTooDeep
  | .literalTooLong n => digitLimit < n ∧ ∃ t ∈ ts, t.kind = .integer ∧ t.text.toList.length = n
  | _ => False

theorem Failure.Excused.of_consumes {e : Failure} {c c' : Cursor} {ts : List Token}
    (h : e.Excused c'.remaining) (hts : c.Consumes ts c') : e.Excused c.remaining := by
  cases e with
  | literalTooLong n =>
    obtain ⟨hn, t, ht, h⟩ := h
    exact ⟨hn, t, by rw [hts.remaining]; exact List.mem_append_right _ ht, h⟩
  | _ => exact h

namespace Cursor

variable {c c' : Cursor} {ts : List Token} {xs R : List Lexeme}

theorem lexemes_ne_nil (c : Cursor) : c.lexemes ≠ [] := by simp [lexemes, remaining]

theorem current_kind_eq (c : Cursor) : c.current.kind = headKind c.lexemes := by
  simp [lexemes, remaining, Token.lexeme]

theorem Consumes.lexemes (h : c.Consumes ts c') : c.lexemes = ts.map Token.lexeme ++ c'.lexemes := by
  rw [Cursor.lexemes, h.remaining, List.map_append, Cursor.lexemes]

theorem Consumes.advance_eq {t : Token} (h : c.Consumes [t] c') : c.advance = c' := by
  have hstep := advance_of_remaining h.remaining c'.remaining_ne_nil
  exact eq_of_remaining hstep.1 (by rw [hstep.2, h.lastEnd]; rfl)

theorem Consumes.lexemes_eq (h : c.Consumes ts c') (hx : c.lexemes = xs ++ R)
    (hts : ts.map Token.lexeme = xs) : c'.lexemes = R := by
  rw [h.lexemes, hts] at hx
  exact List.append_cancel_left hx

theorem consumes_of_lexemes (h : c.lexemes = xs ++ R) (hR : R ≠ []) :
    ∃ us d, c.Consumes us d ∧ us.map Token.lexeme = xs := by
  obtain ⟨us, vs, hus, rfl, hvs⟩ := List.map_eq_append_iff.1 h
  obtain ⟨v, vs, rfl⟩ := List.exists_cons_of_ne_nil (l := vs) fun hnil => hR (by rw [← hvs, hnil]; rfl)
  exact ⟨us, ⟨v, vs, endOf c.lastEnd us⟩, ⟨hus, rfl⟩, rfl⟩

theorem ne_eof_of_stream (hc : TokenStream c.remaining) (h : c.Consumes ts c') :
    ∀ x ∈ ts.map Token.lexeme, x.1 ≠ .eof := by
  intro x hx
  obtain ⟨t, ht, rfl⟩ := List.mem_map.1 hx
  obtain ⟨us, vs, rfl⟩ := List.append_of_mem ht
  intro hk
  have hrest := hc.last us t (vs ++ c'.remaining) (by rw [h.remaining]; simp) hk
  exact c'.remaining_ne_nil (List.append_eq_nil_iff.1 hrest).2

/-- A list that agrees with consumed tokens of a stream, and with what stands behind them. -/
theorem Ended.consumes_of_agree {d : Cursor} {i : Nat} (hd : d.Ended) (hc : TokenStream c.remaining)
    (h : c.Consumes ts c')
    (ha : Agree ((ts.map Token.lexeme).length + i) (ts.map Token.lexeme ++ c'.lexemes) d.lexemes) :
    ∃ us d', d.Consumes us d' ∧ us.map Token.lexeme = ts.map Token.lexeme ∧
      Agree i c'.lexemes d'.lexemes := by
  obtain ⟨R, hx, hR⟩ := ha.split (ne_eof_of_stream hc h)
  have hne : R ≠ [] := by
    rintro rfl
    obtain ⟨vs, z, hz, hk⟩ := hd
    rw [List.append_nil, lexemes, hz] at hx
    exact ne_eof_of_stream hc h z.lexeme (by rw [← hx]; simp) hk
  obtain ⟨us, d', hus, hlex⟩ := consumes_of_lexemes hx hne
  exact ⟨us, d', hus, hlex, by rwa [hus.lexemes_eq hx hlex]⟩

end Cursor

theorem Rejection.At.of_consumes {r : Rejection} {c c' : Cursor} {ts : List Token} {i : Nat}
    (h : r.At c'.remaining i) (hts : c.Consumes ts c') : r.At c.remaining (ts.length + i) := by
  rw [Rejection.At, hts.remaining, List.getElem?_append_right (Nat.le_add_right ..),
    Nat.add_sub_cancel_left]
  exact h

namespace Parser

variable {ι κ α β γ : Type} {n l : Nat} {s s' : Sym} {w : List TokenKind} {file : String} {c : Cursor}
  {xs ys R : List Lexeme}

/-- Where the lexemes stand before `R`, the run consumes them and nothing else. -/
def Takes (p : Parser α) (xs R : List Lexeme) : Prop :=
  ∀ file c, c.Ended → c.lexemes = xs ++ R →
    ∃ a c' ts, p file c = .done a c' ∧ c.Consumes ts c' ∧ ts.map Token.lexeme = xs

/-- Where the list shows the same up to two lexemes behind the refused one, the run is refused there
with the same report. -/
def Balks (p : Parser α) (xs : List Lexeme) (i : Nat) (r : Rejection) : Prop :=
  ∀ file c, c.Ended → Agree (i + 3) xs c.lexemes →
    ∃ r' c', p file c = .failed (.rejected r') c' ∧ r'.At c.remaining i ∧ r'.report = r.report

/-- Nothing is consumed, and nothing is refused. -/
def Quiet (p : Parser α) : Prop := ∀ file c, ∃ a, p file c = .done a c

namespace Quiet

theorem pure (a : α) : (pure a : Parser α).Quiet := fun _ _ => ⟨a, rfl⟩

theorem start : Parser.start.Quiet := fun _ c => ⟨c.current.span.start, rfl⟩

theorem spanFrom (s : Int) : (Parser.spanFrom s).Quiet := fun _ _ => ⟨_, rfl⟩

theorem close : Parser.close.Quiet := fun _ _ => ⟨_, rfl⟩

theorem bind {p : Parser α} {k : α → Parser β} (hp : p.Quiet) (hk : ∀ a, (k a).Quiet) :
    (p >>= k).Quiet := by
  intro file c
  obtain ⟨a, ha⟩ := hp file c
  obtain ⟨b, hb⟩ := hk a file c
  exact ⟨b, by rw [bind_done ha, hb]⟩

end Quiet

namespace Takes

variable {p : Parser α} {k : α → Parser β}

theorem of_accepts {Q : α → Prop} (h : p.Accepts False xs R Q)
    (hp : ∀ file c a c', c.Ended → p file c = .done a c' → ∃ ts, c.Consumes ts c') :
    p.Takes xs R := by
  intro file c hc hx
  obtain ⟨a, c', hrun, -, hR, -⟩ | ⟨hf, -⟩ := h file c hc hx
  · obtain ⟨ts, hts⟩ := hp file c a c' hc hrun
    exact ⟨a, c', ts, hrun, hts, List.append_cancel_right (by rw [← hx, hts.lexemes, hR])⟩
  · exact hf.elim

theorem quiet (h : p.Quiet) : p.Takes [] R := by
  intro file c _ _
  obtain ⟨a, ha⟩ := h file c
  exact ⟨a, c, [], ha, .refl c, rfl⟩

/-- At a cursor, where what `p` may leave is known to stand there. -/
theorem bind_at {file : String} {c : Cursor} (hc : c.Ended) (hx : c.lexemes = xs ++ (ys ++ R))
    (hp : p.Takes xs (ys ++ R)) (hk : ∀ a, (k a).Takes ys R) :
    ∃ b c' ts, (p >>= k) file c = .done b c' ∧ c.Consumes ts c' ∧ ts.map Token.lexeme = xs ++ ys := by
  obtain ⟨a, d, ts, hrun, hts, rfl⟩ := hp file c hc hx
  obtain ⟨b, c', us, hrun', hus, rfl⟩ := hk a file d (hts.ended hc) (hts.lexemes_eq hx rfl)
  exact ⟨b, c', ts ++ us, by rw [bind_done hrun, hrun'], hts.trans hus, List.map_append⟩

theorem bind (hp : p.Takes xs (ys ++ R)) (hk : ∀ a, (k a).Takes ys R) :
    (p >>= k).Takes (xs ++ ys) R := fun _ _ hc hx =>
  bind_at hc (by rw [hx, List.append_assoc]) hp hk

theorem bind_quiet (hp : p.Takes xs R) (hk : ∀ a, (k a).Quiet) : (p >>= k).Takes xs R := by
  have h : (p >>= k).Takes (xs ++ []) R := bind hp fun a => quiet (hk a)
  rwa [List.append_nil] at h

end Takes

/-- The parsers `P` with more room than `n` take the given kinds. -/
structure Fills (n : Nat) (s : Sym) (w : List TokenKind) (P : Nat → ι → Parser α) : Prop where
  fair : .eof ∉ w
  takes : ∀ m, n < m → ∀ x R, Ends s R → (P m x).Takes (w.map sample) R

/-- A refusal at the `i`-th token. The parsers `P` refuse there too, and with more room they take the
tokens before it when the right ones follow. -/
structure Refused (n l : Nat) (s : Sym) (P : Nat → ι → Parser α) (c : Cursor) (r : Rejection)
    (i : Nat) : Prop where
  placed : r.At c.remaining i
  least : i = 0 ∨ l ≤ i
  again : ∀ m, n ≤ m → ∀ x, (P m x).Balks c.lexemes i r
  mended : 0 < i → ∃ v : List TokenKind, .eof ∉ v ∧ ∀ m, n < m → ∀ x R, Ends s R →
    (P m x).Takes (c.lexemes.take i ++ v.map sample) R

/-- The run of `p`, which consumes at least `l` tokens or none, against the parsers `P`, which are
indexed by the room for nesting and by what was read before. -/
structure Viable (n l : Nat) (s : Sym) (p : Parser α) (P : Nat → ι → Parser β) (file : String)
    (c : Cursor) : Prop where
  done : ∀ a c', p file c = .done a c' → ∃ ts, l ≤ ts.length ∧ c.Consumes ts c' ∧
    ∀ m, n ≤ m → ∀ x R, Fits s c'.lexemes R → (P m x).Takes (ts.map Token.lexeme) R
  failed : ∀ e c', p file c = .failed e c' →
    e.Excused c.remaining ∨ ∃ r i, e = .rejected r ∧ Refused n l s P c r i

/-- A viable run of a parser that takes the kinds `w`. -/
structure Mends (n l : Nat) (s : Sym) (w : List TokenKind) (p : Parser α) (P : Nat → ι → Parser β)
    (file : String) (c : Cursor) : Prop where
  fills : Fills n s w P
  viable : Viable n l s p P file c

/-- What the next parser reads opens a record only where it stood before one. It is asked for behind
parsers that look out for records. -/
def Respects (n : Nat) (k : α → Parser β) (L : Nat → ι → α → Parser γ) (file : String) : Prop :=
  ∀ a c, TokenStream c.remaining → (∀ b, k a file c ≠ .done b c) →
    ∀ m, n ≤ m → ∀ x b (d : Cursor) zs R, d.Ended → d.lexemes = zs ++ R → zs ≠ [] →
      headKind d.lexemes = headKind c.lexemes → (L m x b).Takes zs R →
        opensRecord d.lexemes = true → opensRecord c.lexemes = true

/-- Parsers that consume nothing in front of a record respect it. -/
theorem respects_of_shy {k : α → Parser β} {L : Nat → ι → α → Parser γ}
    (h : ∀ m, n ≤ m → ∀ x a file d, d.Ended → opensRecord d.lexemes = true →
      ∀ b d', L m x a file d = .done b d' → d' = d) : Respects n k L file := by
  intro _ c _ _ m hm x a d zs R hd hx hne _ ht ho
  obtain ⟨b, d', ts, hrun, hts, rfl⟩ := ht file d hd hx
  obtain rfl := h m hm x a file d hd ho b d' hrun
  refine absurd (List.map_eq_nil_iff.2 (List.length_eq_zero_iff.1 ?_)) hne
  have hlen := hts.length
  omega

namespace Viable

variable {p p' : Parser α} {P : Nat → ι → Parser β} {P' : Nat → κ → Parser β}

theorem weaken {l' : Nat} (h : Viable n l s p P file c) (hl : l' ≤ l) : Viable n l' s p P file c where
  done a c' hrun := by
    obtain ⟨ts, hlen, h⟩ := h.done a c' hrun
    exact ⟨ts, Nat.le_trans hl hlen, h⟩
  failed e c' hrun := (h.failed e c' hrun).imp_right fun ⟨r, i, he, hr⟩ =>
    ⟨r, i, he, hr.placed, hr.least.imp_right (Nat.le_trans hl), hr.again, hr.mended⟩

theorem of_sort (h : Viable n l s' p P file c) (hs : ∀ k, s'.goesOn k = true → s.goesOn k = true) :
    Viable n l s p P file c where
  done a c' hrun := by
    obtain ⟨ts, hlen, hts, h⟩ := h.done a c' hrun
    exact ⟨ts, hlen, hts, fun m hm x R hR => h m hm x R (hR.mono hs)⟩
  failed e c' hrun := (h.failed e c' hrun).imp_right fun ⟨r, i, he, hr⟩ =>
    ⟨r, i, he, hr.placed, hr.least, hr.again, fun hi => by
      obtain ⟨v, hv, h⟩ := hr.mended hi
      exact ⟨v, hv, fun m hm x R hR => h m hm x R (hR.mono hs)⟩⟩

theorem reindex (h : Viable n l s p P file c) (f : κ → ι) :
    Viable n l s p (fun m x => P m (f x)) file c where
  done a c' hrun := by
    obtain ⟨ts, hlen, hts, h⟩ := h.done a c' hrun
    exact ⟨ts, hlen, hts, fun m hm x => h m hm (f x)⟩
  failed e c' hrun := (h.failed e c' hrun).imp_right fun ⟨r, i, he, hr⟩ =>
    ⟨r, i, he, hr.placed, hr.least, fun m hm x => hr.again m hm (f x), fun hi => by
      obtain ⟨v, hv, h⟩ := hr.mended hi
      exact ⟨v, hv, fun m hm x => h m hm (f x)⟩⟩

theorem succ (h : Viable n l s p (fun m => P (m + 1)) file c) : Viable (n + 1) l s p P file c where
  done a c' hrun := by
    obtain ⟨ts, hlen, hts, h⟩ := h.done a c' hrun
    refine ⟨ts, hlen, hts, fun m hm => ?_⟩
    obtain ⟨m, rfl⟩ := Nat.exists_eq_add_of_le' (Nat.le_of_add_left_le hm)
    exact h m (by omega)
  failed e c' hrun := (h.failed e c' hrun).imp_right fun ⟨r, i, he, hr⟩ =>
    ⟨r, i, he, hr.placed, hr.least, fun m hm => by
      obtain ⟨m, rfl⟩ := Nat.exists_eq_add_of_le' (Nat.le_of_add_left_le hm)
      exact hr.again m (by omega), fun hi => by
      obtain ⟨v, hv, h⟩ := hr.mended hi
      refine ⟨v, hv, fun m hm => ?_⟩
      obtain ⟨m, rfl⟩ := Nat.exists_eq_add_of_le' (Nat.le_of_add_left_le (Nat.le_of_lt hm))
      exact h m (by omega)⟩

theorem pred (h : Viable (n + 1) l s p P file c) : Viable n l s p (fun m => P (m + 1)) file c where
  done a c' hrun := by
    obtain ⟨ts, hlen, hts, h⟩ := h.done a c' hrun
    exact ⟨ts, hlen, hts, fun m hm => h (m + 1) (Nat.succ_le_succ hm)⟩
  failed e c' hrun := (h.failed e c' hrun).imp_right fun ⟨r, i, he, hr⟩ =>
    ⟨r, i, he, hr.placed, hr.least, fun m hm => hr.again (m + 1) (Nat.succ_le_succ hm), fun hi => by
      obtain ⟨v, hv, h⟩ := hr.mended hi
      exact ⟨v, hv, fun m hm => h (m + 1) (Nat.succ_lt_succ hm)⟩⟩

theorem excuse {e : Failure} {b : Cursor} (h : p file c = .failed e b)
    (he : e.Excused c.remaining) : Viable n l s p P file c where
  done a d hrun := by rw [h] at hrun; cases hrun
  failed e' d hrun := by
    rw [h] at hrun
    cases hrun
    exact .inl he

theorem refuse {r : Rejection} {b : Cursor} (h : p file c = .failed (.rejected r) b)
    (hr : r.span = c.current.span)
    (hP : ∀ m, n ≤ m → ∀ x file d, d.Ended → Agree 3 c.lexemes d.lexemes → ∃ r' d',
      P m x file d = .failed (.rejected r') d' ∧ r'.span = d.current.span ∧ r'.report = r.report) :
    Viable n l s p P file c where
  done a d hrun := by rw [h] at hrun; cases hrun
  failed e d hrun := by
    rw [h] at hrun
    cases hrun
    refine .inr ⟨r, 0, rfl, by simp [Rejection.At, Cursor.remaining, hr], .inl rfl, ?_, by simp⟩
    intro m hm x file d hd hagree
    obtain ⟨r', d', hrun', hr', hreport⟩ := hP m hm x file d hd (by simpa using hagree)
    exact ⟨r', d', hrun', by simp [Rejection.At, Cursor.remaining, hr'], hreport⟩

theorem stay {a : α} (h : p file c = .done a c)
    (hP : ∀ m, n ≤ m → ∀ x file d, d.Ended → Fits s c.lexemes d.lexemes → ∃ b, P m x file d = .done b d) :
    Viable n 0 s p P file c where
  done b d hrun := by
    rw [h] at hrun
    cases hrun
    refine ⟨[], Nat.le_refl 0, .refl _, fun m hm x R hR file d hd hx => ?_⟩
    obtain ⟨b, hb⟩ := hP m hm x file d hd (by simpa [hx] using hR)
    exact ⟨b, d, [], hb, .refl d, rfl⟩
  failed e d hrun := by rw [h] at hrun; cases hrun

theorem quiet (hp : p.Quiet) (hP : ∀ m x, (P m x).Quiet) : Viable n 0 s p P file c := by
  obtain ⟨a, ha⟩ := hp file c
  exact stay ha fun m _ x file d _ _ => hP m x file d

theorem last {δ : Type} {k : α → Parser γ} {L : Nat → ι → β → Parser δ} (h : Viable n l s p P file c)
    (hk : ∀ a, (k a).Quiet) (hL : ∀ m x b, (L m x b).Quiet) :
    Viable n l s (p >>= k) (fun m x => P m x >>= L m x) file c where
  done b c' hrun := by
    obtain ⟨a, d, ha, hb⟩ := bind_eq_done.1 hrun
    obtain ⟨b', hb'⟩ := hk a file d
    rw [hb] at hb'
    cases hb'
    obtain ⟨ts, hlen, hts, hP⟩ := h.done a _ ha
    exact ⟨ts, hlen, hts, fun m hm x R hR => .bind_quiet (hP m hm x R hR) (hL m x)⟩
  failed e c' hrun := by
    cases ha : p file c with
    | done a d =>
      obtain ⟨b, hb⟩ := hk a file d
      rw [bind_done ha, hb] at hrun
      cases hrun
    | failed e' d =>
      rw [bind_failed ha] at hrun
      cases hrun
      refine (h.failed e c' ha).imp_right fun ⟨r, i, he, hr⟩ => ⟨r, i, he, hr.placed, hr.least,
        fun m hm x file d hd hagree => ?_, fun hi => ?_⟩
      · obtain ⟨r', d', hrun, h⟩ := hr.again m hm x file d hd hagree
        exact ⟨r', d', bind_failed hrun, h⟩
      · obtain ⟨v, hv, hP⟩ := hr.mended hi
        exact ⟨v, hv, fun m hm x R hR => .bind_quiet (hP m hm x R hR) (hL m x)⟩

theorem token {a : α} (hc : TokenStream c.remaining) (hk : c.current.kind ≠ .eof)
    (h : p file c = .done a c.advance)
    (hP : ∀ m, n ≤ m → ∀ x file d, d.current.lexeme = c.current.lexeme →
      ∃ b, P m x file d = .done b d.advance) : Viable n 1 s p P file c where
  done b d hrun := by
    rw [h] at hrun
    cases hrun
    refine ⟨[c.current], by simp, hc.ended'.consumes_advance hk, fun m hm x R hR file d hd hx => ?_⟩
    have hlex : d.current.lexeme = c.current.lexeme := Cursor.current_lexeme hx
    obtain ⟨b, hb⟩ := hP m hm x file d hlex
    have hkd : d.current.kind ≠ .eof := by rwa [show d.current.kind = c.current.kind from
      congrArg Prod.fst hlex]
    exact ⟨b, d.advance, [d.current], hb, hd.consumes_advance hkd, by simp [hlex]⟩
  failed e d hrun := by rw [h] at hrun; cases hrun

theorem branch (hl : 0 < l) (h3 : l ≤ 3) (h : Viable n l s p' P' file c) (hp : p file c = p' file c)
    (hP : ∀ m, n ≤ m → ∀ x file d, d.Ended → Agree l c.lexemes d.lexemes →
      ∃ y, P m x file d = P' m y file d) : Viable n l s p P file c where
  done a c' hrun := by
    obtain ⟨ts, hlen, hts, h⟩ := h.done a c' (hp ▸ hrun)
    refine ⟨ts, hlen, hts, fun m hm x R hR file d hd hx => ?_⟩
    have hagree := Agree.of_append (ts.map Token.lexeme) c'.lexemes R
    rw [← hts.lexemes, ← hx, List.length_map] at hagree
    obtain ⟨y, hy⟩ := hP m hm x file d hd (hagree.mono hlen)
    rw [hy]
    exact h m hm y R hR file d hd hx
  failed e c' hrun := (h.failed e c' (hp ▸ hrun)).imp_right fun ⟨r, i, he, hr⟩ => by
    refine ⟨r, i, he, hr.placed, hr.least, fun m hm x file d hd hagree => ?_, fun hi => ?_⟩
    · obtain ⟨y, hy⟩ := hP m hm x file d hd (hagree.mono (by omega))
      rw [hy]
      exact hr.again m hm y file d hd hagree
    · obtain ⟨v, hv, h⟩ := hr.mended hi
      refine ⟨v, hv, fun m hm x R hR file d hd hx => ?_⟩
      have hli : l ≤ i := hr.least.resolve_left (by omega)
      have hlen : (c.lexemes.take i).length = i := by
        have := hr.placed.lt_length
        simp only [Cursor.lexemes, List.length_take, List.length_map]
        omega
      have hagree := Agree.of_append (c.lexemes.take i) (c.lexemes.drop i) (v.map sample ++ R)
      rw [List.take_append_drop, ← List.append_assoc, ← hx, hlen] at hagree
      obtain ⟨y, hy⟩ := hP m (Nat.le_of_lt hm) x file d hd (hagree.mono hli)
      rw [hy]
      exact h m hm y R hR file d hd hx

theorem congr (h : Viable n l s p' P' file c) (hp : p file c = p' file c)
    (hP : ∀ m, n ≤ m → ∀ x file d, d.Ended → ∃ y, P m x file d = P' m y file d) :
    Viable n l s p P file c where
  done a c' hrun := by
    obtain ⟨ts, hlen, hts, h⟩ := h.done a c' (hp ▸ hrun)
    refine ⟨ts, hlen, hts, fun m hm x R hR file d hd hx => ?_⟩
    obtain ⟨y, hy⟩ := hP m hm x file d hd
    rw [hy]
    exact h m hm y R hR file d hd hx
  failed e c' hrun := (h.failed e c' (hp ▸ hrun)).imp_right fun ⟨r, i, he, hr⟩ => by
    refine ⟨r, i, he, hr.placed, hr.least, fun m hm x file d hd hagree => ?_, fun hi => ?_⟩
    · obtain ⟨y, hy⟩ := hP m hm x file d hd
      rw [hy]
      exact hr.again m hm y file d hd hagree
    · obtain ⟨v, hv, h⟩ := hr.mended hi
      refine ⟨v, hv, fun m hm x R hR file d hd hx => ?_⟩
      obtain ⟨y, hy⟩ := hP m (Nat.le_of_lt hm) x file d hd
      rw [hy]
      exact h m hm y R hR file d hd hx

theorem skip {ts : List Token} {c₁ : Cursor} (h : Viable n l s p' P' file c₁)
    (hc : TokenStream c.remaining) (hts : c.Consumes ts c₁) (hp : p file c = p' file c₁)
    (hP : ∀ m, n ≤ m → ∀ x file d us d₁, d.Ended → d.Consumes us d₁ →
      us.map Token.lexeme = ts.map Token.lexeme → ∃ y, P m x file d = P' m y file d₁)
    (hfill : Fills n s w P') :
    Viable n ts.length s p P file c where
  done a c' hrun := by
    obtain ⟨us, -, hus, h⟩ := h.done a c' (hp ▸ hrun)
    refine ⟨ts ++ us, by simp, hts.trans hus, fun m hm x R hR file d hd hx => ?_⟩
    rw [List.map_append, List.append_assoc] at hx
    obtain ⟨ts', d₁, hts', hlex⟩ := Cursor.consumes_of_lexemes hx (by simp [hR.ne_nil])
    obtain ⟨y, hy⟩ := hP m hm x file d ts' d₁ hd hts' hlex
    obtain ⟨b, d', us', hrun', hus', hlex'⟩ :=
      h m hm y R hR file d₁ (hts'.ended hd) (hts'.lexemes_eq hx hlex)
    exact ⟨b, d', ts' ++ us', by rw [hy, hrun'], hts'.trans hus', by simp [hlex, hlex']⟩
  failed e c' hrun := by
    have hlen : (ts.map Token.lexeme).length = ts.length := List.length_map ..
    refine (h.failed e c' (hp ▸ hrun)).imp (fun he => he.of_consumes hts)
      fun ⟨r, i, he, hr⟩ => ⟨r, ts.length + i, he, hr.placed.of_consumes hts, .inr (by omega), ?_,
        fun _ => ?_⟩
    · intro m hm x file' d hd hagree
      rw [hts.lexemes, Nat.add_assoc, ← hlen] at hagree
      obtain ⟨ts', d₁, hts', hlex, hR⟩ := hd.consumes_of_agree hc hts hagree
      obtain ⟨y, hy⟩ := hP m hm x file' d ts' d₁ hd hts' hlex
      obtain ⟨r', d', hrun', hr', hreport⟩ := hr.again m hm y file' d₁ (hts'.ended hd) hR
      refine ⟨r', d', by rw [hy, hrun'], ?_, hreport⟩
      have hlen' : ts'.length = ts.length := by simpa using congrArg List.length hlex
      exact hlen' ▸ hr'.of_consumes hts'
    · have htake : c.lexemes.take (ts.length + i) = ts.map Token.lexeme ++ c₁.lexemes.take i := by
        rw [hts.lexemes, ← hlen, List.take_length_add_append]
      obtain ⟨v, hv, hfit⟩ : ∃ v : List TokenKind, .eof ∉ v ∧ ∀ m, n < m → ∀ y R, Ends s R →
          (P' m y).Takes (c₁.lexemes.take i ++ v.map sample) R := by
        rcases Nat.eq_zero_or_pos i with rfl | hpos
        · exact ⟨w, hfill.fair, hfill.takes⟩
        · exact hr.mended hpos
      refine ⟨v, hv, fun m hm x R hR file d hd hx => ?_⟩
      rw [htake, List.append_assoc, List.append_assoc, ← List.append_assoc (c₁.lexemes.take i)] at hx
      obtain ⟨ts', d₁, hts', hlex⟩ := Cursor.consumes_of_lexemes hx (by simp [hR.ne_nil])
      obtain ⟨y, hy⟩ := hP m (Nat.le_of_lt hm) x file d ts' d₁ hd hts' hlex
      obtain ⟨b, d', us', hrun', hus', hlex'⟩ :=
        hfit m hm y R hR file d₁ (hts'.ended hd) (hts'.lexemes_eq hx hlex)
      exact ⟨b, d', ts' ++ us', by rw [hy, hrun'], hts'.trans hus', by
        rw [htake, List.map_append, hlex, hlex', List.append_assoc]⟩

theorem skip_token {j : TokenKind} (hc : TokenStream c.remaining) (hj : j ≠ .eof) (hcur : c.current.kind = j)
    (hp : p file c = p' file c.advance)
    (hP : ∀ m, n ≤ m → ∀ x file d, d.Ended → d.current.kind = j → d.current.lexeme = c.current.lexeme →
      ∃ y, P m x file d = P' m y file d.advance)
    (hfill : Fills n s w P') (h : Viable n l s p' P' file c.advance) : Viable n 1 s p P file c := by
  have hne : c.current.kind ≠ .eof := by rwa [hcur]
  refine h.skip hc (hc.ended'.consumes_advance hne) hp (fun m hm x file d us d₁ hd hus hlex => ?_) hfill
  obtain ⟨u, rfl, hu⟩ := List.map_eq_singleton_iff.1 hlex
  have hd₁ : d.current.lexeme = c.current.lexeme := by
    rw [(Cursor.current_of_remaining hus.remaining).1, hu]
  rw [← hus.advance_eq]
  exact hP m hm x file d hd ((congrArg Prod.fst hd₁).trans hcur) hd₁

section bind

variable {s₁ : Sym} {l₁ l₂ : Nat} {p : Parser α} {k : α → Parser β}
  {Q : Nat → Parser α} {L : Nat → ι → α → Parser γ}

theorem fits_of_next (hj : s₁.goesOn .dot = true → Respects n k L file) (a : α) {c₁ d : Cursor}
    (hc₁ : TokenStream c₁.remaining) (hmove : ∀ b, k a file c₁ ≠ .done b c₁) {m : Nat} (hm : n ≤ m)
    {x : ι} {zs : List Lexeme} (hz : zs ≠ []) (hhead : headKind (zs ++ R) = headKind c₁.lexemes)
    (ht : ∀ b, (L m x b).Takes zs R) (hd : d.Ended) (hx : d.lexemes = zs ++ R) :
    Fits s₁ c₁.lexemes (zs ++ R) := by
  refine ⟨by simp [hz], .inl hhead, fun hs ho => ?_⟩
  exact hj hs a c₁ hc₁ hmove m hm x a d zs R hd hx hz (by rwa [hx]) (ht a) (by rwa [hx])

theorem bind (hc : TokenStream c.remaining) (hp : Viable n l₁ s₁ p (fun m (_ : Unit) => Q m) file c)
    (hfill : Fills n s w fun m (x : ι × α) => L m x.1 x.2)
    (hk : ∀ a c', p file c = .done a c' → TokenStream c'.remaining →
      Viable n l₂ s (k a) (fun m (x : ι × α) => L m x.1 x.2) file c')
    (hlast : 1 ≤ l₂ ∨ ∀ j, s₁.goesOn j = true → s.goesOn j = true)
    (hends : ∀ R, Ends s R → Ends s₁ (w.map sample ++ R))
    (hj : s₁.goesOn .dot = true → Respects n k L file) :
    Viable n l₁ s (p >>= k) (fun m x => Q m >>= L m x) file c where
  done b c₂ hrun := by
    obtain ⟨a, c₁, ha, hb⟩ := bind_eq_done.1 hrun
    obtain ⟨ts, hlen, hts, hQ⟩ := hp.done a c₁ ha
    have hc₁ := hc.of_consumes hts
    obtain ⟨us, hlen', hus, hL⟩ := (hk a c₁ ha hc₁).done b c₂ hb
    refine ⟨ts ++ us, by simp; omega, hts.trans hus, fun m hm x R hR file' d hd hx => ?_⟩
    rw [List.map_append] at hx ⊢
    rw [List.append_assoc] at hx
    have hnext : ∀ b, (L m x b).Takes (us.map Token.lexeme) R := fun b => hL m hm (x, b) R hR
    refine Takes.bind_at hd hx (hQ m hm () _ ?_) hnext
    by_cases hnil : us = []
    · subst hnil
      have hsort := hlast.resolve_left (by simpa using hlen')
      rw [hus.lexemes]
      exact hR.mono hsort
    · obtain ⟨vs, d', hvs, hlex⟩ := Cursor.consumes_of_lexemes hx (by simp [hnil])
      refine fits_of_next hj a hc₁ (fun b' hb' => ?_) hm (by simpa using hnil) ?_ hnext
        (hvs.ended hd) (hvs.lexemes_eq hx hlex)
      · rw [hb] at hb'
        cases hb'
        exact hnil (List.length_eq_zero_iff.1 (by have := hus.length; omega))
      · obtain ⟨u, us, rfl⟩ := List.exists_cons_of_ne_nil hnil
        simp [hus.lexemes]
  failed e c' hrun := by
    cases ha : p file c with
    | failed e' c'' =>
      rw [bind_failed ha] at hrun
      cases hrun
      refine (hp.failed e c' ha).imp_right fun ⟨r, i, he, hr⟩ => ⟨r, i, he, hr.placed, hr.least,
        fun m hm x file d hd hagree => ?_, fun hi => ?_⟩
      · obtain ⟨r', d', hrun, h⟩ := hr.again m hm () file d hd hagree
        exact ⟨r', d', bind_failed hrun, h⟩
      · obtain ⟨v, hv, hQ⟩ := hr.mended hi
        refine ⟨v ++ w, by simp [hv, hfill.fair], fun m hm x R hR => ?_⟩
        rw [List.map_append, ← List.append_assoc]
        exact .bind (hQ m hm () _ (hends R hR)) fun b => hfill.takes m hm (x, b) R hR
    | done a c₁ =>
      rw [bind_done ha] at hrun
      obtain ⟨ts, hlen, hts, hQ⟩ := hp.done a c₁ ha
      have hc₁ := hc.of_consumes hts
      refine ((hk a c₁ ha hc₁).failed e c' hrun).imp (fun he => he.of_consumes hts)
        fun ⟨r, i, he, hr⟩ => ⟨r, ts.length + i, he, hr.placed.of_consumes hts, .inr (by omega), ?_,
          fun hi => ?_⟩
      · intro m hm x file' d hd hagree
        rw [hts.lexemes, Nat.add_assoc, ← List.length_map (f := Token.lexeme)] at hagree
        obtain ⟨us, e, hus, hlex, hR⟩ := hd.consumes_of_agree hc hts hagree
        obtain ⟨b, d₁, ts', hrun', hts', hlex'⟩ := hQ m hm () e.lexemes
          (.of_agree hR (by omega) e.lexemes_ne_nil) file' d hd (by rw [hus.lexemes, hlex])
        have hd₁ : d₁.lexemes = e.lexemes := hts'.lexemes_eq (by rw [hus.lexemes, hlex]) hlex'
        obtain ⟨r', d', hrun'', hr', hreport⟩ :=
          hr.again m hm (x, b) file' d₁ (hts'.ended hd) (by rwa [hd₁])
        refine ⟨r', d', by rw [bind_done hrun', hrun''], ?_, hreport⟩
        have hlen' : ts'.length = ts.length := by simpa using congrArg List.length hlex'
        exact hlen' ▸ hr'.of_consumes hts'
      · have htake : c.lexemes.take (ts.length + i) = ts.map Token.lexeme ++ c₁.lexemes.take i := by
          rw [hts.lexemes, ← List.length_map (f := Token.lexeme), List.take_length_add_append]
        rw [htake]
        rcases Nat.eq_zero_or_pos i with rfl | hpos
        · refine ⟨w, hfill.fair, fun m hm x R hR => ?_⟩
          rw [List.take_zero, List.append_nil]
          exact .bind (hQ m (Nat.le_of_lt hm) () _ (.of_ends (hends R hR) _))
            fun b => hfill.takes m hm (x, b) R hR
        · obtain ⟨v, hv, hL⟩ := hr.mended hpos
          refine ⟨v, hv, fun m hm x R hR file' d hd hx => ?_⟩
          rw [List.append_assoc, List.append_assoc, ← List.append_assoc (c₁.lexemes.take i)] at hx
          rw [List.append_assoc]
          have hnext : ∀ b, (L m x b).Takes (c₁.lexemes.take i ++ v.map sample) R :=
            fun b => hL m hm (x, b) R hR
          have hne : c₁.lexemes.take i ++ v.map sample ≠ [] := by
            simp [c₁.lexemes_ne_nil, Nat.ne_of_gt hpos]
          refine Takes.bind_at hd hx (hQ m (Nat.le_of_lt hm) () _ ?_) hnext
          obtain ⟨vs, d', hvs, hlex⟩ := Cursor.consumes_of_lexemes hx (by simp [hR.ne_nil])
          refine fits_of_next hj a hc₁ (fun b hb => ?_) (Nat.le_of_lt hm) hne ?_ hnext
            (hvs.ended hd) (hvs.lexemes_eq hx hlex)
          · rw [hrun] at hb
            cases hb
          · obtain ⟨j, rfl⟩ := Nat.exists_eq_succ_of_ne_zero (Nat.ne_of_gt hpos)
            obtain ⟨y, ys, hy⟩ := List.exists_cons_of_ne_nil c₁.lexemes_ne_nil
            rw [hy]
            simp

end bind

end Viable

end Parser
end TinyFront
