import Mathlib.Data.List.Forall2
import TinyFront.Proofs.Moves

/-!
A logic of steadiness. A run is repeated wherever the consumed tokens stand again: at other places,
with more or less room for nesting, and with what follows them cut off by a token that continues
nothing. One rule for each way in which parsers are built.
-/
namespace TinyFront

/-- Tokens of this kind continue no phrase. -/
def TokenKind.isStop : TokenKind → Bool
  | .eof | .rparen | .rbrace | .comma | .semicolon | .fatArrow | .kwElse | .kwFn | .kwType => true
  | _ => false

/-- Sends offsets to other places, in a file of another name. -/
structure Placing where
  file : String → String
  offset : Int → Int

namespace Placing

variable (ρ : Placing)

def span (s : Span) : Span := ⟨ρ.file s.file, ρ.offset s.start, ρ.offset s.stop⟩

def token (t : Token) : Token := { t with span := ρ.span t.span }

@[simp] theorem token_kind (t : Token) : (ρ.token t).kind = t.kind := rfl

@[simp] theorem token_text (t : Token) : (ρ.token t).text = t.text := rfl

@[simp] theorem token_span (t : Token) : (ρ.token t).span = ρ.span t.span := rfl

def shift (distance : Int) : Placing := ⟨id, (· + distance)⟩

theorem token_shift (d : Int) : (shift d).token = Token.shift d := rfl

theorem endOf_map (s s' : Int) {ts : List Token} (h : ts ≠ []) :
    Cursor.endOf s' (ts.map ρ.token) = ρ.offset (Cursor.endOf s ts) := by
  obtain ⟨us, t, rfl⟩ := List.eq_nil_or_concat' ts |>.resolve_left h
  simp [span]

end Placing

/-- The second list is the first one up to some place, and there a token that continues nothing. -/
inductive Cut (ρ : Placing) : List Token → List Token → Prop
  | here {ts : List Token} {stop : Token} {tail : List Token} (h : stop.kind.isStop = true) :
      Cut ρ ts (stop :: tail)
  | step {t : Token} {ts us : List Token} (h : Cut ρ ts us) : Cut ρ (t :: ts) (ρ.token t :: us)

namespace Cut

variable {ρ : Placing}

theorem append {ts us : List Token} (vs : List Token) (h : Cut ρ ts us) :
    Cut ρ (vs ++ ts) (vs.map ρ.token ++ us) := by
  induction vs with
  | nil => exact h
  | cons v vs ih => exact .step ih

theorem ne_nil {ts us : List Token} (h : Cut ρ ts us) : us ≠ [] := by
  cases h <;> simp

/-- A test of the kind that stops reject fails on the cut list if it fails on the whole one. -/
theorem kind_eq_false {c d : Cursor} (h : Cut ρ c.remaining d.remaining) {f : TokenKind → Bool}
    (hf : ∀ k, k.isStop = true → f k = false) (hc : f c.current.kind = false) :
    f d.current.kind = false := by
  obtain ⟨t, ts, e⟩ := c
  obtain ⟨u, us, e'⟩ := d
  simp only [Cursor.remaining] at h
  cases h with
  | here hs => exact hf _ hs
  | step h => exact hc

theorem whole {ts : List Token} (h : ∃ us e, ts = us ++ [e] ∧ e.kind = .eof) :
    Cut ρ ts (ts.map ρ.token) := by
  obtain ⟨us, e, rfl, he⟩ := h
  rw [List.map_append]
  refine append us (.here ?_)
  rw [Placing.token_kind, he]
  rfl

end Cut

namespace Parser

variable {α β γ δ : Type} {ρ : Placing} {deep : Prop} {file : String} {c : Cursor} {n : Nat}

/-- The parser stops because the input nests too deeply for it. -/
def Overflows (p : Parser α) (file : String) (c : Cursor) : Prop :=
  ∃ r d, p file c = .failed (.rejected r) d ∧ r.cause = .nestingTooDeep

theorem Overflows.bind {p : Parser α} (h : p.Overflows file c) (k : α → Parser β) :
    (p >>= k).Overflows file c := by
  obtain ⟨r, d, hrun, hr⟩ := h
  exact ⟨r, d, bind_failed hrun, hr⟩

theorem Overflows.bind_of_done {p : Parser α} {k : α → Parser β} {a : α} {d : Cursor}
    (hp : p file c = .done a d) (h : (k a).Overflows file d) : (p >>= k).Overflows file c := by
  obtain ⟨r, d', hrun, hr⟩ := h
  exact ⟨r, d', by rw [bind_done hp, hrun], hr⟩

/-- What the tokens of a run give where they stand again: an answer that goes with the first one,
unless the input nests too deeply there. -/
def Again (ρ : Placing) (deep : Prop) (q : Parser β) (R : β → Prop) (file : String) (d : Cursor)
    (ts : List Token) : Prop :=
  (∃ b d', q (ρ.file file) d = .done b d' ∧ d.Consumes (ts.map ρ.token) d' ∧ R b) ∨
    deep ∧ q.Overflows (ρ.file file) d

/-- A run consumes at least `n` tokens, its answer has a counterpart, and `q` repeats it, whose bound
must leave room for as many items. If the run may consume nothing, the last token before it must
have ended at the corresponding place. -/
def SteadyUpTo (ρ : Placing) (deep : Prop) (n : Nat) (p : Parser α) (q : Nat → Parser β)
    (R : α → β → Prop) (file : String) (c : Cursor) : Prop :=
  ∀ a c', p file c = .done a c' → (∃ b, R a b) ∧ ∃ ts, n ≤ ts.length ∧ c.Consumes ts c' ∧
    ∀ bound, ts.length ≤ bound → ∀ rest, Cut ρ c'.remaining rest →
      ∀ d : Cursor, d.remaining = ts.map ρ.token ++ rest →
        (n = 0 → d.lastEnd = ρ.offset c.lastEnd) → Again ρ deep (q bound) (R a) file d ts

/-- The same for a parser without a bound. -/
abbrev Steady (ρ : Placing) (deep : Prop) (n : Nat) (p : Parser α) (q : Parser β)
    (R : α → β → Prop) (file : String) (c : Cursor) : Prop :=
  SteadyUpTo ρ deep n p (fun _ => q) R file c

theorem ite_bind {b : Prop} [Decidable b] {p q : Parser α} {k : α → Parser γ} :
    ((if b then p else q) >>= k) = if b then p >>= k else q >>= k := by
  split <;> rfl

theorem commasUpTo_bind (closer : TokenKind) (item : Parser α) (m : Nat)
    (k : List α × Bool → Parser γ) :
    (commasUpTo closer item (m + 1) >>= k) =
      (do
        if ← test (listEnds closer) then k ([], false)
        else
          let a ← item
          if ← test (·.isAt .comma) then
            let _ ← advance
            let x ← commasUpTo closer item m
            k (a :: x.1, x.2 || x.1.isEmpty)
          else k ([a], false)) := by
  simp only [commasUpTo, bind_assoc, ite_bind, pure_bind]
  rfl

namespace SteadyUpTo

variable {p : Parser α} {q : Nat → Parser β} {R : α → β → Prop}

theorem mono {m : Nat} (h : SteadyUpTo ρ deep n p q R file c) (hm : m ≤ n) :
    SteadyUpTo ρ deep m p q R file c := by
  intro a c' hrun
  obtain ⟨hb, ts, hlen, hcons, hrep⟩ := h a c' hrun
  exact ⟨hb, ts, by omega, hcons, fun b hb rest hcut d hd he => hrep b hb rest hcut d hd
    fun h0 => he (by omega)⟩

theorem imp {S : α → β → Prop} (h : SteadyUpTo ρ deep n p q R file c) (hs : ∀ a b, R a b → S a b) :
    SteadyUpTo ρ deep n p q S file c := by
  intro a c' hrun
  obtain ⟨⟨b₀, hb₀⟩, ts, hlen, hcons, hrep⟩ := h a c' hrun
  refine ⟨⟨b₀, hs a b₀ hb₀⟩, ts, hlen, hcons, fun b hb rest hcut d hd he => ?_⟩
  obtain ⟨b, d', hd', hdc, hR⟩ | h := hrep b hb rest hcut d hd he
  · exact .inl ⟨b, d', hd', hdc, hs a b hR⟩
  · exact .inr h

theorem consumes (h : SteadyUpTo ρ deep n p q R file c) {a : α} {c' : Cursor}
    (hrun : p file c = .done a c') : ∃ ts, n ≤ ts.length ∧ c.Consumes ts c' := by
  obtain ⟨-, ts, hlen, hcons, -⟩ := h a c' hrun
  exact ⟨ts, hlen, hcons⟩

theorem shortens (hc : c.Ended) (h : SteadyUpTo ρ deep 1 p q R file c) : p.Shortens file c := by
  intro a c' hrun
  obtain ⟨ts, hlen, hcons⟩ := h.consumes hrun
  have hl := hcons.length
  exact ⟨hcons.ended hc, by omega⟩

/-- The run is repeated at a place where nesting is too deep at once. -/
theorem escape {q' : Nat → Parser β} (h : SteadyUpTo ρ deep n p q R file c) (hdeep : deep)
    (hq : ∀ bound d, (q' bound).Overflows (ρ.file file) d) :
    SteadyUpTo ρ deep n p q' R file c := by
  intro a c' hrun
  obtain ⟨hb, ts, hlen, hcons, -⟩ := h a c' hrun
  exact ⟨hb, ts, hlen, hcons, fun bound _ _ _ d _ _ => .inr ⟨hdeep, hq bound d⟩⟩

/-- Behind what both runs consume, both cursors know the same end. -/
theorem lastEnd_eq {c c' d d' : Cursor} {ts : List Token} (h : c.Consumes ts c')
    (h' : d.Consumes (ts.map ρ.token) d') (hn : n ≤ ts.length)
    (he : n = 0 → d.lastEnd = ρ.offset c.lastEnd) : d'.lastEnd = ρ.offset c'.lastEnd := by
  rw [h.lastEnd, h'.lastEnd]
  cases ts with
  | nil => exact he (by simpa using hn)
  | cons t ts => exact ρ.endOf_map _ _ (by simp)

theorem current_eq {d : Cursor} {ts rest us : List Token} (hc : c.remaining = ts ++ us)
    (hd : d.remaining = ts.map ρ.token ++ rest) (hts : 1 ≤ ts.length) :
    d.current = ρ.token c.current := by
  cases ts with
  | nil => simp at hts
  | cons t ts => rw [(Cursor.current_of_remaining hc).1, (Cursor.current_of_remaining hd).1]

theorem pure {a : α} {b : Nat → β} (h : ∀ m, R a (b m)) :
    SteadyUpTo ρ deep 0 (pure a) (fun m => pure (b m)) R file c := by
  intro a' c' hrun
  obtain ⟨rfl, rfl⟩ := pure_eq_done.1 hrun
  exact ⟨⟨b 0, h 0⟩, [], Nat.zero_le _, .refl _,
    fun m _ rest _ d _ _ => .inl ⟨b m, d, rfl, .refl _, h m⟩⟩

/-- Behind `n` tokens a loop may go on with a bound that is lower by `n`. -/
theorem bind_add {m : Nat} {k : α → Parser γ} {l : Nat → β → Parser δ} {S : γ → δ → Prop}
    (hc : c.Ended) (hp : SteadyUpTo ρ deep n p q R file c) (hm : n = 0 → m = 0)
    (hk : ∀ a b c', p file c = .done a c' → c'.Ended → R a b →
      SteadyUpTo ρ deep m (k a) (fun bound => l (bound + n) b) S file c') :
    SteadyUpTo ρ deep (n + m) (p >>= k) (fun bound => q bound >>= l bound) S file c := by
  intro b c' hrun
  obtain ⟨a, e, ha, hb⟩ := bind_eq_done.1 hrun
  obtain ⟨⟨b₀, hb₀⟩, ts, hlen, hts, hrep⟩ := hp a e ha
  obtain ⟨hex, us, hlen', hus, -⟩ := hk a b₀ e ha (hts.ended hc) hb₀ b c' hb
  refine ⟨hex, ts ++ us, by simp; omega, hts.trans hus, fun bound hbound rest hcut d hd he => ?_⟩
  simp only [List.length_append] at hbound
  have hd₁ : d.remaining = ts.map ρ.token ++ (us.map ρ.token ++ rest) := by simp [hd]
  have hcut₁ : Cut ρ e.remaining (us.map ρ.token ++ rest) := by
    rw [hus.remaining]
    exact hcut.append us
  obtain ⟨x, d₁, hx, hd₁', hR⟩ | ⟨hdeep, hover⟩ :=
    hrep bound (by omega) _ hcut₁ d hd₁ fun h0 => he (by omega)
  · obtain ⟨-, us', -, hus', hrep'⟩ := hk a x e ha (hts.ended hc) hR b c' hb
    obtain rfl : us' = us := List.append_cancel_right (hus'.remaining.symm.trans hus.remaining)
    have hrem : d₁.remaining = us'.map ρ.token ++ rest :=
      (List.append_cancel_left (hd₁.symm.trans hd₁'.remaining)).symm
    have hagain := hrep' (bound - n) (by omega) rest hcut d₁ hrem
      fun h0 => lastEnd_eq hts hd₁' hlen fun h1 => he (by omega)
    simp only [show bound - n + n = bound by omega] at hagain
    obtain ⟨y, d₂, hy, hd₂, hS⟩ | ⟨hdeep, hover⟩ := hagain
    · refine .inl ⟨y, d₂, (bind_done hx).trans hy, ?_, hS⟩
      rw [List.map_append]
      exact hd₁'.trans hd₂
    · exact .inr ⟨hdeep, .bind_of_done hx hover⟩
  · exact .inr ⟨hdeep, hover.bind _⟩

theorem bind {k : α → Parser γ} {l : Nat → β → Parser δ} {S : γ → δ → Prop}
    (hc : c.Ended) (hp : SteadyUpTo ρ deep n p q R file c)
    (hk : ∀ a b c', p file c = .done a c' → c'.Ended → R a b →
      SteadyUpTo ρ deep 0 (k a) (fun bound => l (bound + n) b) S file c') :
    SteadyUpTo ρ deep n (p >>= k) (fun bound => q bound >>= l bound) S file c :=
  bind_add hc hp (fun _ => rfl) hk

theorem of_advance {p p' : Parser Token} {f : TokenKind → Prop} (hf : ¬ f .eof) (hc : c.Ended)
    (h : ∀ file c t c', p file c = .done t c' → f c.current.kind ∧ t = c.current ∧ c' = c.advance)
    (h' : ∀ file c, f c.current.kind → p' file c = .done c.current c.advance) :
    Steady ρ deep 1 p p' (fun t u => u = ρ.token t) file c := by
  intro t c' hrun
  obtain ⟨hk, rfl, rfl⟩ := h _ _ _ _ hrun
  have hne : c.current.kind ≠ .eof := fun he => hf (he ▸ hk)
  have hcons := hc.consumes_advance hne
  refine ⟨⟨_, rfl⟩, [c.current], by simp, hcons, fun _ _ rest hcut d hd _ => .inl ?_⟩
  have hcur := current_eq hcons.remaining hd (by simp)
  obtain ⟨hrem, hlast⟩ := Cursor.advance_of_remaining hd hcut.ne_nil
  refine ⟨d.current, d.advance, h' _ _ (by rw [hcur]; exact hk), ⟨?_, ?_⟩, hcur⟩
  · rw [hd, hrem]
    rfl
  · simpa using hlast

theorem advance (hc : c.Ended) (hk : c.current.kind ≠ .eof) :
    Steady ρ deep 1 Parser.advance Parser.advance (fun t u => u = ρ.token t) file c := by
  intro t c' hrun
  refine of_advance (p := fun file c => if c.current.kind ≠ .eof then Parser.advance file c else
    .failed .noTokens c) (f := (· ≠ .eof)) (by simp) hc (fun file c t c' h => ?_)
    (fun file c _ => rfl) t c' ((if_pos hk).trans hrun)
  split at h
  · rename_i hk
    exact ⟨hk, advance_eq_done.1 h⟩
  · cases h

theorem expect {cat : Category} {k : TokenKind} (hc : c.Ended) (hk : k ≠ .eof) :
    Steady ρ deep 1 (expect cat k) (expect cat k) (fun t u => u = ρ.token t) file c :=
  of_advance (f := (· = k)) (Ne.symm hk) hc (fun _ _ _ _ h => expect_eq_done.1 h)
    fun _ _ h => expect_eq_done.2 ⟨h, rfl, rfl⟩

theorem expectClosing {cat : Category} {o k : TokenKind} (hc : c.Ended) (hk : k ≠ .eof) :
    Steady ρ deep 1 (expectClosing cat o k) (expectClosing cat o k)
      (fun t u => u = ρ.token t) file c :=
  of_advance (f := (· = k)) (Ne.symm hk) hc (fun _ _ _ _ h => expectClosing_eq_done.1 h)
    fun _ _ h => expectClosing_eq_done.2 ⟨h, rfl, rfl⟩

theorem located {p : Parser (Span → α)} {q : Parser (Span → β)} (hn : 1 ≤ n)
    (h : Steady ρ deep n p q (fun f g => ∀ s, R (f s) (g (ρ.span s))) file c) :
    Steady ρ deep n (located p) (located q) R file c := by
  intro a c' hrun
  obtain ⟨build, hb, rfl⟩ := located_eq_done.1 hrun
  obtain ⟨⟨g, hg⟩, ts, hlen, hcons, hrep⟩ := h build c' hb
  refine ⟨⟨_, hg _⟩, ts, hlen, hcons, fun bound hbound rest hcut d hd he => ?_⟩
  obtain ⟨g, d', hg, hd', hR⟩ | ⟨hdeep, r, d', hd', hr⟩ := hrep bound hbound rest hcut d hd he
  · refine .inl ⟨_, d', located_eq_done.2 ⟨g, hg, rfl⟩, hd', ?_⟩
    rw [current_eq hcons.remaining hd (by omega), lastEnd_eq hcons hd' hlen he]
    exact hR _
  · exact .inr ⟨hdeep, .bind ⟨r, d', hd', hr⟩ _⟩

/-- Two ways to close a span that go with each other. -/
def Closes (ρ : Placing) (f g : Int → Span) : Prop := ∀ s, g (ρ.offset s) = ρ.span (f s)

theorem closing (h : SteadyUpTo ρ deep n p q R file c) :
    SteadyUpTo ρ deep n (closing p) (fun m => Parser.closing (q m))
      (fun x y => R x.1 y.1 ∧ Closes ρ x.2 y.2) file c := by
  intro x c' hrun
  obtain ⟨hx, hf⟩ := closing_eq_done.1 hrun
  obtain ⟨⟨b₀, hb₀⟩, ts, hlen, hcons, hrep⟩ := h x.1 c' hx
  refine ⟨⟨(b₀, fun s => ⟨ρ.file file, s, ρ.offset c'.lastEnd⟩), hb₀, fun s => by rw [hf]; rfl⟩, ts, hlen, hcons,
    fun bound hbound rest hcut d hd he => ?_⟩
  obtain ⟨b, d', hb, hd', hR⟩ | ⟨hdeep, hover⟩ := hrep bound hbound rest hcut d hd he
  · refine .inl ⟨(b, fun s => ⟨ρ.file file, s, d'.lastEnd⟩), d', closing_eq_done.2 ⟨hb, rfl⟩, hd', hR,
      fun s => ?_⟩
    rw [hf, lastEnd_eq hcons hd' hlen he]
    rfl
  · exact .inr ⟨hdeep, hover.bind _⟩

theorem current {k : Token → Parser α} {l : Nat → Token → Parser β} (hn : 1 ≤ n)
    (h : SteadyUpTo ρ deep n (k c.current) (fun m => l m (ρ.token c.current)) R file c) :
    SteadyUpTo ρ deep n (current >>= k) (fun m => Parser.current >>= l m) R file c := by
  intro a c' hrun
  obtain ⟨hex, ts, hlen, hcons, hrep⟩ := h a c' hrun
  refine ⟨hex, ts, hlen, hcons, fun bound hbound rest hcut d hd he => ?_⟩
  have hagain := hrep bound hbound rest hcut d hd he
  rw [← current_eq hcons.remaining hd (by omega)] at hagain
  exact hagain

theorem start {k : Int → Parser α} {l : Nat → Int → Parser β} (hn : 1 ≤ n)
    (h : SteadyUpTo ρ deep n (k c.current.span.start)
      (fun m => l m (ρ.offset c.current.span.start)) R file c) :
    SteadyUpTo ρ deep n (start >>= k) (fun m => Parser.start >>= l m) R file c :=
  current (k := fun t => k t.span.start) (l := fun m t => l m t.span.start) hn h

theorem spanFrom {s : Int} {k : Span → Parser α} {l : Nat → Span → Parser β}
    (h : SteadyUpTo ρ deep 0 (k ⟨file, s, c.lastEnd⟩)
      (fun m => l m (ρ.span ⟨file, s, c.lastEnd⟩)) R file c) :
    SteadyUpTo ρ deep 0 (spanFrom s >>= k) (fun m => Parser.spanFrom (ρ.offset s) >>= l m) R
      file c := by
  intro a c' hrun
  obtain ⟨hex, ts, hlen, hcons, hrep⟩ := h a c' hrun
  refine ⟨hex, ts, hlen, hcons, fun bound hbound rest hcut d hd he => ?_⟩
  have hagain := hrep bound hbound rest hcut d hd he
  simp only [Placing.span, ← he rfl] at hagain
  exact hagain

/-- A choice by the kind under the cursor. Where its second branch may consume nothing, a stop must
choose that branch. -/
theorem test {t : Cursor → Bool} {f : TokenKind → Bool} {p₁ p₂ : Parser α} {q₁ q₂ : Nat → Parser β}
    (ht : ∀ c, t c = f c.current.kind) (hn : n ≤ 1)
    (hstop : n = 0 → ∀ k, k.isStop = true → f k = false)
    (h₁ : t c = true → SteadyUpTo ρ deep 1 p₁ q₁ R file c)
    (h₂ : t c = false → SteadyUpTo ρ deep n p₂ q₂ R file c) :
    SteadyUpTo ρ deep n (test t >>= fun b => if b then p₁ else p₂)
      (fun m => Parser.test t >>= fun b => if b then q₁ m else q₂ m) R file c := by
  intro b c' hrun
  rw [test_bind, ite_apply] at hrun
  by_cases hc : t c = true
  · rw [if_pos hc] at hrun
    obtain ⟨hex, ts, hlen, hcons, hrep⟩ := h₁ hc b c' hrun
    refine ⟨hex, ts, by omega, hcons, fun bound hbound rest hcut d hd he => ?_⟩
    have hd' : t d = true := by
      rw [ht, current_eq hcons.remaining hd hlen, Placing.token_kind, ← ht, hc]
    have hagain := hrep bound hbound rest hcut d hd (by simp)
    simpa [Again, Overflows, hd'] using hagain
  · rw [if_neg hc] at hrun
    rw [Bool.not_eq_true] at hc
    obtain ⟨hex, ts, hlen, hcons, hrep⟩ := h₂ hc b c' hrun
    refine ⟨hex, ts, hlen, hcons, fun bound hbound rest hcut d hd he => ?_⟩
    have hd' : t d = false := by
      rw [ht] at hc ⊢
      by_cases h0 : n = 0
      · have hcut' : Cut ρ c.remaining d.remaining := by
          rw [hcons.remaining, hd]
          exact hcut.append ts
        exact hcut'.kind_eq_false (hstop h0) hc
      · rw [current_eq hcons.remaining hd (by omega), Placing.token_kind, hc]
    have hagain := hrep bound hbound rest hcut d hd he
    simpa [Again, Overflows, hd'] using hagain

/-- A test of the kind that is known to fail, where something is consumed behind it. -/
theorem test_of_eq_false {t : Cursor → Bool} {f : TokenKind → Bool} {p₁ p₂ : Parser α}
    {q₁ q₂ : Nat → Parser β} (ht : ∀ c, t c = f c.current.kind) (hn : 1 ≤ n) (hc : t c = false)
    (h : SteadyUpTo ρ deep n p₂ q₂ R file c) :
    SteadyUpTo ρ deep n (Parser.test t >>= fun b => if b then p₁ else p₂)
      (fun m => Parser.test t >>= fun b => if b then q₁ m else q₂ m) R file c := by
  intro b c' hrun
  rw [test_bind, hc] at hrun
  obtain ⟨hex, ts, hlen, hcons, hrep⟩ := h b c' hrun
  refine ⟨hex, ts, hlen, hcons, fun bound hbound rest hcut d hd he => ?_⟩
  have hd' : t d = false := by
    rw [ht] at hc ⊢
    rw [current_eq hcons.remaining hd (by omega), Placing.token_kind, hc]
  have hagain := hrep bound hbound rest hcut d hd he
  simpa [Again, Overflows, hd'] using hagain

theorem ite {b b' : Prop} [Decidable b] [Decidable b'] {p₁ p₂ : Parser α} {q₁ q₂ : Nat → Parser β}
    (hb : b ↔ b') (h₁ : b → SteadyUpTo ρ deep n p₁ q₁ R file c)
    (h₂ : ¬b → SteadyUpTo ρ deep n p₂ q₂ R file c) :
    SteadyUpTo ρ deep n (if b then p₁ else p₂) (fun m => if b' then q₁ m else q₂ m) R file c := by
  by_cases h : b
  · simpa only [if_pos h, if_pos (hb.1 h)] using h₁ h
  · simpa only [if_neg h, if_neg (fun h' => h (hb.2 h'))] using h₂ h

theorem unexpected {cat : Category} {e : Expected} :
    SteadyUpTo ρ deep n (unexpected cat e) q R file c := fun _ _ h => (unexpected_ne_done.1 h).elim

theorem reject {cat : Category} {e : Cause} : SteadyUpTo ρ deep n (reject cat e) q R file c :=
  fun _ _ h => (reject_ne_done.1 h).elim

theorem fail {e : Failure} : SteadyUpTo ρ deep n (fail e) q R file c :=
  fun _ _ h => (fail_ne_done.1 h).elim

theorem bounded (loop : Nat → Parser α) (loop' : Nat → Parser β)
    (h : SteadyUpTo ρ deep n (loop c.remaining.length) (fun m => loop' (m + 1)) R file c) :
    Steady ρ deep n (fun file c => loop c.remaining.length file c)
      (fun file d => loop' d.remaining.length file d) R file c := by
  intro a c' hrun
  obtain ⟨hex, ts, hlen, hcons, hrep⟩ := h a c' hrun
  refine ⟨hex, ts, hlen, hcons, fun _ _ rest hcut d hd he => ?_⟩
  have hne : 0 < rest.length := List.length_pos_iff.2 hcut.ne_nil
  have hl : d.remaining.length - 1 + 1 = d.remaining.length := by simp [hd]; omega
  have hagain := hrep (d.remaining.length - 1) (by simp [hd]; omega) rest hcut d hd he
  simp only [hl] at hagain
  exact hagain

/-- A test that has the same answer wherever the same tokens are ahead. -/
structure Looks (ρ : Placing) (starts : Cursor → Bool) (item : Parser α) (file : String) : Prop where
  /-- It looks at nothing behind the item. -/
  same : ∀ c a c' ts d rest, c.Ended → starts c = true → item file c = .done a c' →
    c.Consumes ts c' → d.remaining = ts.map ρ.token ++ rest → starts d = true
  cut : ∀ c d, starts c = false → Cut ρ c.remaining d.remaining → starts d = false

theorem manyUpTo_of_starts {starts : Cursor → Bool} {item : Parser α} {item' : Parser β}
    (hlooks : Looks ρ starts item file) (hitem : Steady ρ deep 1 item item' R file c) {m : Nat}
    (hc : c.Ended) (hs : starts c = true)
    (hrest : ∀ d, d.Ended → d.remaining.length < c.remaining.length →
      SteadyUpTo ρ deep 0 (manyUpTo starts item m) (fun m => manyUpTo starts item' (m + 1))
        (List.Forall₂ R) file d) :
    SteadyUpTo ρ deep 1 (manyUpTo starts item (m + 1)) (fun m => manyUpTo starts item' (m + 1))
      (List.Forall₂ R) file c := by
  have hstep : SteadyUpTo ρ deep 1
      (do let a ← item; return a :: (← Parser.manyUpTo starts item m))
      (fun m => do let a ← item'; return a :: (← Parser.manyUpTo starts item' m))
      (List.Forall₂ R) file c := by
    refine bind hc hitem fun a b d hd hended hR => ?_
    obtain ⟨-, hlt⟩ := hitem.shortens hc a d hd
    refine bind hended (hrest d hended hlt) fun as bs d' _ _ hRs => pure fun _ => ?_
    exact .cons hR hRs
  intro as c' hrun
  rw [Parser.manyUpTo, test_bind, ite_apply, if_pos hs] at hrun
  obtain ⟨hex, ts, hlen, hcons, hrep⟩ := hstep as c' hrun
  refine ⟨hex, ts, hlen, hcons, fun bound hbound rest hcut d hd he => ?_⟩
  obtain ⟨a, e, ha, hrest'⟩ := bind_eq_done.1 hrun
  obtain ⟨as', e', has', hrest'⟩ := bind_eq_done.1 hrest'
  obtain ⟨-, rfl⟩ := pure_eq_done.1 hrest'
  obtain ⟨us, hus, hcons'⟩ := hitem.consumes ha
  obtain ⟨hended, hlt⟩ := hitem.shortens hc a e ha
  obtain ⟨vs, -, hcons''⟩ := (hrest e hended hlt).consumes has'
  have hts : ts = us ++ vs := List.append_cancel_right
    (hcons.remaining.symm.trans (hcons'.trans hcons'').remaining)
  have hs' : starts d = true := hlooks.same c a e us d (vs.map ρ.token ++ rest) hc hs ha hcons'
    (by rw [hd, hts, List.map_append, List.append_assoc])
  have hagain := hrep bound hbound rest hcut d hd he
  simpa [Again, Overflows, Parser.manyUpTo, hs'] using hagain

theorem manyUpTo {starts : Cursor → Bool} {item : Parser α} {item' : Parser β}
    (hlooks : Looks ρ starts item file)
    (hitem : ∀ c, c.Ended → starts c = true → Steady ρ deep 1 item item' R file c)
    (m : Nat) (hc : c.Ended) (hm : c.remaining.length ≤ m) :
    SteadyUpTo ρ deep 0 (manyUpTo starts item m) (fun m => manyUpTo starts item' (m + 1))
      (List.Forall₂ R) file c := by
  induction m generalizing c with
  | zero => exact absurd (List.length_eq_zero_iff.1 (Nat.le_zero.1 hm)) c.remaining_ne_nil
  | succ m ih =>
    by_cases hs : starts c = true
    · exact (manyUpTo_of_starts hlooks (hitem c hc hs) hc hs
        fun d hd hlt => ih hd (by omega)).mono (Nat.zero_le 1)
    · intro as c' hrun
      rw [Parser.manyUpTo, test_bind, ite_apply, if_neg hs] at hrun
      obtain ⟨rfl, rfl⟩ := pure_eq_done.1 hrun
      refine ⟨⟨[], .nil⟩, [], Nat.zero_le _, .refl _, fun bound _ rest hcut d hd _ => .inl ?_⟩
      have hs' : starts d = false := hlooks.cut c d (by simpa using hs) (by rwa [hd])
      exact ⟨[], d, by simp [Parser.manyUpTo, hs'], .refl _, .nil⟩

theorem many {starts : Cursor → Bool} {item : Parser α} {item' : Parser β}
    (hlooks : Looks ρ starts item file)
    (hitem : ∀ c, c.Ended → starts c = true → Steady ρ deep 1 item item' R file c)
    (hc : c.Ended) :
    Steady ρ deep 0 (many starts item) (many starts item') (List.Forall₂ R) file c :=
  bounded (Parser.manyUpTo starts item) (Parser.manyUpTo starts item')
    (manyUpTo hlooks hitem _ hc (Nat.le_refl _))

theorem many_of_starts {starts : Cursor → Bool} {item : Parser α} {item' : Parser β}
    (hlooks : Looks ρ starts item file)
    (hitem : ∀ c, c.Ended → starts c = true → Steady ρ deep 1 item item' R file c)
    (hc : c.Ended) (hs : starts c = true) :
    Steady ρ deep 1 (Parser.many starts item) (Parser.many starts item') (List.Forall₂ R) file c := by
  refine bounded (Parser.manyUpTo starts item) (Parser.manyUpTo starts item') ?_
  exact manyUpTo_of_starts hlooks (hitem c hc hs) hc hs
    fun d hd hlt => manyUpTo hlooks hitem c.rest.length hd (Nat.le_of_lt_succ hlt)

theorem Looks.of_kind {starts : Cursor → Bool} {f : TokenKind → Bool} {item : Parser α}
    {item' : Parser β} (hs : ∀ c, starts c = f c.current.kind)
    (hstop : ∀ k, k.isStop = true → f k = false)
    (hitem : ∀ c, c.Ended → starts c = true → Steady ρ deep 1 item item' R file c) :
    Looks ρ starts item file where
  same c a c' ts d rest hc hstart hrun hcons hd := by
    obtain ⟨us, hus, hcons'⟩ := (hitem c hc hstart).consumes hrun
    have hts : ts = us := List.append_cancel_right (hcons.remaining.symm.trans hcons'.remaining)
    rw [hs, current_eq hcons.remaining hd (by rw [hts]; exact hus), Placing.token_kind, ← hs, hstart]
  cut c d hstart hcut := by
    rw [hs] at hstart ⊢
    exact hcut.kind_eq_false hstop hstart

theorem many_kind {starts : Cursor → Bool} {f : TokenKind → Bool} {item : Parser α}
    {item' : Parser β} (hs : ∀ c, starts c = f c.current.kind)
    (hstop : ∀ k, k.isStop = true → f k = false)
    (hitem : ∀ c, c.Ended → starts c = true → Steady ρ deep 1 item item' R file c)
    (hc : c.Ended) :
    Steady ρ deep 0 (Parser.many starts item) (Parser.many starts item') (List.Forall₂ R) file c :=
  many (.of_kind hs hstop hitem) hitem hc

theorem forall₂_eq_map {g : α → β} {as : List α} {bs : List β} :
    List.Forall₂ (fun a b => b = g a) as bs ↔ bs = as.map g := by
  induction as generalizing bs with
  | nil => simp
  | cons a as ih => simp [List.forall₂_cons_left_iff, ih]

theorem roomier (h : SteadyUpTo ρ deep n p q R file c) (k : Nat) :
    SteadyUpTo ρ deep n p (fun m => q (m + k)) R file c := by
  intro a c' hrun
  obtain ⟨hex, ts, hlen, hcons, hrep⟩ := h a c' hrun
  exact ⟨hex, ts, hlen, hcons, fun bound hbound => hrep (bound + k) (by omega)⟩

section

variable {closer : TokenKind} {item : Parser α} {item' : Parser β} {S : γ → δ → Prop}

/-- What closes a list is read in the same way for all lists that go with each other. -/
def Closers (ρ : Placing) (deep : Prop) (R : α → β → Prop) (S : γ → δ → Prop) (file : String)
    (k : List α × Bool → Parser γ) (l : List β × Bool → Parser δ) : Prop :=
  ∀ as bs t c, c.Ended → List.Forall₂ R as bs → Steady ρ deep 1 (k (as, t)) (l (bs, t)) S file c

theorem Closers.cons {k : List α × Bool → Parser γ} {l : List β × Bool → Parser δ}
    (hk : Closers ρ deep R S file k l) {a : α} {b : β} (hR : R a b) :
    Closers ρ deep R S file (fun x => k (a :: x.1, x.2 || x.1.isEmpty))
      (fun x => l (b :: x.1, x.2 || x.1.isEmpty)) := by
  intro as bs t c hc hRs
  have hempty : as.isEmpty = bs.isEmpty := by cases hRs <;> rfl
  simp only [hempty]
  exact hk _ _ _ c hc (.cons hR hRs)

theorem commas_rest {k : List α × Bool → Parser γ} {l : List β × Bool → Parser δ}
    (hk : Closers ρ deep R S file k l) {m : Nat} {a : α} {b : β} (hR : R a b) (hc : c.Ended)
    (hrest : ∀ d, d.Ended → d.remaining.length < c.remaining.length →
      SteadyUpTo ρ deep 1
        (commasUpTo closer item m >>= fun x => k (a :: x.1, x.2 || x.1.isEmpty))
        (fun m => commasUpTo closer item' (m + 1) >>= fun x => l (b :: x.1, x.2 || x.1.isEmpty))
        S file d) :
    SteadyUpTo ρ deep 1
      (do
        if ← Parser.test (·.isAt .comma) then
          let _ ← Parser.advance
          let x ← commasUpTo closer item m
          k (a :: x.1, x.2 || x.1.isEmpty)
        else k ([a], false))
      (fun m => do
        if ← Parser.test (·.isAt .comma) then
          let _ ← Parser.advance
          let x ← commasUpTo closer item' (m + 1)
          l (b :: x.1, x.2 || x.1.isEmpty)
        else l ([b], false)) S file c := by
  refine test (f := (· == .comma)) (fun _ => rfl) (Nat.le_refl _) (by simp) (fun hcomma => ?_)
    (fun _ => hk _ _ _ c hc (.cons hR .nil))
  have hadv : Steady ρ deep 1 Parser.advance _ _ file c :=
    advance hc (by simp [Cursor.kind_of_isAt hcomma])
  refine bind hc hadv fun _ _ d hd hended _ => ?_
  exact ((hrest d hended (hadv.shortens hc _ _ hd).2).mono (Nat.zero_le _)).roomier 1

theorem commasUpTo_bind_steady
    (hitem : ∀ c, c.Ended → listEnds closer c = false → Steady ρ deep 1 item item' R file c) (m : Nat)
    {k : List α × Bool → Parser γ} {l : List β × Bool → Parser δ} (hk : Closers ρ deep R S file k l)
    (hc : c.Ended) (hm : c.remaining.length ≤ m) :
    SteadyUpTo ρ deep 1 (commasUpTo closer item m >>= k)
      (fun m => commasUpTo closer item' (m + 1) >>= l) S file c := by
  induction m generalizing c k l with
  | zero => exact absurd (List.length_eq_zero_iff.1 (Nat.le_zero.1 hm)) c.remaining_ne_nil
  | succ m ih =>
    simp only [commasUpTo_bind]
    refine test (f := fun k => k == closer || k == .eof) (fun _ => rfl) (Nat.le_refl _) (by simp)
      (fun _ => hk [] [] false c hc .nil) (fun hends => ?_)
    have hitem' := hitem c hc hends
    refine bind hc hitem' fun a b d hd hended hR => ?_
    obtain ⟨-, hlt⟩ := hitem'.shortens hc a d hd
    exact (commas_rest hk hR hended fun e he hlt' => ih (hk.cons hR) he (by omega)).mono
      (Nat.zero_le _)

theorem commas_bind
    (hitem : ∀ c, c.Ended → listEnds closer c = false → Steady ρ deep 1 item item' R file c)
    {k : List α × Bool → Parser γ} {l : List β × Bool → Parser δ} (hk : Closers ρ deep R S file k l)
    (hc : c.Ended) : Steady ρ deep 1 (commas closer item >>= k) (commas closer item' >>= l) S file c :=
  bounded (fun m => commasUpTo closer item m >>= k) (fun m => commasUpTo closer item' m >>= l)
    (commasUpTo_bind_steady hitem _ hk hc (Nat.le_refl _))

theorem commas_bind_of_not_listEnds (hn : 1 ≤ n)
    (hitem : ∀ c, c.Ended → listEnds closer c = false → Steady ρ deep n item item' R file c)
    {k : List α × Bool → Parser γ} {l : List β × Bool → Parser δ} (hk : Closers ρ deep R S file k l)
    (hc : c.Ended) (hends : listEnds closer c = false) :
    Steady ρ deep n (commas closer item >>= k) (commas closer item' >>= l) S file c := by
  have hitem₁ : ∀ c, c.Ended → listEnds closer c = false → Steady ρ deep 1 item item' R file c :=
    fun c hc h => (hitem c hc h).mono hn
  refine bounded (fun m => commasUpTo closer item m >>= k)
    (fun m => commasUpTo closer item' m >>= l) ?_
  rw [show c.remaining.length = c.rest.length + 1 from rfl]
  simp only [commasUpTo_bind]
  refine test_of_eq_false (f := fun k => k == closer || k == .eof) (fun _ => rfl) hn hends ?_
  refine bind (l := fun m b => (do
    if ← Parser.test (·.isAt .comma) then
      let _ ← Parser.advance
      let x ← commasUpTo closer item' m
      l (b :: x.1, x.2 || x.1.isEmpty)
    else l ([b], false))) hc (hitem c hc hends) fun a b d hd hended hR => ?_
  obtain ⟨-, hlt⟩ := (hitem₁ c hc hends).shortens hc a d hd
  have hlen : c.remaining.length = c.rest.length + 1 := rfl
  have hrest := (commas_rest hk hR hended fun e he hlt' =>
    commasUpTo_bind_steady hitem₁ c.rest.length (hk.cons hR) he (by omega)).mono (Nat.zero_le 1)
  have hroom := hrest.roomier (n - 1)
  simpa only [show ∀ m, m + (n - 1) + 1 = m + n by omega] using hroom

end

end SteadyUpTo
end Parser
end TinyFront
