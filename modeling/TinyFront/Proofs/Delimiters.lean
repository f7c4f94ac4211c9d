import TinyFront.Proofs.Alone

/-!
A logic of closing delimiters. A run is set beside the run over the same tokens with a closing
delimiter put in before the end marker. Both go alike as long as they are in front of that place; where
the first one is refused there, the second one passes the delimiter if it is what the refusal asks for,
and is refused at it otherwise. One rule for each way in which parsers are built.
-/
namespace TinyFront

namespace TokenKind

/-- The delimiters that close what another one has opened. -/
def Closes (k : TokenKind) : Prop := k = .rparen ∨ k = .rbrace

/-- What nothing begins with: closing delimiters and the end marker. -/
def isEdge : TokenKind → Bool
  | .rparen | .rbrace | .eof => true
  | _ => false

theorem Closes.isEdge {k : TokenKind} (h : k.Closes) : k.isEdge = true := by
  obtain rfl | rfl := h <;> rfl

theorem Closes.ne_eof {k : TokenKind} (h : k.Closes) : k ≠ .eof := by
  obtain rfl | rfl := h <;> decide

end TokenKind

/-- The delimiter for want of which the end of the input is refused. -/
def Cause.closer? : Cause → Option TokenKind
  | .unclosed _ closer => some closer
  | _ => none

/-- Tokens in front of an end marker, and a closing delimiter with an end marker of its own that are
put in the place of that one. -/
structure Insertion where
  front : List Token
  stop : Token
  closer : Token
  last : Token
  ne_eof : ∀ t ∈ front, t.kind ≠ .eof
  stop_eof : stop.kind = .eof
  closes : closer.kind.Closes
  last_eof : last.kind = .eof

namespace Insertion

variable {I : Insertion} {c d : Cursor}

/-- The cursors have the same of the tokens ahead, and behind these the second one has the delimiter. -/
structure Ahead (I : Insertion) (c d : Cursor) : Prop where
  exists_tokens : ∃ ts, ts <:+ I.front ∧ c.remaining = ts ++ [I.stop] ∧
    d.remaining = ts ++ [I.closer, I.last]
  lastEnd : d.lastEnd = c.lastEnd

structure Inside (I : Insertion) (c d : Cursor) : Prop where
  mem : c.current ∈ I.front
  current : d.current = c.current
  advance : I.Ahead c.advance d.advance
  length : c.advance.remaining.length + 1 = c.remaining.length

/-- The first cursor is on the end marker and the second one on the delimiter. -/
structure Behind (I : Insertion) (c d : Cursor) : Prop where
  stop : c.remaining = [I.stop]
  closer : d.remaining = [I.closer, I.last]

theorem Ahead.cases (h : I.Ahead c d) : I.Inside c d ∨ I.Behind c d := by
  obtain ⟨ts, hts, hc, hd⟩ := h.exists_tokens
  cases ts with
  | nil => exact .inr ⟨hc, hd⟩
  | cons t ts =>
    obtain ⟨hstep, hend⟩ := Cursor.advance_of_remaining hc (by simp)
    obtain ⟨hstep', hend'⟩ := Cursor.advance_of_remaining hd (by simp)
    have hcur := (Cursor.current_of_remaining hc).1
    refine .inl ⟨hcur ▸ hts.mem (by simp), (Cursor.current_of_remaining hd).1.trans hcur.symm, ?_, ?_⟩
    · exact ⟨⟨ts, (List.suffix_cons t ts).trans hts, hstep, hstep'⟩, hend'.trans hend.symm⟩
    · rw [hstep, hc]
      rfl

theorem Ahead.length (h : I.Ahead c d) : d.remaining.length = c.remaining.length + 1 := by
  obtain ⟨ts, -, hc, hd⟩ := h.exists_tokens
  rw [hc, hd]
  simp

theorem Inside.ne_eof (h : I.Inside c d) : c.current.kind ≠ .eof := I.ne_eof _ h.mem

theorem Behind.current (h : I.Behind c d) : c.current = I.stop := (Cursor.current_of_remaining h.stop).1

theorem Behind.current' (h : I.Behind c d) : d.current = I.closer :=
  (Cursor.current_of_remaining h.closer).1

theorem Behind.advance (h : I.Behind c d) : d.advance.remaining = [I.last] :=
  (Cursor.advance_of_remaining h.closer (by simp)).1

theorem Behind.isEdge (h : I.Behind c d) : c.current.kind.isEdge = true := by
  rw [h.current, I.stop_eof]
  rfl

theorem Behind.isEdge' (h : I.Behind c d) : d.current.kind.isEdge = true := by
  rw [h.current']
  exact I.closes.isEdge

theorem Ahead.inside (h : I.Ahead c d) (hc : c.current.kind.isEdge = false) : I.Inside c d :=
  h.cases.resolve_right fun hbehind => by simp [hbehind.isEdge] at hc

def bare (e : Token) (he : e.kind = .eof) : Insertion :=
  ⟨[], e, ⟨.rparen, "", e.span⟩, e, by simp, he, .inl rfl, he⟩

theorem ahead_bare {e : Token} (he : e.kind = .eof) (hc : c.remaining = [e]) :
    (bare e he).Ahead c ⟨⟨.rparen, "", e.span⟩, [e], c.lastEnd⟩ :=
  ⟨⟨[], List.suffix_refl _, hc, rfl⟩, rfl⟩

end Insertion

/-- A failure in front of the delimiter, and not for want of one. -/
def Failure.Before (I : Insertion) (e : Failure) : Prop :=
  ∃ t ∈ I.front, ∀ r, e = .rejected r → r.span = t.span ∧ r.cause.closer? = none

theorem Rejection.before {I : Insertion} {r : Rejection} {t : Token} (ht : t ∈ I.front)
    (hr : r.span = t.span) (hcloser : r.cause.closer? = none) : (Failure.rejected r).Before I :=
  ⟨t, ht, fun _ h => Failure.rejected.inj h ▸ ⟨hr, hcloser⟩⟩

namespace Outcome

variable {α : Type}

/-- The run is refused at the token. -/
def RefusedAt (y : Outcome α) (t : Token) : Prop := ∃ r d, y = .failed (.rejected r) d ∧ r.span = t.span

/-- The run has come as far as the last token, and is refused at no other. -/
def Reaches (y : Outcome α) (last : Token) : Prop :=
  (∃ a d, y = .done a d ∧ d.remaining = [last]) ∨ y.RefusedAt last

/-- What the run with the delimiter does, told by the run without it. That one has at most `n` tokens left
if it succeeds. -/
inductive Mirrors (I : Insertion) (n : Nat) : Outcome α → Outcome α → Prop
  | done {a : α} {c d : Cursor} (h : I.Ahead c d) (hn : c.remaining.length ≤ n) :
      Mirrors I n (.done a c) (.done a d)
  | early {e f : Failure} {c d : Cursor} (he : e.Before I) (hf : f.Before I) :
      Mirrors I n (.failed e c) (.failed f d)
  | atEnd {r : Rejection} {c : Cursor} {y : Outcome α} (hr : r.span = I.stop.span)
      (hcloses : ∀ k, r.cause.closer? = some k → k.Closes)
      (hdue : r.cause.closer? = some I.closer.kind → y.Reaches I.last)
      (hother : r.cause.closer? ≠ some I.closer.kind → y.RefusedAt I.closer) :
      Mirrors I n (.failed (.rejected r) c) y

theorem Mirrors.mono {I : Insertion} {n m : Nat} {x y : Outcome α} (h : x.Mirrors I n y)
    (hm : n ≤ m) : x.Mirrors I m y := by
  cases h with
  | done h hn => exact .done h (Nat.le_trans hn hm)
  | early he hf => exact .early he hf
  | atEnd hr hcloses hdue hother => exact .atEnd hr hcloses hdue hother

end Outcome

namespace Parser

variable {α β : Type} {I : Insertion} {k m n : Nat} {file : String} {c d : Cursor}

/-- The two runs go alike, wherever they begin. -/
def Lenient (p : Parser α) : Prop :=
  ∀ I file c d, I.Ahead c d → (p file c).Mirrors I c.remaining.length (p file d)

/-- The two runs go alike where something can begin, and consume at least `k` tokens if they succeed. -/
def Begins (k : Nat) (p : Parser α) : Prop :=
  ∀ I file c d, I.Ahead c d → c.current.kind.isEdge = false →
    (p file c).Mirrors I (c.remaining.length - k) (p file d)

/-- Where nothing can begin, the token is refused, and not for want of a delimiter. -/
def Refuses (p : Parser α) : Prop :=
  ∀ file c, c.current.kind.isEdge = true →
    ∃ r, p file c = .failed (.rejected r) c ∧ r.span = c.current.span ∧ r.cause.closer? = none

/-- The two runs go alike over something that has to stand there. -/
structure Strict (p : Parser α) : Prop where
  refuses : p.Refuses
  begins : p.Begins 1

theorem Begins.mono {p : Parser α} (h : p.Begins k) (hm : m ≤ k) : p.Begins m :=
  fun I file c d hcd hc => (h I file c d hcd hc).mono (by omega)

theorem Lenient.begins {p : Parser α} (h : p.Lenient) : p.Begins 0 :=
  fun I file c d hcd _ => h I file c d hcd

theorem Refuses.at_last {p : Parser α} (h : p.Refuses) {e : Token} (hd : d.current = e)
    (he : e.kind.isEdge = true) : (p file d).RefusedAt e := by
  obtain ⟨r, hrun, hr, -⟩ := h file d (by rwa [hd])
  exact ⟨r, d, hrun, by rw [hr, hd]⟩

theorem Refuses.at_closer {p : Parser α} (h : p.Refuses) (hbehind : I.Behind c d) :
    (p file d).RefusedAt I.closer := h.at_last hbehind.current' I.closes.isEdge

theorem mirrors_behind {p q : Parser α} (hp : p.Refuses) (hq : q.Refuses) (hbehind : I.Behind c d) :
    (p file c).Mirrors I n (q file d) := by
  obtain ⟨r, hrun, hr, hcloser⟩ := hp file c hbehind.isEdge
  rw [hrun]
  refine .atEnd (by rw [hr, hbehind.current]) (by simp [hcloser]) (by simp [hcloser]) fun _ => ?_
  exact hq.at_closer hbehind

theorem mirrors_of_refuses {p q : Parser α} (hp : p.Refuses) (hq : q.Refuses) (hcd : I.Ahead c d)
    (hpq : c.current.kind.isEdge = false → (p file c).Mirrors I n (q file d)) :
    (p file c).Mirrors I n (q file d) := by
  cases hedge : c.current.kind.isEdge with
  | false => exact hpq hedge
  | true =>
    obtain hin | hbehind := hcd.cases
    · obtain ⟨r, hrun, hr, hcloser⟩ := hp file c hedge
      obtain ⟨r', hrun', hr', hcloser'⟩ := hq file d (by rwa [hin.current])
      rw [hrun, hrun']
      rw [hin.current] at hr'
      exact .early (Rejection.before hin.mem hr hcloser) (Rejection.before hin.mem hr' hcloser')
    · exact mirrors_behind hp hq hbehind

theorem Strict.mirrors {p : Parser α} (h : p.Strict) (hcd : I.Ahead c d) :
    (p file c).Mirrors I (c.remaining.length - 1) (p file d) :=
  mirrors_of_refuses h.refuses h.refuses hcd (h.begins I file c d hcd)

theorem Strict.lenient {p : Parser α} (h : p.Strict) : p.Lenient :=
  fun _ _ _ _ hcd => (h.mirrors hcd).mono (Nat.sub_le ..)

theorem Lenient.reaches {p : Parser α} (h : p.Lenient) {e : Token} (he : e.kind = .eof)
    (hd : d.remaining = [e]) : (p file d).Reaches e := by
  have hrun := h _ file d _ (Insertion.ahead_bare he hd)
  generalize p file d = x at hrun
  generalize p file _ = y at hrun
  cases hrun with
  | done hcd _ =>
    obtain ⟨ts, hts, hc, -⟩ := hcd.exists_tokens
    obtain rfl := List.suffix_nil.1 hts
    exact .inl ⟨_, _, rfl, hc⟩
  | early he _ =>
    obtain ⟨t, ht, -⟩ := he
    cases ht
  | atEnd hr _ _ _ => exact .inr ⟨_, _, rfl, hr⟩

/-! Parsers in a row. -/

theorem mirrors_bind {p q : Parser α} {f g : α → Parser β} (hp : (p file c).Mirrors I n (q file d))
    (hf : ∀ a c' d', p file c = .done a c' → I.Ahead c' d' → c'.remaining.length ≤ n →
      (f a file c').Mirrors I m (g a file d'))
    (hlast : ∀ a d', d'.remaining = [I.last] → (g a file d').Reaches I.last) :
    ((p >>= f) file c).Mirrors I m ((q >>= g) file d) := by
  rw [bind_apply, bind_apply]
  generalize p file c = x at hp hf
  generalize q file d = y at hp
  cases hp with
  | done hcd hn => exact hf _ _ _ rfl hcd hn
  | early he hf' => exact .early he hf'
  | atEnd hr hcloses hdue hother =>
    refine .atEnd hr hcloses (fun hk => ?_) fun hk => ?_
    · obtain ⟨a, d', rfl, hd'⟩ | ⟨r, d', rfl, hr⟩ := hdue hk
      · exact hlast a d' hd'
      · exact .inr ⟨r, d', rfl, hr⟩
    · obtain ⟨r, d', rfl, hr⟩ := hother hk
      exact ⟨r, d', rfl, hr⟩

section

variable {p q : Parser α} {f : α → Parser β}

theorem Lenient.mirrors_bind (hf : ∀ a, (f a).Lenient) (hp : (p file c).Mirrors I n (q file d)) :
    ((p >>= f) file c).Mirrors I n ((q >>= f) file d) :=
  Parser.mirrors_bind hp (fun a c' d' _ hcd hn => (hf a I file c' d' hcd).mono hn)
    fun a _ => (hf a).reaches I.last_eof

theorem Lenient.bind (hp : p.Lenient) (hf : ∀ a, (f a).Lenient) : (p >>= f).Lenient :=
  fun I file c d hcd => mirrors_bind hf (hp I file c d hcd)

theorem Begins.bind (hp : p.Begins k) (hf : ∀ a, (f a).Lenient) : (p >>= f).Begins k :=
  fun I file c d hcd hc => Lenient.mirrors_bind hf (hp I file c d hcd hc)

theorem Refuses.bind (hp : p.Refuses) : (p >>= f).Refuses := by
  intro file c hc
  obtain ⟨r, hrun, hr⟩ := hp file c hc
  exact ⟨r, bind_failed hrun, hr⟩

theorem Strict.bind (hp : p.Strict) (hf : ∀ a, (f a).Lenient) : (p >>= f).Strict :=
  ⟨hp.refuses.bind, hp.begins.bind hf⟩

end

namespace Lenient

theorem pure (a : α) : (Pure.pure a : Parser α).Lenient :=
  fun _ _ _ _ hcd => .done hcd (Nat.le_refl _)

theorem spanFrom (s : Int) : (Parser.spanFrom s).Lenient := by
  intro I file c d hcd
  rw [Parser.spanFrom, Parser.spanFrom, hcd.lastEnd]
  exact .done hcd (Nat.le_refl _)

theorem close : Parser.close.Lenient := by
  intro I file c d hcd
  rw [Parser.close, Parser.close, hcd.lastEnd]
  exact .done hcd (Nat.le_refl _)

end Lenient

theorem Begins.advance : Parser.advance.Begins 1 := by
  intro I file c d hcd hc
  have hin := hcd.inside hc
  rw [Parser.advance, Parser.advance, hin.current]
  exact .done hin.advance (Nat.le_sub_one_of_lt (by have := hin.length; omega))

theorem Begins.current {f : Token → Parser β} (h : ∀ t, (f t).Begins k) :
    (Parser.current >>= f).Begins k := by
  intro I file c d hcd hc
  rw [current_bind, current_bind, (hcd.inside hc).current]
  exact h _ I file c d hcd hc

theorem Begins.start {f : Int → Parser β} (h : ∀ s, (f s).Begins k) : (Parser.start >>= f).Begins k := by
  intro I file c d hcd hc
  rw [start_bind, start_bind, (hcd.inside hc).current]
  exact h _ I file c d hcd hc

theorem Refuses.start {f : Int → Parser β} (h : ∀ s, (f s).Refuses) : (Parser.start >>= f).Refuses :=
  fun file c hc => h _ file c hc

theorem Strict.start {f : Int → Parser β} (h : ∀ s, (f s).Strict) : (Parser.start >>= f).Strict :=
  ⟨.start fun s => (h s).refuses, .start fun s => (h s).begins⟩

theorem Begins.located {p : Parser (Span → α)} (h : p.Begins k) : (located p).Begins k :=
  .start fun s => .bind h fun _ => .bind (.spanFrom s) fun _ => .pure _

theorem Strict.located {p : Parser (Span → α)} (h : p.Strict) : (located p).Strict :=
  .start fun s => .bind h fun _ => .bind (.spanFrom s) fun _ => .pure _

theorem Begins.closing {p : Parser α} (h : p.Begins k) : (closing p).Begins k :=
  .bind h fun _ => .bind .close fun _ => .pure _

theorem Strict.closing {p : Parser α} (h : p.Strict) : (closing p).Strict :=
  .bind h fun _ => .bind .close fun _ => .pure _

/-! Looking at the token. -/

/-- A test that tells the two cursors apart in nothing, and is not passed where nothing can begin. -/
structure Spots (f : Cursor → Bool) : Prop where
  same : ∀ (I : Insertion) c d, I.Ahead c d → f d = f c
  begins : ∀ c, f c = true → c.current.kind.isEdge = false

theorem Spots.of_kind {f : Cursor → Bool} {g : TokenKind → Bool} (hf : ∀ c, f c = g c.current.kind)
    (hg : ∀ k, g k = true → k.isEdge = false) : Spots f where
  same I c d hcd := by
    rw [hf, hf]
    obtain hin | hbehind := hcd.cases
    · rw [hin.current]
    · have hnone : ∀ k : TokenKind, k.isEdge = true → g k = false := fun k hk =>
        Bool.eq_false_iff.2 fun h => by simp [hg k h] at hk
      rw [hnone _ hbehind.isEdge, hnone _ hbehind.isEdge']
  begins c hc := hg _ (by rwa [hf] at hc)

theorem Spots.isAt {k : TokenKind} (hk : k.isEdge = false) : Spots (·.isAt k) :=
  .of_kind (g := (· == k)) (fun _ => rfl) fun _ h => by rwa [eq_of_beq h]

section

variable {f : Cursor → Bool} {p q : Parser α}

theorem Lenient.test (hf : Spots f) (hp : p.Begins 0) (hq : q.Lenient) :
    (do if ← Parser.test f then p else q : Parser α).Lenient := by
  intro I file c d hcd
  rw [test_bind, test_bind, hf.same I c d hcd]
  split
  · exact hp I file c d hcd (hf.begins c ‹_›)
  · exact hq I file c d hcd

theorem Begins.test (hf : Spots f) (hp : p.Begins k) (hq : q.Begins k) :
    (do if ← Parser.test f then p else q : Parser α).Begins k := by
  intro I file c d hcd hc
  rw [test_bind, test_bind, hf.same I c d hcd]
  split
  · exact hp I file c d hcd hc
  · exact hq I file c d hcd hc

theorem Refuses.test (hf : Spots f) (hq : q.Refuses) :
    (do if ← Parser.test f then p else q : Parser α).Refuses := by
  intro file c hc
  rw [test_bind, if_neg fun hs => by simp [hf.begins c hs] at hc]
  exact hq file c hc

theorem Strict.test (hf : Spots f) (hp : p.Begins 1) (hq : q.Strict) :
    (do if ← Parser.test f then p else q : Parser α).Strict :=
  ⟨.test hf hq.refuses, .test hf hp hq.begins⟩

end

theorem Strict.of_refused {p : Parser α}
    (h : ∀ file (c : Cursor), ∃ r, p file c = .failed (.rejected r) c ∧ r.span = c.current.span ∧
      r.cause.closer? = none) : p.Strict := by
  refine ⟨fun file c _ => h file c, fun I file c d hcd hc => ?_⟩
  have hin := hcd.inside hc
  obtain ⟨r, hrun, hr, hcloser⟩ := h file c
  obtain ⟨r', hrun', hr', hcloser'⟩ := h file d
  rw [hrun, hrun']
  rw [hin.current] at hr'
  exact .early (Rejection.before hin.mem hr hcloser) (Rejection.before hin.mem hr' hcloser')

theorem Strict.unexpected {category : Category} {expected : Expected} :
    (Parser.unexpected category expected : Parser α).Strict :=
  of_refused fun _ _ => ⟨_, rfl, rfl, rfl⟩

theorem Strict.reject {category : Category} {cause : Cause} (h : cause.closer? = none) :
    (Parser.reject category cause : Parser α).Strict :=
  of_refused fun _ _ => ⟨_, rfl, rfl, h⟩

theorem Strict.expect {category : Category} {k : TokenKind} (hk : k.isEdge = false) :
    (Parser.expect category k).Strict := .test (.isAt hk) .advance .unexpected

/-! Closing delimiters. -/

section

variable {category : Category} {opener closer : TokenKind}

theorem expectClosing_of_kind (hk : c.current.kind = closer) :
    Parser.expectClosing category opener closer file c = .done c.current c.advance :=
  expectClosing_eq_done.2 ⟨hk, rfl, rfl⟩

theorem expectClosing_of_eof (hcloser : closer.Closes) (hk : c.current.kind = .eof) :
    Parser.expectClosing category opener closer file c =
      .failed (.rejected ⟨.unclosed opener closer, category, c.current.span⟩) c := by
  have hat : c.isAt closer = false := by simpa [Cursor.isAt, hk] using hcloser.ne_eof.symm
  simp [Parser.expectClosing, hat, Cursor.isAt_iff.2 hk, Parser.reject]

theorem expectClosing_of_ne (hk : c.current.kind ≠ closer) (heof : c.current.kind ≠ .eof) :
    Parser.expectClosing category opener closer file c =
      Parser.unexpected category (.kind closer) file c := by
  have hat : c.isAt closer = false := by simpa [Cursor.isAt] using hk
  have hateof : c.isAt .eof = false := by simpa [Cursor.isAt] using heof
  simp [Parser.expectClosing, hat, hateof, Parser.unexpected]

theorem mirrors_unclosed {p q : Parser α} (hbehind : I.Behind c d) (hcloser : closer.Closes)
    (hp : p file c = .failed (.rejected ⟨.unclosed opener closer, category, c.current.span⟩) c)
    (hdue : I.closer.kind = closer → (q file d).Reaches I.last)
    (hother : I.closer.kind ≠ closer → (q file d).RefusedAt I.closer) :
    (p file c).Mirrors I n (q file d) := by
  rw [hp]
  refine .atEnd (by rw [hbehind.current]) (fun k hk => ?_) (fun hk => hdue ?_) fun hk => hother ?_
  · obtain rfl : closer = k := Option.some.inj hk
    exact hcloser
  · exact (Option.some.inj hk).symm
  · exact fun heq => hk (congrArg some heq.symm)

/-- The delimiter has to stand there before anything else can, and the end of the input is refused for
want of it. -/
structure Due (category : Category) (opener closer : TokenKind) (p : Parser α) : Prop where
  lenient : p.Lenient
  unclosed : ∀ file c, c.current.kind = .eof →
    p file c = .failed (.rejected ⟨.unclosed opener closer, category, c.current.span⟩) c

theorem Due.expectClosing (hcloser : closer.Closes) {f : Token → Parser β} (hf : ∀ t, (f t).Lenient) :
    Due category opener closer (Parser.expectClosing category opener closer >>= f) := by
  refine ⟨fun I file c d hcd => ?_, fun file c hk => bind_failed (expectClosing_of_eof hcloser hk)⟩
  obtain hin | hbehind := hcd.cases
  · by_cases hk : c.current.kind = closer
    · rw [bind_done (expectClosing_of_kind hk), bind_done (expectClosing_of_kind (by rwa [hin.current])),
        hin.current]
      exact (hf _ I file _ _ hin.advance).mono (by have := hin.length; omega)
    · have hkd : d.current.kind ≠ closer := by rwa [hin.current]
      rw [bind_failed (expectClosing_of_ne hk hin.ne_eof),
        bind_failed (expectClosing_of_ne hkd (by rw [hin.current]; exact hin.ne_eof))]
      exact Strict.unexpected.lenient I file c d hcd
  · refine mirrors_unclosed hbehind hcloser
      (bind_failed (expectClosing_of_eof hcloser (by rw [hbehind.current, I.stop_eof])))
      (fun hk => ?_) fun hk => ?_
    · rw [bind_done (expectClosing_of_kind (by rw [hbehind.current', hk]))]
      exact (hf _).reaches I.last_eof hbehind.advance
    · rw [← hbehind.current'] at hk
      rw [bind_failed (expectClosing_of_ne hk (by rw [hbehind.current']; exact I.closes.ne_eof))]
      exact ⟨_, d, rfl, by rw [hbehind.current']⟩

theorem Due.mirrors_unless {p q q' : Parser α} (hcloser : closer.Closes)
    (hp : Due category opener closer p) (hcd : I.Ahead c d)
    (hq : I.Behind c d → (q' file d).RefusedAt I.closer)
    (hin : I.Inside c d → (q file c).Mirrors I c.remaining.length (q' file d)) :
    (if listEnds closer c then p file c else q file c).Mirrors I c.remaining.length
      (if listEnds closer d then p file d else q' file d) := by
  obtain hinside | hbehind := hcd.cases
  · have hsame : listEnds closer d = listEnds closer c := by
      simp [listEnds, Cursor.isAt, hinside.current]
    rw [hsame]
    split
    · exact hp.lenient I file c d hcd
    · exact hin hinside
  · have heof : c.current.kind = .eof := by rw [hbehind.current, I.stop_eof]
    have hends : listEnds closer c = true := by simp [listEnds, Cursor.isAt, heof]
    rw [if_pos hends]
    by_cases hk : I.closer.kind = closer
    · have hends' : listEnds closer d = true := by simp [listEnds, Cursor.isAt, hbehind.current', hk]
      rw [if_pos hends']
      exact hp.lenient I file c d hcd
    · have hgoes : ¬ listEnds closer d = true := by
        simp [listEnds, Cursor.isAt, hbehind.current', hk, I.closes.ne_eof]
      rw [if_neg hgoes]
      exact mirrors_unclosed hbehind hcloser (hp.unclosed file c heof) (fun h => absurd h hk)
        fun _ => hq hbehind

end

/-! Loops. The second run has one token more ahead, so the bounds of the two runs differ. -/

/-- The two runs go alike where each bound is as large as what is left. -/
def Paced (m n : Nat) (p q : Parser α) : Prop :=
  ∀ (I : Insertion) file c d, I.Ahead c d → c.remaining.length ≤ m → d.remaining.length ≤ n →
    (p file c).Mirrors I c.remaining.length (q file d)

theorem Paced.of_rounds {ι : Type} {p : Nat → ι → Parser α}
    (h : ∀ m n, (∀ i, Paced m n (p m i) (p n i)) → ∀ i, Paced (m + 1) (n + 1) (p (m + 1) i) (p (n + 1) i))
    (m n : Nat) (i : ι) : Paced m n (p m i) (p n i) := by
  induction m generalizing n i with
  | zero => exact fun _ _ c _ _ hm _ => absurd hm (by simp [Cursor.remaining])
  | succ m ih =>
    cases n with
    | zero => exact fun _ _ _ d _ _ hn => absurd hn (by simp [Cursor.remaining])
    | succ n => exact h m n (ih n) i

theorem Paced.lenient {p : Nat → Parser α} (h : ∀ m n, Paced m n (p m) (p n)) :
    Lenient fun file c => p c.remaining.length file c :=
  fun I file c d hcd => h _ _ I file c d hcd (Nat.le_refl _) (Nat.le_refl _)

theorem Lenient.many {starts : Cursor → Bool} {item : Parser α} (hs : Spots starts)
    (hi : item.Begins 1) : (Parser.many starts item).Lenient := by
  refine Paced.lenient fun m n => Paced.of_rounds (p := fun m (_ : Unit) => manyUpTo starts item m)
    (fun m n ih _ I file c d hcd hm hn => ?_) m n ()
  simp only [manyUpTo]
  rw [test_bind, test_bind, hs.same I c d hcd]
  split
  · rename_i hstart
    refine Parser.mirrors_bind (hi I file c d hcd (hs.begins c hstart)) (fun a c' d' _ hcd' hle => ?_)
      fun a d' hd' => ?_
    · have hlen := hcd.length
      have hlen' := hcd'.length
      have hpos : 0 < c.remaining.length := Nat.zero_lt_succ _
      exact (Lenient.mirrors_bind (fun _ => .pure _) (ih () I file c' d' hcd' (by omega) (by omega))).mono
        (by omega)
    · have hstop : starts d' = false := Bool.eq_false_iff.2 fun h => by
        have hbegins := hs.begins d' h
        rw [(Cursor.current_of_remaining hd').1, I.last_eof] at hbegins
        cases hbegins
      rw [bind_done (manyUpTo_of_stop hstop n)]
      exact .inl ⟨_, d', rfl, hd'⟩
  · exact .done hcd (Nat.le_refl _)

theorem Strict.mirrors_round {item : Parser α} (hi : item.Strict) {separator : TokenKind}
    (hsep : separator.isEdge = false) {p p' q : α → Parser β} (hq : ∀ a, (q a).Lenient)
    (hcd : I.Ahead c d)
    (hp : ∀ a c' d', I.Ahead c' d' → c'.remaining.length < c.remaining.length →
      (p a file c').Mirrors I c'.remaining.length (p' a file d')) :
    ((item >>= fun a => do
      if ← Parser.test (·.isAt separator) then
        let _ ← Parser.advance
        p a
      else q a) file c).Mirrors I (c.remaining.length - 1) ((item >>= fun a => do
        if ← Parser.test (·.isAt separator) then
          let _ ← Parser.advance
          p' a
        else q a) file d) := by
  have hspots : Spots (·.isAt separator) := .isAt hsep
  refine Parser.mirrors_bind (hi.mirrors hcd) (fun a c' d' _ hcd' hle => ?_) fun a d' hd' => ?_
  · rw [test_bind, test_bind, hspots.same I c' d' hcd']
    split
    · rename_i hat
      have hin := hcd'.inside (hspots.begins c' hat)
      have hlen := hin.length
      rw [advance_bind, advance_bind]
      exact (hp a _ _ hin.advance (by omega)).mono (by omega)
    · exact (hq a I file c' d' hcd').mono hle
  · have hstop : ¬ d'.isAt separator = true := fun h => by
      have hbegins := hspots.begins d' h
      rw [(Cursor.current_of_remaining hd').1, I.last_eof] at hbegins
      cases hbegins
    rw [test_bind, if_neg hstop]
    exact (hq a).reaches I.last_eof hd'

section

variable {category : Category} {opener closer : TokenKind}

theorem Due.commas (category : Category) (opener : TokenKind) {item : Parser α}
    {k : List α × Bool → Parser β} (hcloser : closer.Closes) (hi : item.Strict)
    (hk : ∀ x, Due category opener closer (k x)) :
    Due category opener closer (Parser.commas closer item >>= k) := by
  constructor
  · refine Paced.lenient (p := fun m => commasUpTo closer item m >>= k) fun m n => Paced.of_rounds
      (ι := { k : List α × Bool → Parser β // ∀ x, Due category opener closer (k x) })
      (p := fun m k => commasUpTo closer item m >>= k.1) (fun m n ih k I file c d hcd hm hn => ?_) m n ⟨k, hk⟩
    obtain ⟨k, hk⟩ := k
    simp only [commasUpTo_bind]
    rw [test_bind, test_bind, ite_apply, ite_apply]
    refine (hk ([], false)).mirrors_unless hcloser hcd hi.refuses.bind.at_closer fun _ => ?_
    refine (hi.mirrors_round rfl (fun a => (hk ([a], false)).lenient) hcd fun a c' d' hcd' hlt => ?_).mono
      (Nat.sub_le ..)
    have hlen := hcd.length
    have hlen' := hcd'.length
    exact ih ⟨fun x => k (a :: x.1, x.2 || x.1.isEmpty), fun x => hk _⟩ I file c' d' hcd' (by omega) (by omega)
  · intro file c hc
    have hends : listEnds closer c = true := by simp [listEnds, Cursor.isAt, hc]
    show (commasUpTo closer item (c.rest.length + 1) >>= k) file c = _
    rw [commasUpTo_bind, test_bind, if_pos hends]
    exact (hk _).unclosed file c hc

section

variable {inner : Parser (Expr Span)} {pattern : Parser (Pattern Span)}
  {k : List (Statement Span) → Parser β}

theorem Refuses.statements (hi : (statement inner pattern).Strict) :
    (Parser.statements inner pattern >>= k).Refuses := by
  intro file c hc
  show ∃ r, (statementsUpTo inner pattern (c.rest.length + 1) >>= k) file c = _ ∧ _
  rw [statementsUpTo_bind]
  exact hi.refuses.bind file c hc

theorem Lenient.statements (hi : (statement inner pattern).Strict)
    (hk : ∀ ss, Due category opener .rbrace (k ss)) :
    (Parser.statements inner pattern >>= k).Lenient := by
  refine Paced.lenient (p := fun m => statementsUpTo inner pattern m >>= k) fun m n => Paced.of_rounds
    (ι := { k : List (Statement Span) → Parser β // ∀ ss, Due category opener .rbrace (k ss) })
    (p := fun m k => statementsUpTo inner pattern m >>= k.1)
    (fun m n ih k I file c d hcd hm hn => ?_) m n ⟨k, hk⟩
  obtain ⟨k, hk⟩ := k
  simp only [statementsUpTo_bind]
  refine (hi.mirrors_round rfl (fun s => (hk [s]).lenient) hcd fun s c' d' hcd' hlt => ?_).mono
    (Nat.sub_le ..)
  have hlen := hcd.length
  have hlen' := hcd'.length
  rw [test_bind, test_bind, ite_apply, ite_apply]
  refine (hk [s]).mirrors_unless (.inr rfl) hcd' (fun hbehind => ?_) fun _ => ?_
  · obtain ⟨n, rfl⟩ : ∃ n', n = n' + 1 := Nat.exists_eq_add_one.2 (by omega)
    rw [statementsUpTo_bind]
    exact hi.refuses.bind.at_closer hbehind
  · exact ih ⟨fun ss => k (s :: ss), fun ss => hk _⟩ I file c' d' hcd' (by omega) (by omega)

end

end

end Parser
end TinyFront
