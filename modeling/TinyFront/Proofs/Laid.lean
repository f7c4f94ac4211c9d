import TinyFront.Proofs.Rows

/-!
Rows that runs lay out. The spans of tokens follow each other, so what is read from one token to
another lies between their ends. One rule for each way in which the parts of a node are read.
-/
namespace TinyFront

/-- Tokens of one file that follow each other. All have a width but the last one, which is an end
marker. -/
structure Ruled (file : String) (ts : List Token) : Prop where
  file_eq : ∀ t ∈ ts, t.span.file = file
  ordered : ts.Pairwise fun t u => t.span.stop ≤ u.span.start
  parted : ∃ us e, ts = us ++ [e] ∧ (e.kind = .eof ∧ e.span.stop = e.span.start) ∧
    ∀ u ∈ us, u.span.start < u.span.stop

namespace Ruled

variable {file : String} {ts : List Token} {t : Token}

theorem ended (h : Ruled file ts) : ∃ us e, ts = us ++ [e] ∧ e.kind = .eof := by
  obtain ⟨us, e, hparted, he, -⟩ := h.parted
  exact ⟨us, e, hparted, he.1⟩

theorem width (h : Ruled file ts) (ht : t ∈ ts) (hk : t.kind ≠ .eof) :
    t.span.start < t.span.stop := by
  obtain ⟨us, e, rfl, he, hus⟩ := h.parted
  rcases List.mem_append.1 ht with ht | ht
  · exact hus t ht
  · obtain rfl := List.mem_singleton.1 ht
    exact absurd he.1 hk

theorem start_le_stop (h : Ruled file ts) (ht : t ∈ ts) : t.span.start ≤ t.span.stop := by
  obtain ⟨us, e, rfl, he, hus⟩ := h.parted
  rcases List.mem_append.1 ht with ht | ht
  · exact Int.le_of_lt (hus t ht)
  · obtain rfl := List.mem_singleton.1 ht
    exact Int.le_of_eq he.2.symm

theorem end_width (h : Ruled file ts) (ht : [t] <:+ ts) : t.span.stop = t.span.start := by
  obtain ⟨us, e, rfl, he, -⟩ := h.parted
  obtain ⟨vs, hvs⟩ := ht
  obtain rfl : t = e := by simpa using (List.append_inj' hvs rfl).2
  exact he.2

end Ruled

theorem Piece.width_pos {p : Piece} (h : p.text ≠ []) : 0 < p.width := by
  obtain ⟨shape, text⟩ := p
  cases text with
  | nil => exact absurd rfl h
  | cons c cs =>
    have := c.utf8Size_pos
    simp only [width, byteWidth_cons]
    omega

namespace Token

theorem width_of_mem_ofPieces {file : String} {offset : Nat} {ps : List Piece}
    (h : ∀ p ∈ ps, p.text ≠ []) : ∀ t ∈ ofPieces file offset ps,
      (t.kind = .eof → t.span.stop = t.span.start) ∧ (t.kind ≠ .eof → t.span.start < t.span.stop) := by
  induction ps generalizing offset with
  | nil => simp [ofPieces, endMarker]
  | cons p ps ih =>
    obtain ⟨hp, hps⟩ := List.forall_mem_cons.1 h
    rw [ofPieces]
    split
    · rename_i k hk
      refine List.forall_mem_cons.2 ⟨⟨fun he => absurd he (Piece.ne_eof_of_kind? hk), fun _ => ?_⟩,
        ih hps⟩
      have := Piece.width_pos hp
      show (offset : Int) < offset + p.width
      omega
    · exact ih hps

end Token

theorem ruled_of_lex {file source : String} {ts : List Token} (h : lex file source = .ok ts) :
    Ruled file ts := by
  have hpage := page_of_lex h
  obtain ⟨us, e, hparted, he, hus⟩ := hpage.stream.exists_front
  have hk : e.kind = .eof := congrArg Prod.fst he
  have hwidth : ∀ t ∈ ts, (t.kind = .eof → t.span.stop = t.span.start) ∧
      (t.kind ≠ .eof → t.span.start < t.span.stop) := by
    rw [(lex_eq_ok h).2]
    exact Token.width_of_mem_ofPieces fun _ => Piece.text_ne_nil_of_mem_cut
  refine ⟨hpage.file_eq, ?_, us, e, hparted, ⟨hk, (hwidth e (by simp [hparted])).1 hk⟩, fun u hu => ?_⟩
  · rw [(lex_eq_ok h).2]
    exact Token.ordered_ofPieces file 0 _
  · exact (hwidth u (by simp [hparted, hu])).2 (hus u hu)

namespace Parser

/-- The cursor is on one of the tokens, and what was consumed ended before it. -/
structure Rides (file : String) (ts : List Token) (c : Cursor) : Prop where
  ruled : Ruled file ts
  within : c.remaining <:+ ts
  behind : c.lastEnd ≤ c.current.span.start

namespace Rides

variable {file : String} {ts : List Token} {c : Cursor}

theorem mem (h : Rides file ts c) : c.current ∈ ts := h.within.subset (List.mem_cons_self ..)

theorem ended (h : Rides file ts c) : c.Ended := .of_suffix h.ruled.ended h.within

theorem start_le_stop (h : Rides file ts c) : c.current.span.start ≤ c.current.span.stop :=
  h.ruled.start_le_stop h.mem

theorem span_eq (h : Rides file ts c) :
    c.current.span = ⟨file, c.current.span.start, c.current.span.stop⟩ := by
  rw [← h.ruled.file_eq _ h.mem]

theorem advance (h : Rides file ts c) : Rides file ts c.advance := by
  refine ⟨h.ruled, (remaining_advance c).trans h.within, ?_⟩
  rw [Cursor.advance_lastEnd]
  obtain ⟨t, rest, z⟩ := c
  cases rest with
  | nil =>
    exact Int.le_of_eq (h.ruled.end_width h.within)
  | cons u us =>
    have hordered := h.ruled.ordered.sublist h.within.sublist
    exact (List.pairwise_cons.1 hordered).1 u (List.mem_cons_self ..)

end Rides

instance (file : String) (ts : List Token) : Stays (Rides file ts) := ⟨fun _ h => h.advance⟩

/-- The nodes of a run form a row from the token on which it began to the last one it consumed. -/
structure Laid (file : String) (ts : List Token) (start stop : Int) (os : List Outline) : Prop
    extends Row file ts start stop os where
  start_mem : ∃ t ∈ ts, start = t.span.start
  stop_mem : ∃ t ∈ ts, stop = t.span.stop
  start_lt_stop : start < stop

/-- What the parser reads is one node or stands for what is beneath one. -/
def Lays {α : Type} (file : String) (ts : List Token) (p : Parser α) (view : α → Outline)
    (c : Cursor) : Prop :=
  p.Yields (Rides file ts) file c fun z a => Laid file ts c.current.span.start z [view a]

namespace Laid

variable {α β : Type} {file : String} {ts : List Token} {c : Cursor} {s z z' : Int}
  {os os' : List Outline}

theorem perm (h : Laid file ts s z os) (hp : os.Perm os') : Laid file ts s z os' :=
  ⟨h.toRow.perm hp, h.start_mem, h.stop_mem, h.start_lt_stop⟩

theorem bare {label : String} {fields : List OutlineField}
    (h : Laid file ts s z (fields.flatMap (·.children))) : Laid file ts s z [⟨label, none, fields⟩] :=
  ⟨h.toRow.bare, h.start_mem, h.stop_mem, h.start_lt_stop⟩

/-- A row over which a node reaches is what is directly beneath it. -/
theorem node {label : String} {fields : List OutlineField}
    (h : Laid file ts s z (fields.flatMap (·.children))) :
    Laid file ts s z [⟨label, some ⟨file, s, z⟩, fields⟩] := by
  have haligned : Span.Aligned file ts ⟨file, s, z⟩ := ⟨rfl, h.start_mem, h.stop_mem, h.start_lt_stop⟩
  have hencloses : Span.Encloses ⟨file, s, z⟩ (Outline.foremostFields fields) := by
    rw [Outline.foremostFields_eq_flatMap]
    refine ⟨fun t ht => ?_, h.disjoint⟩
    simpa [Span.contains] using h.within t ht
  refine ⟨⟨h.start_le_stop, ?_, ?_, ?_⟩, h.start_mem, h.stop_mem, h.start_lt_stop⟩
  · simp [Outline.foremost]
  · simp [Outline.foremost]
  · rw [List.flatMap_singleton, Outline.nodes, Outline.nodesFields_eq_flatMap]
    exact List.forall_mem_cons.2 ⟨⟨_, rfl, haligned, hencloses⟩, h.seated⟩

theorem append (h : Laid file ts s c.lastEnd os) (hc : Rides file ts c)
    (h' : Laid file ts c.current.span.start z os') : Laid file ts s z (os ++ os') where
  toRow := h.toRow.append (h'.toRow.widen hc.behind (Int.le_refl _))
  start_mem := h.start_mem
  stop_mem := h'.stop_mem
  start_lt_stop := by
    have := h.start_lt_stop
    have := hc.behind
    have := h'.start_lt_stop
    omega

theorem first (hc : Rides file ts c) (hk : c.current.kind ≠ .eof) :
    Laid file ts c.current.span.start c.advance.lastEnd [] := by
  have hlt := hc.ruled.width hc.mem hk
  rw [Cursor.advance_lastEnd]
  exact ⟨Row.nil (Int.le_of_lt hlt), ⟨_, hc.mem, rfl⟩, ⟨_, hc.mem, rfl⟩, hlt⟩

theorem advance (h : Laid file ts s c.lastEnd os) (hc : Rides file ts c) :
    Laid file ts s c.advance.lastEnd os := by
  have hle := Int.le_trans hc.behind hc.start_le_stop
  rw [Cursor.advance_lastEnd]
  exact ⟨h.toRow.widen (Int.le_refl _) hle, h.start_mem, ⟨_, hc.mem, rfl⟩,
    Int.lt_of_lt_of_le h.start_lt_stop hle⟩

section

variable {k : α → Parser β} {Q : Int → β → Prop}

theorem step {k : Token → Parser β} (h : Laid file ts s c.lastEnd os)
    (hk : Laid file ts s c.advance.lastEnd os →
      (k c.current).Yields (Rides file ts) file c.advance Q) :
    (Parser.advance >>= k).Yields (Rides file ts) file c Q :=
  .within fun hc => .advance (hk (h.advance hc))

theorem expect {category : Category} {kind : TokenKind} {k : Token → Parser β}
    (h : Laid file ts s c.lastEnd os)
    (hk : Laid file ts s c.advance.lastEnd os →
      (k c.current).Yields (Rides file ts) file c.advance Q) :
    (Parser.expect category kind >>= k).Yields (Rides file ts) file c Q :=
  .within fun hc => .expect fun _ => hk (h.advance hc)

theorem expectClosing {category : Category} {opener kind : TokenKind} {k : Token → Parser β}
    (h : Laid file ts s c.lastEnd os)
    (hk : Laid file ts s c.advance.lastEnd os →
      (k c.current).Yields (Rides file ts) file c.advance Q) :
    (Parser.expectClosing category opener kind >>= k).Yields (Rides file ts) file c Q :=
  .within fun hc => .expectClosing (hk (h.advance hc))

theorem opening {k : Token → Parser β} (hkind : c.current.kind ≠ .eof)
    (hk : Laid file ts c.current.span.start c.advance.lastEnd [] →
      (k c.current).Yields (Rides file ts) file c.advance Q) :
    (Parser.advance >>= k).Yields (Rides file ts) file c Q :=
  .within fun hc => .advance (hk (first hc hkind))

theorem expectOpening {category : Category} {kind : TokenKind} {k : Token → Parser β}
    (hkind : kind ≠ .eof)
    (hk : Laid file ts c.current.span.start c.advance.lastEnd [] →
      (k c.current).Yields (Rides file ts) file c.advance Q) :
    (Parser.expect category kind >>= k).Yields (Rides file ts) file c Q :=
  .within fun hc => .expect fun heq => hk (first hc (heq ▸ hkind))

theorem last {p : Parser α} {view : α → Outline} (h : Laid file ts s c.lastEnd os)
    (hp : Lays file ts p view c) :
    p.Yields (Rides file ts) file c fun z a => Laid file ts s z (os ++ [view a]) :=
  .within fun hc => hp.mono fun _ _ ha => h.append hc ha

theorem read {p : Parser α} {view : α → Outline} (h : Laid file ts s c.lastEnd os)
    (hp : Lays file ts p view c)
    (hk : ∀ a c', Laid file ts s c'.lastEnd (os ++ [view a]) →
      (k a).Yields (Rides file ts) file c' Q) :
    (p >>= k).Yields (Rides file ts) file c Q :=
  (h.last hp).bind fun a c' _ => hk a c'

end

theorem gathers (file : String) (ts : List Token) (view : α → Outline) :
    Yields.Gathers (Rides file ts) fun z as z' =>
      ∀ s os, Laid file ts s z os → Laid file ts s z' (os ++ as.map view) where
  nil z s os h := by simpa using h
  skip c as z hc h s os hl := h s os (hl.advance hc)

theorem gathers_cons {p : Parser α} {view : α → Outline} (hp : Lays file ts p view c) :
    p.Yields (Rides file ts) file c fun z a => ∀ as z',
      (∀ s os, Laid file ts s z os → Laid file ts s z' (os ++ as.map view)) →
        ∀ s os, Laid file ts s c.lastEnd os → Laid file ts s z' (os ++ (a :: as).map view) := by
  refine .within fun hc => hp.mono fun z a ha as z' has s os h => ?_
  simpa using has s _ (h.append hc ha)

section

variable {k : List α → Parser β} {Q : Int → β → Prop} {p : Parser α} {view : α → Outline}

theorem many {starts : Cursor → Bool} (h : Laid file ts s c.lastEnd os)
    (hp : ∀ c, starts c = true → Lays file ts p view c)
    (hk : ∀ as c', many starts p file c = .done as c' →
      Laid file ts s c'.lastEnd (os ++ as.map view) → (k as).Yields (Rides file ts) file c' Q) :
    (Parser.many starts p >>= k).Yields (Rides file ts) file c Q :=
  (Yields.many_gathers (gathers file ts view) fun c hs => gathers_cons (hp c hs)).bind
    fun as c' hrun has => hk as c' hrun (has s os h)

theorem commas {closer : TokenKind} {k : List α × Bool → Parser β} (h : Laid file ts s c.lastEnd os)
    (hp : ∀ c, Lays file ts p view c)
    (hk : ∀ x c', Laid file ts s c'.lastEnd (os ++ x.1.map view) →
      (k x).Yields (Rides file ts) file c' Q) :
    (Parser.commas closer p >>= k).Yields (Rides file ts) file c Q :=
  (Yields.commas_gathers (gathers file ts view) fun c => gathers_cons (hp c)).bind
    fun x c' _ hx => hk x c' (hx s os h)

theorem statements {inner : Parser (Expr Span)} {pattern : Parser (Pattern Span)}
    {view : Statement Span → Outline} {k : List (Statement Span) → Parser β}
    (h : Laid file ts s c.lastEnd os)
    (hp : ∀ c, Lays file ts (statement inner pattern) view c)
    (hk : ∀ ss c', Laid file ts s c'.lastEnd (os ++ ss.map view) →
      (k ss).Yields (Rides file ts) file c' Q) :
    (Parser.statements inner pattern >>= k).Yields (Rides file ts) file c Q :=
  (Yields.statements_gathers (gathers file ts view) fun c => gathers_cons (hp c)).bind
    fun ss c' _ hss => hk ss c' (hss s os h)

end

theorem names {starts : Cursor → Bool} {k : List Token → Parser β} {Q : Int → β → Prop}
    (h : Laid file ts s c.lastEnd os)
    (hk : ∀ ns c', Laid file ts s c'.lastEnd os → (k ns).Yields (Rides file ts) file c' Q) :
    (Parser.many starts Parser.advance >>= k).Yields (Rides file ts) file c Q := by
  have hgathers : Yields.Gathers (Rides file ts) fun z (_ : List Token) z' =>
      Laid file ts s z os → Laid file ts s z' os := ⟨fun _ => id, fun c _ _ hc h hl => h (hl.advance hc)⟩
  refine (Yields.many_gathers hgathers fun c _ => ?_).bind fun ns c' _ hns => hk ns c' (hns h)
  intro hc t c' hrun
  obtain ⟨-, rfl⟩ := advance_eq_done.1 hrun
  exact ⟨hc.advance, fun _ _ hrest hl => hrest (hl.advance hc)⟩

end Laid
end Parser
end TinyFront
