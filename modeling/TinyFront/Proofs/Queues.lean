import TinyFront.Proofs.Nesting

/-!
Declarations and their parts one after the other. Main statement: the spans of a program's declarations
follow each other in the order in which they are listed, and so do those of the variants or fields of a
type within its declaration.
-/
namespace TinyFront

namespace TypeBody

def parts : TypeBody Span → List Span
  | sum vs => vs.map Variant.span
  | product ds => ds.map Field.span

end TypeBody

namespace Decl

def parts : Decl Span → List Span
  | fn _ _ _ _ _ => []
  | type _ _ b _ => b.parts

end Decl

/-- Spans of nodes that follow each other within a range of bytes. -/
structure Queued (file : String) (ts : List Token) (start stop : Int) (ss : List Span) : Prop where
  start_le_stop : start ≤ stop
  aligned : ∀ s ∈ ss, s.Aligned file ts
  within : ∀ s ∈ ss, start ≤ s.start ∧ s.stop ≤ stop
  ordered : ss.Pairwise fun s t => s.stop ≤ t.start

namespace Queued

variable {file : String} {ts : List Token} {a a' b b' : Int} {s : Span} {ss : List Span}

theorem nil (h : a ≤ b) : Queued file ts a b [] := ⟨h, by simp, by simp, .nil⟩

theorem widen (h : Queued file ts a b ss) (ha : a' ≤ a) (hb : b ≤ b') : Queued file ts a' b' ss where
  start_le_stop := by
    have := h.start_le_stop
    omega
  aligned := h.aligned
  within s hs := by
    have := h.within s hs
    omega
  ordered := h.ordered

theorem cons (h : Queued file ts s.stop b ss) (hs : s.Aligned file ts) (ha : a ≤ s.start) :
    Queued file ts a b (s :: ss) := by
  have hwidth := hs.start_lt_stop
  have hrest := h.start_le_stop
  refine ⟨by omega, List.forall_mem_cons.2 ⟨hs, h.aligned⟩,
    List.forall_mem_cons.2 ⟨⟨ha, hrest⟩, fun t ht => ?_⟩,
    List.pairwise_cons.2 ⟨fun t ht => (h.within t ht).1, h.ordered⟩⟩
  have := h.within t ht
  omega

end Queued

namespace Parser

variable {file : String} {ts : List Token} {c : Cursor} {s z : Int}

theorem Laid.span {o : Outline} {t : Span} (h : Laid file ts s z [o]) (ho : o.span = some t) :
    t.Aligned file ts ∧ s ≤ t.start ∧ t.stop ≤ z := by
  obtain ⟨label, span, fields⟩ := o
  obtain rfl : span = some t := ho
  obtain ⟨t', ht', haligned, -⟩ := h.seated ⟨label, some t, fields⟩ (by simp [Outline.nodes])
  obtain rfl := Option.some.inj ht'
  exact ⟨haligned, h.within t (by simp [Outline.foremost])⟩

section

variable {α : Type} {view : α → Outline} {span : α → Span}

theorem queued_gathers (file : String) (ts : List Token) (span : α → Span) :
    Yields.Gathers (Rides file ts) fun z as z' => Queued file ts z z' (as.map span) where
  nil z := .nil (Int.le_refl z)
  skip c as z hc h := h.widen (by
    rw [Cursor.advance_lastEnd]
    exact Int.le_trans hc.behind hc.start_le_stop) (Int.le_refl z)

theorem queued_gathers_cons {p : Parser α} (hspan : ∀ a, (view a).span = some (span a))
    (hp : Lays file ts p view c) :
    p.Yields (Rides file ts) file c fun z a => ∀ as z', Queued file ts z z' (as.map span) →
      Queued file ts c.lastEnd z' ((a :: as).map span) := by
  refine .within fun hc => hp.mono fun z a ha as z' has => ?_
  obtain ⟨haligned, hstart, hstop⟩ := ha.span (hspan a)
  exact (has.widen hstop (Int.le_refl _)).cons haligned (Int.le_trans hc.behind hstart)

end

section

variable {block : Parser (Expr Span)} {pattern : Parser (Pattern Span)} {type atomic : Parser (Ty Span)}
  (htype : ∀ c, Lays file ts type Ty.outline c) (hatomic : ∀ c, Lays file ts atomic Ty.outline c)

include htype hatomic

theorem typeBody_queues (name : String) (hl : Laid file ts s c.lastEnd []) :
    (typeBody type atomic name).Yields (Rides file ts) file c fun z b => Queued file ts s z b.parts := by
  have hs := Int.le_of_lt hl.start_lt_stop
  have hvariant : ∀ c : Cursor, c.isAt .pipe = true →
      Lays file ts (do let _ ← advance; variant atomic) Variant.outline c := fun c hs =>
    Laid.opening (by simp [Cursor.kind_of_isAt hs]) fun hl => hl.last (variant_lays hatomic _)
  unfold typeBody sum product
  refine .test (fun _ => ?_) fun _ => .test (fun _ => hl.step fun hl => ?_) fun _ => .reject
  · exact (Yields.many_gathers (queued_gathers file ts Variant.span) fun c hs =>
      queued_gathers_cons (fun _ => rfl) (hvariant c hs)).bind fun vs c' _ hq =>
        .pure (hq.widen hs (Int.le_refl _))
  · have hs' := Int.le_of_lt hl.start_lt_stop
    refine (Yields.commas_gathers (queued_gathers file ts Field.span) fun c =>
      queued_gathers_cons (fun _ => rfl) (field_lays htype c)).bind fun x c' _ hq => .within fun hc' =>
        .expectClosing (.pure (hq.widen hs' ?_))
    rw [Cursor.advance_lastEnd]
    exact Int.le_trans hc'.behind hc'.start_le_stop

theorem typeDecl_queues (hk : c.current.kind ≠ .eof) :
    (typeDecl type atomic).Yields (Rides file ts) file c fun _ d =>
      Queued file ts d.span.start d.span.stop d.parts := by
  unfold typeDecl
  exact .located (Laid.opening hk fun hl => hl.expect fun hl => hl.names fun ns _ hl =>
    hl.expect fun hl => (typeBody_queues htype hatomic _ hl).bind fun b _ _ hq => .pure hq)

end

theorem parts_of_fnDecl {block : Parser (Expr Span)} {pattern : Parser (Pattern Span)}
    {type : Parser (Ty Span)} {d : Decl Span} {c' : Cursor}
    (h : fnDecl block pattern type file c = .done d c') : d.parts = [] := by
  obtain ⟨build, hb, rfl⟩ := located_eq_done.1 h
  obtain ⟨_, _, -, hb⟩ := bind_eq_done.1 hb
  obtain ⟨_, _, -, hb⟩ := bind_eq_done.1 hb
  obtain ⟨_, _, -, hb⟩ := bind_eq_done.1 hb
  obtain ⟨_, _, -, hb⟩ := bind_eq_done.1 hb
  obtain ⟨_, _, -, hb⟩ := bind_eq_done.1 hb
  obtain ⟨rfl, -⟩ := pure_eq_done.1 hb
  rfl

theorem Decl.span_outline (d : Decl Span) : d.outline.span = some d.span := by cases d <;> rfl

/-- The parts of a declaration follow each other within it. -/
theorem declaration_queues (d : Nat) (c : Cursor) :
    (declaration d).Yields (Rides file ts) file c fun _ x =>
      Queued file ts x.span.start x.span.stop x.parts := by
  have hblock := block_lays (@expression_lays file ts d) (pattern_lays d)
  rw [declaration]
  unfold declarationWithin
  refine .current ?_
  split
  · rename_i hk
    intro hc x c' hrun
    obtain ⟨hc', hl⟩ := fnDecl_lays hblock (pattern_lays d) (type_lays d) (by simp [hk]) hc x c' hrun
    have hwidth := (hl.span (Decl.span_outline x)).1.start_lt_stop
    refine ⟨hc', ?_⟩
    show Queued file ts x.span.start x.span.stop x.parts
    rw [parts_of_fnDecl hrun]
    exact .nil (Int.le_of_lt hwidth)
  · rename_i hk
    exact typeDecl_queues (type_lays d) (atom_lays type_views (type_lays d)) (by simp [hk])
  · exact .unexpected

/-- The declarations of a program follow each other, and so do the parts of each. -/
structure InTurn (file : String) (ts : List Token) (start stop : Int) (ds : List (Decl Span)) :
    Prop where
  decls : Queued file ts start stop (ds.map Decl.span)
  parts : ∀ d ∈ ds, Queued file ts d.span.start d.span.stop d.parts

theorem program_queues (depth : Nat) (c : Cursor) :
    (program depth).Yields (Rides file ts) file c fun _ p =>
      InTurn file ts c.lastEnd p.span.stop p.decls := by
  unfold program
  have hgathers : Yields.Gathers (Rides file ts) fun z ds z' => InTurn file ts z z' ds :=
    ⟨fun z => ⟨(queued_gathers file ts Decl.span).nil z, by simp⟩, fun c ds z hc h =>
      ⟨(queued_gathers file ts Decl.span).skip c ds z hc h.decls, h.parts⟩⟩
  refine (Yields.many_gathers hgathers fun c _ => ?_).bind fun ds c' _ hds => ?_
  · intro hc d c' hrun
    obtain ⟨hc', hcons⟩ := queued_gathers_cons Decl.span_outline (declaration_lays depth c) hc d c' hrun
    obtain ⟨-, hparts⟩ := declaration_queues depth c hc d c' hrun
    exact ⟨hc', fun ds z h => ⟨hcons ds z h.decls, List.forall_mem_cons.2 ⟨hparts, h.parts⟩⟩⟩
  · rintro hc' p c'' ⟨⟩
    exact ⟨hc', hds.decls.widen (Int.le_refl _) (Int.le_trans hc'.behind hc'.start_le_stop), hds.parts⟩

theorem exists_rides_of_runSource {α : Type} {p : Parser α} {file source : String} {a : α}
    (h : p.runSource file source = .ok a) : ∃ ts c c', lex file source = .ok ts ∧ Rides file ts c ∧
      0 ≤ c.lastEnd ∧ p file c = .done a c' := by
  obtain ⟨ts, hlex, hrun⟩ := runSource_eq_ok.1 h
  obtain ⟨file', c, hfile, hc, hlast, heq⟩ := run_eq p (some file) (lex_ne_nil hlex)
  obtain rfl := hfile file rfl
  have hrides : Rides file ts c :=
    ⟨ruled_of_lex hlex, hc ▸ List.suffix_refl _, Int.le_of_eq hlast⟩
  have hstart : 0 ≤ c.current.span.start := by
    have hmem := hrides.mem
    rw [(lex_eq_ok hlex).2] at hmem
    exact Token.start_of_mem_ofPieces _ hmem
  rw [heq] at hrun
  cases hdone : p file c with
  | failed e c' => simp [hdone] at hrun
  | done b c' =>
    rw [hdone] at hrun
    obtain rfl := Except.ok.inj hrun
    exact ⟨ts, c, c', hlex, hrides, hlast ▸ hstart, hdone⟩

end Parser

/-- The declarations that a text is read as follow each other, and so do the parts of each. -/
theorem inTurn_of_readProgram {file source : String} {p : Program Span}
    (h : readProgram file source = .ok p) : ∃ ts, lex file source = .ok ts ∧
      Parser.InTurn file ts 0 p.span.stop p.decls := by
  obtain ⟨ts, c, c', hlex, hrides, hstart, hdone⟩ := Parser.exists_rides_of_runSource h
  obtain ⟨-, hturn⟩ := Parser.program_queues Parser.maxDepth c hrides p c' hdone
  exact ⟨ts, hlex, hturn.decls.widen hstart (Int.le_refl _), hturn.parts⟩

end TinyFront
