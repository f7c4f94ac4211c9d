import TinyFront.Proofs.Accepting
import TinyFront.Proofs.Excerpts
import TinyFront.Proofs.Queues

/-!
The outline of a document as nested ranges. Main statement: the symbols of a program stand for its
declarations in order, their ranges are not empty and follow each other within the document, and those of
their members do so within theirs.
-/
namespace TinyFront

namespace Position

theorem lt_past (p : Position) (c : Char) :
    toLex (p.line, p.column) < toLex ((p.past c).line, (p.past c).column) := by
  rw [Prod.Lex.toLex_lt_toLex, past]
  split
  · exact .inl (Nat.lt_succ_self _)
  · exact .inr ⟨rfl, Nat.lt_succ_self _⟩

theorem lt_foldl_past {cs : List Char} (hne : cs ≠ []) (p : Position) : toLex (p.line, p.column) <
    toLex ((cs.foldl past p).line, (cs.foldl past p).column) := by
  induction cs generalizing p with
  | nil => contradiction
  | cons c cs ih =>
    by_cases hcs : cs = []
    · subst hcs
      exact p.lt_past c
    · exact (p.lt_past c).trans (ih hcs _)

end Position

theorem Span.Aligned.exists_own {file source : String} {ts : List Token} {s : Span}
    (hlex : lex file source = .ok ts) (h : s.Aligned file ts) :
    ∃ before own after, source.toList = before ++ own ++ after ∧ own ≠ [] ∧
      s.start = byteWidth before ∧ s.stop = byteWidth (before ++ own) := by
  obtain ⟨-, ⟨t, ht, hstart⟩, ⟨u, hu, hstop⟩, hwidth⟩ := h
  rw [(lex_eq_ok hlex).2] at ht hu
  obtain ⟨as, ownₜ, restₜ, ht, -⟩ := Piece.points_of_mem_tokens ht
  obtain ⟨bs, ownᵤ, restᵤ, hu, -⟩ := Piece.points_of_mem_tokens hu
  have hs : s.start = byteWidth as := by rw [hstart, ht.span_eq]
  have hz : s.stop = byteWidth (bs ++ ownᵤ) := by rw [hstop, hu.span_eq, byteWidth_append]; rfl
  have hparted : as ++ (ownₜ ++ restₜ) = bs ++ ownᵤ ++ restᵤ := by
    rw [← List.append_assoc, ← ht.parted, hu.parted]
  obtain ⟨own, hown, -⟩ | ⟨own, hown, -⟩ := List.append_eq_append_iff.1 hparted
  · refine ⟨as, own, restᵤ, hown ▸ hu.parted, ?_, hs, hown ▸ hz⟩
    rintro rfl
    rw [List.append_nil] at hown
    rw [hs, hz, hown] at hwidth
    exact absurd hwidth (Int.lt_irrefl _)
  · rw [hs, hz, hown, byteWidth_append] at hwidth
    omega

namespace Editor

/-- Places in the order of lines, and of characters within a line. -/
def Place.rank (p : Place) : Nat ×ₗ Nat := toLex (p.line, p.character)

/-- The ranges are not empty, lie within the outer one and follow each other. -/
structure Range.Row (outer : Range) (inner : List Range) : Prop where
  proper : ∀ r ∈ inner, r.start.rank < r.stop.rank
  within : ∀ r ∈ inner, outer.start.rank ≤ r.start.rank ∧ r.stop.rank ≤ outer.stop.rank
  ordered : inner.Pairwise fun r s => r.stop.rank ≤ s.start.rank

theorem Place.rank_le_rank {p q : Position} (hline : 1 ≤ p.line)
    (h : toLex (p.line, p.column) ≤ toLex (q.line, q.column)) : (ofPosition p).rank ≤ (ofPosition q).rank := by
  rw [Prod.Lex.toLex_le_toLex] at h
  rw [rank, rank, Prod.Lex.toLex_le_toLex]
  simp only [ofPosition]
  omega

theorem Place.rank_lt_rank {p q : Position} (hline : 1 ≤ p.line) (hcolumn : 1 ≤ p.column)
    (h : toLex (p.line, p.column) < toLex (q.line, q.column)) : (ofPosition p).rank < (ofPosition q).rank := by
  rw [Prod.Lex.toLex_lt_toLex] at h
  rw [rank, rank, Prod.Lex.toLex_lt_toLex]
  simp only [ofPosition]
  omega

section

variable (source : Source)

theorem one_le_location (o : Int) : 1 ≤ (source.location o).line ∧ 1 ≤ (source.location o).column := by
  obtain ⟨before, line, hlast⟩ := exists_lastLine 10 (source.bytes.take (source.clamp o))
  rw [source.location_of_lastLine hlast]
  exact ⟨Nat.le_add_right _ _, Nat.le_add_right _ _⟩

def placeOf (o : Int) : Place := .ofPosition (source.location o)

theorem rank_placeOf_mono {o o' : Int} (h : o ≤ o') : (placeOf source o).rank ≤ (placeOf source o').rank :=
  Place.rank_le_rank (one_le_location source o).1 (source.location_mono h)

theorem rank_placeOf_le_whole (o : Int) : (placeOf source o).rank ≤ (Range.whole source).stop.rank := by
  have hclamp : source.location o = source.location (source.clamp o) := by
    simp only [Source.location, Source.clamp, Int.toNat_natCast]
    congr 1
    omega
  rw [placeOf, hclamp]
  exact rank_placeOf_mono source (by exact_mod_cast source.clamp_le o)

theorem rank_zero_le (p : Place) : Place.zero.rank ≤ p.rank := by
  rw [Place.rank, Place.rank, Prod.Lex.toLex_le_toLex]
  simp only [Place.zero]
  omega

variable {source} {ts : List Token} {a b : Int} {s : Span} {ss : List Span} {outer : Range}

theorem rank_lt_of_aligned (hlex : lex source.name source.content = .ok ts)
    (h : s.Aligned source.name ts) : (placeOf source s.start).rank < (placeOf source s.stop).rank := by
  obtain ⟨before, own, after, hparted, hne, hstart, hstop⟩ := h.exists_own hlex
  obtain ⟨hline, hcolumn⟩ := one_le_location source s.start
  refine Place.rank_lt_rank hline hcolumn ?_
  have hbefore : source.chars = before ++ (own ++ after) := by rw [Source.chars, hparted, List.append_assoc]
  rw [hstop, source.location_append hparted, hstart, source.location_append hbefore, List.foldl_append]
  exact Position.lt_foldl_past hne _

theorem Range.row_of_queued (hlex : lex source.name source.content = .ok ts)
    (h : Queued source.name ts a b ss) (ha : outer.start.rank ≤ (placeOf source a).rank)
    (hb : (placeOf source b).rank ≤ outer.stop.rank) : Range.Row outer (ss.map (Range.ofSpan source)) where
  proper := List.forall_mem_map.2 fun s hs => rank_lt_of_aligned hlex (h.aligned s hs)
  within := List.forall_mem_map.2 fun s hs =>
    ⟨ha.trans (rank_placeOf_mono source (h.within s hs).1),
      (rank_placeOf_mono source (h.within s hs).2).trans hb⟩
  ordered := List.pairwise_map.2 (h.ordered.imp fun hst => rank_placeOf_mono source hst)

end

/-- The member has the name and the range of something of the kind. -/
structure Member.Shows (source : Source) (kind : SymbolKind) (name : String) (span : Span) (m : Member) :
    Prop where
  kind : m.kind = kind
  name : m.name = name
  range : m.range = .ofSpan source span

/-- The symbol stands for the declaration, and its members for the variants or fields of a type. -/
def Symbol.Shows (source : Source) : Decl Span → Symbol → Prop
  | .fn n _ _ _ span, s => s.head.Shows source .function n span ∧ s.members = []
  | .type n _ (.sum vs) span, s => s.head.Shows source .sum n span ∧
    List.Forall₂ (fun v m => m.Shows source .variant v.name v.span) vs s.members
  | .type n _ (.product ds) span, s => s.head.Shows source .product n span ∧
    List.Forall₂ (fun d m => m.Shows source .field d.name d.span) ds s.members

/-- The symbols stand for the declarations of the program, one for each and in order, and their ranges
are nested. -/
structure WellNested (source : Source) (p : Program Span) (symbols : List Symbol) : Prop where
  shows : List.Forall₂ (Symbol.Shows source) p.decls symbols
  row : Range.Row (.whole source) (symbols.map (·.head.range))
  members : ∀ s ∈ symbols, Range.Row s.head.range (s.members.map (·.range))

theorem Symbol.range_ofDecl (source : Source) (d : Decl Span) :
    (Symbol.ofDecl source d).head.range = .ofSpan source d.span := by
  rcases d with _ | ⟨_, _, _ | _, _⟩ <;> rfl

theorem Symbol.ranges_ofDecl (source : Source) (d : Decl Span) :
    (Symbol.ofDecl source d).members.map (·.range) = d.parts.map (Range.ofSpan source) := by
  rcases d with _ | ⟨_, _, _ | _, _⟩ <;>
    simp [Symbol.ofDecl, Decl.parts, TypeBody.parts, Symbol.ofVariant, Symbol.ofField]

theorem Symbol.shows_ofDecl (source : Source) (d : Decl Span) :
    Symbol.Shows source d (Symbol.ofDecl source d) := by
  rcases d with _ | ⟨_, _, vs | ds, _⟩
  · exact ⟨⟨rfl, rfl, rfl⟩, rfl⟩
  · exact ⟨⟨rfl, rfl, rfl⟩, List.forall₂_map_right_iff.2 (List.forall₂_same.2 fun _ _ => ⟨rfl, rfl, rfl⟩)⟩
  · exact ⟨⟨rfl, rfl, rfl⟩, List.forall₂_map_right_iff.2 (List.forall₂_same.2 fun _ _ => ⟨rfl, rfl, rfl⟩)⟩

theorem Symbol.wellNested_ofProgram {source : Source} {p : Program Span}
    (h : readProgram source.name source.content = .ok p) :
    WellNested source p (Symbol.ofProgram source (some p)) := by
  obtain ⟨ts, hlex, hturn⟩ := inTurn_of_readProgram h
  refine ⟨List.forall₂_map_right_iff.2 (List.forall₂_same.2 fun d _ => shows_ofDecl source d), ?_,
    List.forall_mem_map.2 fun d hd => ?_⟩
  · have hranges : (Symbol.ofProgram source (some p)).map (·.head.range) =
        (p.decls.map Decl.span).map (Range.ofSpan source) := by
      simp [ofProgram, range_ofDecl]
    rw [hranges]
    exact Range.row_of_queued hlex hturn.decls (rank_zero_le _) (rank_placeOf_le_whole source _)
  · rw [ranges_ofDecl, range_ofDecl]
    exact Range.row_of_queued hlex (hturn.parts d hd) (le_refl _) (le_refl _)

/-- Symbols form a well-nested outline, if there are any. After any requests, the symbols of a document
whose text is a program stand for its declarations in order, with ranges that are not empty and follow each
other within the document, and those of their members do so within theirs. There are none exactly where the
calls for the details of a declaration run out. -/
theorem symbols_nested {history : List Request} {name text : String} {p : Program Span}
    (htext : LastText history name text) (hread : readProgram name text = .ok p) :
    let reply := ((Workspace.empty.after history).handle ⟨name, .symbols⟩).1
    (reply = .exhausted ↔ ∃ d ∈ p.decls, maxCalls < d.detailCalls) ∧
    ((∀ d ∈ p.decls, d.detailCalls ≤ maxCalls) →
      ∃ symbols, reply = .symbols symbols ∧ WellNested ⟨name, text⟩ p symbols) := by
  intro reply
  have hfound := (Workspace.find?_after history name _).2 ⟨text, htext, rfl⟩
  have hprogram := (Document.program_of_readProgram hread).1
  have hdetails : ((Workspace.empty.after history).find? name).all Document.hasDetails =
      decide (p.detailCalls ≤ maxCalls) := by
    rw [hfound, Option.all_some, Document.hasDetails, hprogram, Option.all_some]
  constructor
  · have hexhausted : reply = .exhausted ↔ ¬ p.detailCalls ≤ maxCalls := by
      simp only [reply, Workspace.handle, hdetails, decide_eq_true_eq]
      split <;> simp [*]
    rw [hexhausted, Program.detailCalls_le_iff]
    push Not
    rfl
  · intro hfit
    refine ⟨_, Workspace.handle_symbols_eq.2 ⟨?_, rfl⟩, ?_⟩
    · rw [hdetails]
      exact decide_eq_true (Program.detailCalls_le_iff.2 hfit)
    · rw [hfound, Option.elim_some, Document.symbols, Document.source_ofText, hprogram]
      exact Symbol.wellNested_ofProgram hread

theorem symbols_nested_of_two :
    let text := "type T = | A\r\n  | B // é\nfn f\x7bg\x7d"
    let history : List Request := [⟨"a.at", .revised text⟩]
    LastText history "a.at" text ∧ ∃ p, readProgram "a.at" text = .ok p ∧
      (∀ d ∈ p.decls, d.detailCalls ≤ maxCalls) ∧
      ∃ symbols, ((Workspace.empty.after history).handle ⟨"a.at", .symbols⟩).1 = .symbols symbols ∧
        WellNested ⟨"a.at", text⟩ p symbols := by
  intro text history
  have htext : LastText history "a.at" text := ⟨[], [], rfl, by simp⟩
  obtain ⟨p, hp⟩ : ∃ p, readProgram "a.at" text = .ok p := exists_of_isOk (by decide +kernel)
  have hfit : ∀ d ∈ p.decls, d.detailCalls ≤ maxCalls := by
    have hcalls : (readProgram "a.at" text).toOption.map Program.detailCalls = some 2 := by decide +kernel
    rw [hp] at hcalls
    exact Program.detailCalls_le_iff.1 (by rw [Option.some.inj hcalls]; decide)
  exact ⟨htext, p, hp, hfit, (symbols_nested htext hp).2 hfit⟩

end Editor
end TinyFront
