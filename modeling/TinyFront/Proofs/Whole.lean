import TinyFront.Proofs.Alone
import TinyFront.Proofs.Nodes

/-!
Parts as whole texts. Main statement: a node that is read again from its own tokens alone has an
exact span.
-/
namespace TinyFront

/-- The tokens that lexing a text gives are all of one file. -/
structure Page (file : String) (ts : List Token) : Prop where
  stream : TokenStream ts
  file_eq : ∀ t ∈ ts, t.span.file = file

theorem Token.file_of_mem_ofPieces {file : String} {offset : Nat} {ps : List Piece} :
    ∀ t ∈ ofPieces file offset ps, t.span.file = file := by
  induction ps generalizing offset with
  | nil => simp [ofPieces, endMarker]
  | cons p ps ih =>
    rw [ofPieces]
    split
    · exact List.forall_mem_cons.2 ⟨rfl, ih⟩
    · exact ih

theorem page_of_lex {file source : String} {ts : List Token} (h : lex file source = .ok ts) :
    Page file ts := by
  refine ⟨stream_of_lex h, ?_⟩
  rw [(lex_eq_ok h).2]
  exact Token.file_of_mem_ofPieces

theorem Cursor.Ended.of_suffix {ts : List Token} {c : Cursor}
    (h : ∃ us e, ts = us ++ [e] ∧ e.kind = .eof) (hc : c.remaining <:+ ts) : c.Ended := by
  obtain ⟨us, hus⟩ := hc
  obtain ⟨vs, e, hvs, he⟩ := h
  have hlast : c.remaining.getLast? = some e := by
    have hall : (us ++ c.remaining).getLast? = some e := by simp [hus, hvs]
    rwa [List.getLast?_append, Option.or_of_isSome (by simp [c.remaining_ne_nil])] at hall
  obtain ⟨ws, hws⟩ := List.getLast?_eq_some_iff.1 hlast
  exact ⟨ws, e, hws, he⟩

namespace Page

variable {file : String} {ts : List Token} {c : Cursor}

theorem ended (h : Page file ts) (hc : c.remaining <:+ ts) : c.Ended := .of_suffix h.stream.ended hc

theorem fair (h : Page file ts) (hc : c.remaining <:+ ts) : Parser.Fair file c := by
  have hmem : c.current ∈ ts := hc.subset (List.mem_cons_self ..)
  exact ⟨h.ended hc, h.stream.proper _ hmem, h.file_eq _ hmem⟩

end Page

namespace Parser

/-- A family of trees that are whole texts of some form, and how it is read. -/
structure Whole (α : Type) where
  node : α → Tree Span
  inside : α → List (Tree Span)
  place : Placing → α → α
  parser : Nat → Parser α
  form : Form
  node_form : ∀ a, (node a).form = form
  node_map : ∀ (ρ : Placing) a, (node a).map ρ.span = node (place ρ a)
  /-- What is read up to the end of a text is read as the text. -/
  reads : ∀ {depth file d a d' e}, parser depth file d = .done a d' → d'.remaining = [e] →
    e.kind = .eof → (node a).span = ⟨file, 0, e.span.stop⟩ → tree depth form file d = .done (node a) d'
  overflows : ∀ {depth file d}, (parser depth).Overflows file d → (tree depth form).Overflows file d

namespace Whole

theorem element_reads {α : Type} {p : Parser α} {category : Category} {node : α → Tree Span}
    {file : String} {d d' : Cursor} {a : α} {e : Token} (hrun : p file d = .done a d')
    (hrem : d'.remaining = [e]) (he : e.kind = .eof) :
    (do
      let a ← p
      let _ ← tree.atEnd category
      return node a : Parser _) file d = .done (node a) d' := by
  have hk : d'.current.kind = .eof := by rw [(Cursor.current_of_remaining hrem).1, he]
  rw [bind_done hrun, bind_done (atEnd_eq_done.2 ⟨hk, rfl⟩)]
  rfl

def expression : Whole (Expr Span) where
  node := .expression
  inside := Expr.inside
  place ρ := Expr.map ρ.span
  parser := Parser.expression
  form := .expression
  node_form _ := rfl
  node_map _ _ := rfl
  reads hrun hrem he _ := element_reads hrun hrem he
  overflows h := h.bind _

def pattern : Whole (Pattern Span) where
  node := .pattern
  inside := Pattern.inside
  place ρ := Pattern.map ρ.span
  parser := Parser.pattern
  form := .pattern
  node_form _ := rfl
  node_map _ _ := rfl
  reads hrun hrem he _ := element_reads hrun hrem he
  overflows h := h.bind _

def type : Whole (Ty Span) where
  node := .type
  inside := Ty.inside
  place ρ := Ty.map ρ.span
  parser := Parser.type
  form := .type
  node_form _ := rfl
  node_map _ _ := rfl
  reads hrun hrem he _ := element_reads hrun hrem he
  overflows h := h.bind _

theorem declaration_of_eof {depth : Nat} {file : String} {d : Cursor} (hk : d.current.kind = .eof) :
    Parser.declaration depth file d = unexpected .declaration .declarationStart file d := by
  rw [Parser.declaration, declarationWithin, current_bind]
  simp only [hk]

/-- A program of a single declaration begins at offset zero, as a moved declaration does. -/
theorem declaration_reads {depth : Nat} {file : String} {d d' : Cursor} {a : Decl Span} {e : Token}
    (hrun : Parser.declaration depth file d = .done a d') (hrem : d'.remaining = [e])
    (he : e.kind = .eof) (hspan : a.alone.span = ⟨file, 0, e.span.stop⟩) :
    tree depth .program file d = .done a.alone d' := by
  obtain ⟨hcur, -⟩ := Cursor.current_of_remaining hrem
  have hstop : (!d'.isAt .eof) = false := by simp [Cursor.isAt, hcur, he]
  have hstart : (!d.isAt .eof) = true := by
    rw [Bool.not_eq_true', Bool.eq_false_iff]
    intro hk
    exact (not_overflows_unexpected (declaration_of_eof (Cursor.kind_of_isAt hk))).1 a d' hrun
  have hmany : many (fun c => !c.isAt .eof) (Parser.declaration depth) file d = .done [a] d' := by
    rw [many, show d.remaining.length = d.rest.length + 1 from rfl, manyUpTo, test_bind, hstart,
      if_pos rfl, bind_done hrun,
      bind_done (@manyUpTo_of_stop _ _ (fun c => !c.isAt .eof) _ _ hstop _)]
    rfl
  have hprogram : Parser.program depth file d = .done ⟨[a], a.span⟩ d' := by
    rw [Parser.program, bind_done hmany, current_bind, hcur, show a.span = _ from hspan]
    rfl
  rw [tree, bind_done hprogram]
  rfl

theorem declaration_overflows {depth : Nat} {file : String} {d : Cursor}
    (h : (Parser.declaration depth).Overflows file d) : (tree depth .program).Overflows file d := by
  have hstart : (!d.isAt .eof) = true := by
    rw [Bool.not_eq_true', Bool.eq_false_iff]
    intro hk
    exact (not_overflows_unexpected (declaration_of_eof (Cursor.kind_of_isAt hk))).2 h
  have hmany : (many (fun c => !c.isAt .eof) (Parser.declaration depth)).Overflows file d := by
    rw [Overflows, many, show d.remaining.length = d.rest.length + 1 from rfl, manyUpTo, test_bind,
      hstart, if_pos rfl]
    exact h.bind _
  exact Overflows.bind (hmany.bind _) _

def declaration : Whole (Decl Span) where
  node := Decl.alone
  inside := Decl.inside
  place ρ := Decl.map ρ.span
  parser := Parser.declaration
  form := .program
  node_form _ := rfl
  node_map ρ d := by simp [Decl.alone, Tree.map, Program.map]
  reads := declaration_reads
  overflows := declaration_overflows

end Whole

/-- The tokens of a run, which are not none, reach from the token it began on to the last one it
consumed. -/
theorem spanOf_of_consumes (file : String) {c c' : Cursor} {ts : List Token} (h : c.Consumes ts c')
    (hlen : 1 ≤ ts.length) : Token.spanOf file ts = ⟨file, c.current.span.start, c'.lastEnd⟩ := by
  obtain ⟨t, ts, rfl⟩ := List.exists_cons_of_length_pos hlen
  rw [(Cursor.current_of_remaining h.remaining).1, h.lastEnd, Token.spanOf,
    Cursor.endOf_of_ne_nil (by simp) 0 c.lastEnd]
  rfl

/-- A node whose span is what a run consumed has an exact span if the run is repeated alone. -/
theorem exact_of_alone {α : Type} (w : Whole α) {file source : String} {ts : List Token} {c c' : Cursor}
    {p : Parser α} {a : α} {room : Nat} (hlex : lex file source = .ok ts) (hc : c.remaining <:+ ts)
    (hrun : p file c = .done a c')
    (hspan : (w.node a).span = ⟨file, c.current.span.start, c'.lastEnd⟩)
    (halone : ∀ k depth, Alone (.shift k) (depth < room) 1 p (w.parser depth)
      (fun a b => b = w.place (.shift k) a) file c) : (w.node a).Exact file source := by
  let k : Int := -c.current.span.start
  obtain ⟨mid, hlen, hcons, -⟩ := halone k 0 a c' hrun
  obtain ⟨us, rfl⟩ := hc
  have hmid := spanOf_of_consumes file hcons hlen
  rw [hcons.remaining] at hlex
  obtain ⟨text, hdel, htext⟩ := lex_slice hlex (List.ne_nil_of_length_pos hlen) c'.remaining_ne_nil
  refine ⟨by rw [hspan], text, by rwa [hspan, ← hmid], room, fun depth => ?_⟩
  obtain ⟨file', d, hfile, hd, -, heq⟩ := run_eq (tree depth w.form) (some file)
    (show Token.alone file mid ≠ [] by simp [Token.alone])
  obtain rfl := hfile file rfl
  obtain ⟨mid', -, hcons', hrep⟩ := halone k depth a c' hrun
  obtain rfl : mid' = mid := List.append_cancel_right (hcons'.remaining.symm.trans hcons.remaining)
  rw [Token.alone, hmid] at hd
  rw [w.node_form, runSource_eq_run htext, heq]
  obtain ⟨b, d', hb, hcons'', rfl⟩ | ⟨hdeep, hover⟩ := hrep d _ rfl hd
  · have hrem := (List.append_cancel_left (hd.symm.trans hcons''.remaining)).symm
    have hmoved : (w.node (w.place (.shift k) a)).span =
        ⟨file, 0, c'.lastEnd - c.current.span.start⟩ := by
      rw [← w.node_map, Tree.map_span, hspan]
      simp only [Placing.span, Placing.shift, k, id_eq, Int.add_right_neg, Int.sub_eq_add_neg]
    rw [show tree depth w.form file d = _ from w.reads hb hrem rfl hmoved]
    refine .inl ⟨_, rfl, ?_⟩
    rw [← w.node_map, hspan]
    rfl
  · obtain ⟨r, d', hrun', hr⟩ := w.overflows hover
    rw [show tree depth w.form file d = _ from hrun']
    exact .inr ⟨hdeep, _, rfl, r, rfl, hr⟩

end Parser
end TinyFront
