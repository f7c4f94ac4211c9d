import TinyFront.Proofs.AtomShapes
import TinyFront.Proofs.Calls
import TinyFront.Proofs.Unclosed

/-!
Parentheses around a whole phrase. Main statement: a token list that is read as an expression, a pattern
or a type is read as the very same tree in any number of parentheses, whichever places these have.
-/
namespace TinyFront.Parser

variable {ε : Type} {file : String} {ts : List Token} {a : ε} {f : Family ε} {W : Whole ε}

/-- Wherever an element may end behind the tokens, they are read as the tree. -/
def ReadsAs (p : Parser ε) (file : String) (ts : List Token) (a : ε) : Prop :=
  ∀ (c : Cursor) (stop : Token) (tail : List Token), c.Ended → stop.kind.endsElement = true →
    c.remaining = ts ++ stop :: tail → ∃ c', p file c = .done a c' ∧ c.Consumes ts c'

/-- Phrases that may stand in parentheses: where a phrase is asked for, an atom of the family is enough. -/
structure Wraps (W : Whole ε) (f : Family ε) : Prop where
  follows : ∀ depth room,
    Follows (.shift 0) (room < depth) (W.parser depth) (W.parser room) (W.place (.shift 0))
  refuses : ∀ depth, (W.parser depth).Refuses
  ofAtom : ∀ {depth file c a c'}, c.current.kind = .lparen →
    atom f (W.parser depth) file c = .done a c' → c'.current.kind.endsElement = true →
      W.parser (depth + 1) file c = .done a c'
  tree : ∀ depth, tree depth W.form = do
    let a ← W.parser depth
    let _ ← tree.atEnd f.category
    return W.node a

theorem startsAtom_of_lparen {c : Cursor} (h : c.current.kind = .lparen) : f.startsAtom c = true := by
  rw [Family.startsAtom, h]

theorem expression_wraps : Wraps Whole.expression .expression where
  follows _ _ := expression_follows _ _ id
  refuses depth := (expression_strict depth).refuses
  ofAtom hk := expression_of_atom (startsAtom_of_lparen hk)
  tree _ := rfl

theorem pattern_wraps : Wraps Whole.pattern .pattern where
  follows _ _ := pattern_follows _ _ id
  refuses depth := (pattern_strict depth).refuses
  ofAtom hk hrun _ := pattern_of_atom (by simp [hk]) hrun
  tree _ := rfl

theorem type_wraps : Wraps Whole.type .type where
  follows _ _ := type_follows _ _ id
  refuses depth := (type_strict depth).refuses
  ofAtom hk := type_of_atom (startsAtom_of_lparen hk)
  tree _ := rfl

namespace Wraps

theorem self (h : Wraps W f) (depth : Nat) :
    Follows (.shift 0) False (W.parser depth) (W.parser depth) (W.place (.shift 0)) := by
  have hfollows := h.follows depth depth
  rwa [show (depth < depth) = False by simp] at hfollows

/-- One more pair of parentheses takes one level of nesting, and leaves the tree as it is. -/
theorem readsAs_pair (h : Wraps W f) {depth : Nat} {o k : Token} (ho : o.kind = .lparen)
    (hk : k.kind = .rparen) (hread : ReadsAs (W.parser depth) file ts a) :
    ReadsAs (W.parser (depth + 1)) file (o :: ts ++ [k]) a := by
  intro c stop tail hc hstop hrem
  rw [List.append_assoc] at hrem
  obtain ⟨rfl, hended, hopen, hrem₁⟩ := hc.step_over hrem (by simp [ho])
  obtain ⟨c₁, hrun, hts⟩ := hread c.advance k (stop :: tail) hended (by rw [hk]; rfl) hrem₁
  have hrem₂ := hts.remaining_eq hrem₁
  obtain ⟨rfl, -, hclose, hrem₃⟩ := (hts.ended hended).step_over hrem₂ (by simp [hk])
  have hstart : listEnds .rparen c.advance = false := by
    refine Bool.eq_false_iff.2 fun hends => ?_
    have hedge : c.advance.current.kind.isEdge = true := by
      simp only [listEnds, Bool.or_eq_true, Cursor.isAt_iff] at hends
      obtain he | he := hends <;> rw [he] <;> rfl
    obtain ⟨r, hfail, -⟩ := h.refuses depth file c.advance hedge
    rw [hrun] at hfail
    cases hfail
  have hrow : commas .rparen (W.parser depth) file c.advance = .done ([a], false) c₁ :=
    commas_of_last (fun c hc => (h.self depth).shortens hc) hended hstart hrun hk
  refine ⟨c₁.advance, h.ofAtom ho (atom_of_row ho hrow hk) ?_, (hopen.trans hts).trans hclose⟩
  rw [(Cursor.current_of_remaining hrem₃).1]
  exact hstop

theorem readsAs_pairs (h : Wraps W f) {depth : Nat} {os ks : List Token}
    (hos : ∀ o ∈ os, o.kind = .lparen) (hks : ∀ k ∈ ks, k.kind = .rparen) (hlen : ks.length = os.length)
    (hread : ReadsAs (W.parser depth) file ts a) :
    ReadsAs (W.parser (depth + os.length)) file (os ++ ts ++ ks) a := by
  induction os generalizing ks with
  | nil =>
    obtain rfl := List.length_eq_zero_iff.1 hlen
    simpa using hread
  | cons o os ih =>
    obtain ⟨ks, k, rfl⟩ := (List.eq_nil_or_concat' ks).resolve_left (by rintro rfl; simp at hlen)
    obtain ⟨ho, hos⟩ := List.forall_mem_cons.1 hos
    obtain ⟨hks, hk⟩ := List.forall_mem_append.1 hks
    have hinner := ih hos hks (by simpa using hlen)
    have hpair := h.readsAs_pair ho (hk k (List.mem_singleton_self k)) hinner
    simpa [Nat.add_assoc] using hpair

/-- A whole token list that is read as a tree is read so wherever an element may end. -/
theorem exists_readsAs (h : Wraps W f) {depth : Nat} {file? : Option String} {e : Token} {t : Tree Span}
    (hts : ∀ u ∈ ts, u.kind ≠ .eof) (he : e.kind = .eof)
    (hrun : (Parser.tree depth W.form).run file? (ts ++ [e]) = .ok t) :
    ∃ a, t = W.node a ∧ ReadsAs (W.parser depth) (file?.getD e.span.file) ts a := by
  obtain ⟨c, hc, heq⟩ := run_concat (Parser.tree depth W.form) file? ts e
  rw [heq] at hrun
  cases hdone : Parser.tree depth W.form (file?.getD e.span.file) c with
  | failed g c' =>
    rw [hdone] at hrun
    cases hrun
  | done u c' =>
    rw [hdone] at hrun
    obtain rfl := Except.ok.inj hrun
    rw [h.tree] at hdone
    obtain ⟨a, x, ha, hrest⟩ := bind_eq_done.1 hdone
    obtain ⟨_, y, hend, hpure⟩ := bind_eq_done.1 hrest
    obtain ⟨hk, rfl⟩ := atEnd_eq_done.1 hend
    obtain ⟨rfl, rfl⟩ := pure_eq_done.1 hpure
    obtain ⟨us, hus, hagain⟩ := (h.self depth).again (h.self depth) ⟨ts, e, hc, he⟩ ha
    obtain rfl : us = ts := by
      have hparts : ts ++ [e] = us ++ x.current :: x.rest := hc.symm.trans hus.remaining
      obtain ⟨vs, rfl, hvs⟩ | ⟨vs, rfl, hvs⟩ := List.append_eq_append_iff.1 hparts
      · cases vs with
        | nil => simp
        | cons v vs => simp at hvs
      · cases vs with
        | nil => simp
        | cons v vs =>
          obtain ⟨rfl, -⟩ := List.cons.inj hvs
          exact absurd hk (hts _ (by simp))
    refine ⟨a, rfl, fun d stop tail hd hstop hrem => ?_⟩
    have hcut : Cut (.shift 0) x.remaining (stop :: tail) := by
      refine .here ?_
      cases hs : stop.kind <;> simp [hs, TokenKind.endsElement] at hstop <;> rfl
    exact (hagain _ hcut d hrem).resolve_right fun hdeep => hdeep.1.elim

/-- Tokens that are read as a tree with enough room for nesting are read so with any room, or nest too
deeply for it. -/
theorem run_of_readsAs (h : Wraps W f) {depth : Nat} {file? : Option String} {e : Token}
    (he : e.kind = .eof) (hread : ReadsAs (W.parser depth) (file?.getD e.span.file) ts a) (room : Nat) :
    (Parser.tree room W.form).run file? (ts ++ [e]) = .ok (W.node a) ∨ room < depth ∧
      ∃ r, (Parser.tree room W.form).run file? (ts ++ [e]) = .error (.rejected r) ∧
        r.cause = .nestingTooDeep := by
  obtain ⟨c, hc, heq⟩ := run_concat (Parser.tree room W.form) file? ts e
  obtain ⟨c', ha, hts⟩ := hread c e [] ⟨ts, e, hc, he⟩ (by rw [he]; rfl) hc
  obtain ⟨us, hus, hagain⟩ := (h.follows depth room).again (h.self depth) ⟨ts, e, hc, he⟩ ha
  obtain rfl : us = ts := List.append_cancel_right (hus.remaining.symm.trans hts.remaining)
  have hcut : Cut (.shift 0) c'.remaining [e] := .here (by rw [he]; rfl)
  obtain ⟨d, hd, hcons⟩ | ⟨hdeep, hover⟩ := hagain _ hcut c hc
  · refine .inl ?_
    rw [heq, h.tree, Whole.element_reads hd (hcons.remaining_eq hc) he]
  · obtain ⟨r, d, hfail, hr⟩ := W.overflows hover
    exact .inr ⟨hdeep, r, by rw [heq, hfail], hr⟩

end Wraps

/-- Parentheses around a whole phrase are transparent. Tokens that are read as an expression, a pattern or
a type are read as the same tree, with all its spans, in any number of parentheses, wherever these stand;
or they nest too deeply if there is not one more level of nesting for each pair. -/
theorem run_in_parentheses {depth : Nat} {form : Form} (hform : form ≠ .program) {file? : Option String}
    {e : Token} {t : Tree Span} (hts : ∀ u ∈ ts, u.kind ≠ .eof) (he : e.kind = .eof)
    (hrun : (tree depth form).run file? (ts ++ [e]) = .ok t) {os ks : List Token}
    (hos : ∀ o ∈ os, o.kind = .lparen) (hks : ∀ k ∈ ks, k.kind = .rparen)
    (hlen : ks.length = os.length) {e' : Token} (he' : e'.kind = .eof)
    (hfile : file?.getD e'.span.file = file?.getD e.span.file) (room : Nat) :
    (tree room form).run file? (os ++ ts ++ ks ++ [e']) = .ok t ∨ room < depth + os.length ∧
      ∃ r, (tree room form).run file? (os ++ ts ++ ks ++ [e']) = .error (.rejected r) ∧
        r.cause = .nestingTooDeep := by
  have hwraps : ∀ {ε : Type} {W : Whole ε} {f : Family ε}, Wraps W f →
      (tree depth W.form).run file? (ts ++ [e]) = .ok t →
      (tree room W.form).run file? (os ++ ts ++ ks ++ [e']) = .ok t ∨ room < depth + os.length ∧
        ∃ r, (tree room W.form).run file? (os ++ ts ++ ks ++ [e']) = .error (.rejected r) ∧
          r.cause = .nestingTooDeep := by
    intro ε W f hW hrun
    obtain ⟨a, rfl, hread⟩ := hW.exists_readsAs hts he hrun
    rw [← hfile] at hread
    exact hW.run_of_readsAs he' (hW.readsAs_pairs hos hks hlen hread) room
  cases form with
  | program => exact absurd rfl hform
  | expression => exact hwraps expression_wraps hrun
  | pattern => exact hwraps pattern_wraps hrun
  | type => exact hwraps type_wraps hrun

/-- A lambda with an annotated body, in two pairs of parentheses that stand somewhere else. -/
theorem run_in_parentheses_of_lambda :
    let ts : List Token := [⟨.pipe, "|", ⟨"a", 0, 1⟩⟩, ⟨.identifier, "x", ⟨"a", 1, 2⟩⟩,
      ⟨.pipe, "|", ⟨"a", 2, 3⟩⟩, ⟨.identifier, "x", ⟨"a", 4, 5⟩⟩, ⟨.colon, ":", ⟨"a", 6, 7⟩⟩,
      ⟨.typeIdentifier, "A", ⟨"a", 8, 9⟩⟩]
    let e : Token := ⟨.eof, "", ⟨"a", 9, 9⟩⟩
    let o : Token := ⟨.lparen, "(", ⟨"b", 7, 7⟩⟩
    let k : Token := ⟨.rparen, ")", ⟨"c", 2, 1⟩⟩
    (∀ u ∈ ts, u.kind ≠ .eof) ∧ ∃ t, (tree 2 .expression).run none (ts ++ [e]) = .ok t ∧
      (tree 4 .expression).run none ([o, o] ++ ts ++ [k, k] ++ [e]) = .ok t := by
  intro ts e o k
  have hts : ∀ u ∈ ts, u.kind ≠ .eof := by decide
  obtain ⟨t, hrun⟩ : ∃ t, (tree 2 .expression).run none (ts ++ [e]) = .ok t :=
    exists_of_isOk (by decide +kernel)
  have hos : ∀ x ∈ [o, o], x.kind = .lparen := by simp [o]
  have hks : ∀ x ∈ [k, k], x.kind = .rparen := by simp [k]
  have he : e.kind = .eof := rfl
  have hwrapped := run_in_parentheses (by decide) hts he hrun hos hks rfl he rfl 4
  exact ⟨hts, t, hrun, hwrapped.resolve_right fun h => Nat.lt_irrefl _ h.1⟩

end TinyFront.Parser
