import TinyFront.Proofs.Echoes
import TinyFront.Proofs.Repeats

/-!
Several calls on one reader. Main statement: each call answers as it would on a new reader that
stands where the call before stopped, except that too deep nesting goes under the category of its
first report.
-/
namespace TinyFront

theorem Placing.map_token_shift_zero (ts : List Token) : ts.map (Placing.shift 0).token = ts :=
  (List.map_congr_left fun t _ => by simp [Placing.token_shift, Token.shift]).trans (List.map_id ts)

namespace Pairing

def self : Pairing := ⟨Eq, congrArg _⟩

theorem self_ahead {c d : Cursor} (hc : c.Ended) (h : d.remaining = c.remaining) : self.Ahead c d := by
  refine ⟨?_, hc⟩
  show List.Forall₂ Eq c.remaining d.remaining
  rw [List.forall₂_eq_eq_eq, h]

theorem Ahead.remaining {c d : Cursor} (h : self.Ahead c d) : d.remaining = c.remaining := by
  have hpaired : List.Forall₂ Eq c.remaining d.remaining := h.paired
  rw [List.forall₂_eq_eq_eq] at hpaired
  exact hpaired.symm

end Pairing

theorem Failure.Alike.eq {e f : Failure} (h : e.Alike Pairing.self f) : f = e := by
  cases h with
  | rejected cause category h => rw [show _ = _ from h]
  | literalTooLong => rfl
  | unknownOperator => rfl
  | noTokens => rfl

namespace Parser

variable {α β γ : Type}

/-- A run that succeeds answers the same wherever the token before it ended. -/
def Forgets (p : Parser α) : Prop :=
  ∀ file c d a c', c.Ended → d.remaining = c.remaining → p file c = .done a c' →
    ∃ d', p file d = .done a d' ∧ d'.remaining = c'.remaining

/-- A run is repeated with the same answer where what it has consumed stands before any end of a phrase,
unless there is less room for nesting there. -/
theorem Follows.again {deep : Prop} {p q : Parser α} {place : α → α}
    (h : Follows (Placing.shift 0) deep p q place) (hself : Follows (Placing.shift 0) False p p place)
    {file : String} {c c' : Cursor} {a : α} (hc : c.Ended) (hrun : p file c = .done a c') :
    ∃ ts, c.Consumes ts c' ∧ ∀ rest, Cut (.shift 0) c'.remaining rest → ∀ d : Cursor,
      d.remaining = ts ++ rest →
        (∃ d', q file d = .done a d' ∧ d.Consumes ts d') ∨ deep ∧ q.Overflows file d := by
  have hmap := Placing.map_token_shift_zero
  obtain ⟨-, ts, -, hcons, hagain⟩ := h file c hc a c' hrun
  refine ⟨ts, hcons, fun rest hcut d hd => ?_⟩
  have hplace : place a = a := by
    obtain ⟨-, us, -, hcons', hrepeat⟩ := hself file c hc a c' hrun
    have hcut : Cut (.shift 0) c'.remaining (c'.remaining.map (Placing.shift 0).token) :=
      .whole (hcons'.ended hc)
    rw [hmap] at hcut
    obtain ⟨b, c'', hb, -, rfl⟩ | ⟨hdeep, -⟩ := hrepeat us.length (Nat.le_refl _) _ hcut c
      (by rw [hmap, hcons'.remaining]) (by simp)
    · exact (Outcome.done.inj (hrun.symm.trans hb)).1.symm
    · exact hdeep.elim
  obtain ⟨b, d', hb, hcons', rfl⟩ | hover := hagain ts.length (Nat.le_refl _) rest hcut d
    (by rw [hmap, hd]) (by simp)
  · rw [hmap] at hcons'
    rw [hplace] at hb
    exact .inl ⟨d', hb, hcons'⟩
  · exact .inr hover

theorem Follows.forgets {p : Parser α} {place : α → α}
    (h : Follows (Placing.shift 0) False p p place) : p.Forgets := by
  intro file c d a c' hc hd hrun
  obtain ⟨ts, hcons, hagain⟩ := h.again h hc hrun
  have hcut : Cut (.shift 0) c'.remaining (c'.remaining.map (Placing.shift 0).token) :=
    .whole (hcons.ended hc)
  rw [Placing.map_token_shift_zero] at hcut
  have hrem : d.remaining = ts ++ c'.remaining := hd.trans hcons.remaining
  obtain ⟨d', hd', hcons'⟩ | ⟨hdeep, -⟩ := hagain _ hcut d hrem
  · exact ⟨d', hd', List.append_cancel_left (hcons'.remaining.symm.trans hrem)⟩
  · exact hdeep.elim

/-- Behind a run that succeeds the end marker is still ahead. -/
def Keeps (p : Parser α) : Prop := ∀ file c a c', c.Ended → p file c = .done a c' → c'.Ended

theorem Follows.keeps {p : Parser α} {place : α → α}
    (h : Follows (Placing.shift 0) False p p place) : p.Keeps := by
  intro file c a c' hc hrun
  obtain ⟨-, ts, -, hcons, -⟩ := h file c hc a c' hrun
  exact hcons.ended hc

namespace Forgets

variable {p : Parser α}

theorem pure (a : α) : (pure a : Parser α).Forgets := by
  intro file c d a' c' _ hd hrun
  obtain ⟨rfl, rfl⟩ := pure_eq_done.1 hrun
  exact ⟨d, rfl, hd⟩

theorem bind {k : α → Parser β} (h : p.Forgets) (hp : p.Keeps) (hk : ∀ a, (k a).Forgets) :
    (p >>= k).Forgets := by
  intro file c d b c' hc hd hrun
  obtain ⟨a, e, ha, hb⟩ := bind_eq_done.1 hrun
  obtain ⟨d₁, hd₁, hrem⟩ := h file c d a e hc hd ha
  obtain ⟨d₂, hd₂, hrem'⟩ := hk a file e d₁ b c' (hp file c a e hc ha) hrem hb
  exact ⟨d₂, (bind_done hd₁).trans hd₂, hrem'⟩

theorem andThenPure (h : p.Forgets) (f : α → β) : (p >>= fun a => Pure.pure (f a)).Forgets := by
  intro file c d b c' hc hd hrun
  obtain ⟨a, e, ha, hb⟩ := bind_eq_done.1 hrun
  obtain ⟨rfl, rfl⟩ := pure_eq_done.1 hb
  obtain ⟨d', hd', hrem⟩ := h file c d a _ hc hd ha
  exact ⟨d', bind_done hd', hrem⟩

theorem test {f : Cursor → Bool} (hf : Blind Pairing.self f) {k : Bool → Parser β}
    (hk : ∀ b, (k b).Forgets) : (Parser.test f >>= k).Forgets := by
  intro file c d b c' hc hd hrun
  rw [test_bind] at hrun ⊢
  rw [hf c d (Pairing.self_ahead hc hd)]
  exact hk _ file c d b c' hc hd hrun

theorem ite {b : Prop} [Decidable b] {q : Parser α} (h : p.Forgets) (h' : q.Forgets) :
    (if b then p else q).Forgets := by
  split
  · exact h
  · exact h'

theorem unexpected (category : Category) (expected : Expected) :
    (Parser.unexpected category expected : Parser α).Forgets :=
  fun _ _ _ _ _ _ _ hrun => (unexpected_ne_done.1 hrun).elim

theorem many {starts : Cursor → Bool} (hs : Blind Pairing.self starts) (h : p.Forgets) (hp : p.Keeps) :
    (many starts p).Forgets := by
  have hall : ∀ bound, (manyUpTo starts p bound).Forgets := by
    intro bound
    induction bound with
    | zero => exact .pure []
    | succ bound ih => exact .test hs fun _ => .ite (.bind h hp fun a => ih.andThenPure (a :: ·)) (.pure [])
  intro file c d as c' hc hd hrun
  show ∃ d', manyUpTo starts p d.remaining.length file d = _ ∧ _
  rw [hd]
  exact hall _ file c d as c' hc hd hrun

end Forgets

theorem program_forgets (depth : Nat) : (program depth).Forgets := by
  have hdecl := declaration_follows_self (.shift 0) depth
  have hmany := Forgets.many (.not (.isAt .eof)) hdecl.forgets hdecl.keeps
  intro file c d p c' hc hd hrun
  obtain ⟨decls, e, hdecls, hlast⟩ := bind_eq_done.1 hrun
  obtain ⟨d', hd', hrem⟩ := hmany file c d decls e hc hd hdecls
  have hcurrent : d'.current = e.current := (Cursor.current_of_remaining hrem).1
  cases hlast
  refine ⟨d', (bind_done hd').trans ?_, hrem⟩
  show Outcome.done (Program.mk decls ⟨file, 0, d'.current.span.stop⟩) d' = _
  rw [hcurrent]

theorem tree_forgets (depth : Nat) (form : Form) : (tree depth form).Forgets := by
  have hdeep : depth < depth → False := Nat.lt_irrefl _
  have hend : ∀ category (t : Tree Span), (tree.atEnd category >>= fun _ => Pure.pure t).Forgets :=
    fun category t => .andThenPure (.test (.isAt _) fun _ => .ite (.pure ()) (.unexpected _ _)) fun _ => t
  cases form with
  | program => exact (program_forgets depth).andThenPure Tree.program
  | expression =>
    have h : Follows (.shift 0) False _ _ (Expr.map (Placing.shift 0).span) :=
      expression_follows depth depth hdeep
    exact .bind h.forgets h.keeps fun e => hend _ (.expression e)
  | pattern =>
    have h : Follows (.shift 0) False _ _ (Pattern.map (Placing.shift 0).span) :=
      pattern_follows depth depth hdeep
    exact .bind h.forgets h.keeps fun p => hend _ (.pattern p)
  | type =>
    have h : Follows (.shift 0) False _ _ (Ty.map (Placing.shift 0).span) :=
      type_follows depth depth hdeep
    exact .bind h.forgets h.keeps fun t => hend _ (.type t)

/-- The tokens ahead are all that a call depends on, whether it succeeds or not. -/
theorem tree_of_remaining (depth : Nat) (form : Form) (file : String) {c d : Cursor} (hc : c.Ended)
    (hd : d.remaining = c.remaining) :
    ∃ c' d', c'.Ended ∧ d'.remaining = c'.remaining ∧
      ((∃ t, tree depth form file c = .done t c' ∧ tree depth form file d = .done t d') ∨
        ∃ e, tree depth form file c = .failed e c' ∧ tree depth form file d = .failed e d') := by
  have hecho := tree_echo (P := Pairing.self) depth form file file c d (Pairing.self_ahead hc hd)
  cases hrun : tree depth form file c with
  | done t c' =>
    obtain ⟨d', hd', hrem⟩ := tree_forgets depth form file c d t c' hc hd hrun
    rw [hrun, hd'] at hecho
    cases hecho with
    | done _ h => exact ⟨c', d', h.ended, hrem, .inl ⟨t, rfl, hd'⟩⟩
  | failed e c' =>
    rw [hrun] at hecho
    generalize hrun' : tree depth form file d = x at hecho
    cases hecho with
    | failed he h => exact ⟨c', _, h.ended, h.remaining, .inr ⟨e, rfl, by rw [he.eq]⟩⟩

end Parser

namespace Reader

/-- A new reader at the tokens that are left. -/
def afresh (lastEnd : Int) (r : Reader) : Reader := ⟨r.file, ⟨r.cursor.current, r.cursor.rest, lastEnd⟩, none⟩

/-- The outcome of a call when too deep nesting was reported before. -/
def relabel {α : Type} (overflow : Option Category) (x : Except Failure α) : Except Failure α :=
  x.mapError fun e => (settle overflow e).1

/-- Each call on a new reader, where the one before stopped; too deep nesting goes under the category
of its first report. -/
def readAllAfresh (lastEnd : Int) (overflow : Option Category) (r : Reader) :
    List Form → List (Except Failure (Tree Span) × Nat)
  | [] => []
  | form :: forms =>
    let (result, next) := (r.afresh lastEnd).read form
    (relabel overflow result, next.cursor.rest.length) ::
      next.readAllAfresh lastEnd (overflow.or next.overflow) forms

theorem settle_settle (overflow : Option Category) (e : Failure) :
    settle overflow e =
      ((settle overflow (settle none e).1).1, overflow.or (settle none e).2) := by
  cases e with
  | rejected r =>
    by_cases hr : r.cause = .nestingTooDeep
    · cases overflow <;> simp [settle, hr]
    · cases overflow <;> simp [settle, hr]
  | literalTooLong => simp [settle]
  | unknownOperator => simp [settle]
  | noTokens => simp [settle]

/-- A call answers as on a new reader, and leaves the same tokens. -/
theorem read_eq_afresh {r s : Reader} (hended : r.cursor.Ended) (hfile : s.file = r.file)
    (hcursor : s.cursor.remaining = r.cursor.remaining) (lastEnd : Int) (form : Form) :
    (r.read form).1 = relabel r.overflow ((s.afresh lastEnd).read form).1 ∧
      (r.read form).2.cursor.Ended ∧
      ((s.afresh lastEnd).read form).2.cursor.remaining = (r.read form).2.cursor.remaining ∧
      ((s.afresh lastEnd).read form).2.file = (r.read form).2.file ∧
      (r.read form).2.overflow = r.overflow.or ((s.afresh lastEnd).read form).2.overflow := by
  obtain ⟨c', d', hended', hrem, ⟨t, hc, hd⟩ | ⟨e, hc, hd⟩⟩ := Parser.tree_of_remaining Parser.maxDepth
    form r.file (d := (s.afresh lastEnd).cursor) hended hcursor
  · have hfresh : Parser.tree Parser.maxDepth form (s.afresh lastEnd).file (s.afresh lastEnd).cursor =
        .done t d' := hfile ▸ hd
    rw [read, read, hc, hfresh]
    exact ⟨rfl, hended', hrem, hfile, (Option.or_none).symm⟩
  · have hfresh : Parser.tree Parser.maxDepth form (s.afresh lastEnd).file (s.afresh lastEnd).cursor =
        .failed e d' := hfile ▸ hd
    rw [read, read, hc, hfresh]
    have hsettle := settle_settle r.overflow e
    exact ⟨congrArg (fun x => (Except.error x.1 : Except Failure (Tree Span))) hsettle, hended', hrem, hfile, congrArg Prod.snd hsettle⟩

/-- Once it was reported, too deep nesting has the same category in every call, whatever is read. -/
theorem category_of_read {r : Reader} {category : Category} (hr : r.overflow = some category)
    {form : Form} {x : Rejection} (hx : (r.read form).1 = .error (.rejected x))
    (hdeep : x.cause = .nestingTooDeep) : x.category = category := by
  rw [read] at hx
  split at hx
  · cases hx
  · rename_i e stopped _
    cases e with
    | rejected y =>
      by_cases hy : y.cause = .nestingTooDeep
      · simp only [settle, hy, if_true, hr, Option.getD_some] at hx
        cases hx
        rfl
      · simp only [settle, hy, if_false] at hx
        cases hx
        exact absurd hdeep hy
    | literalTooLong => cases hx
    | unknownOperator => cases hx
    | noTokens => cases hx

theorem readAll_eq {r s : Reader} (hended : r.cursor.Ended) (hfile : s.file = r.file)
    (hcursor : s.cursor.remaining = r.cursor.remaining) (lastEnd : Int) (forms : List Form) :
    r.readAll forms = s.readAllAfresh lastEnd r.overflow forms := by
  induction forms generalizing r s with
  | nil => rfl
  | cons form forms ih =>
    obtain ⟨hresult, hended', hrem, hfile', hoverflow⟩ := read_eq_afresh hended hfile hcursor lastEnd form
    have hrest : ((s.afresh lastEnd).read form).2.cursor.rest = (r.read form).2.cursor.rest :=
      (Cursor.current_of_remaining hrem).2
    show ((r.read form).1, (r.read form).2.cursor.rest.length) :: (r.read form).2.readAll forms = _
    rw [ih hended' hfile' hrem, hresult, hoverflow, ← hrest]
    rfl

/-- On one reader, from the first token on, each call answers as on a new reader that stands where
the call before stopped, whatever that one came to; only the category of too deep nesting is that of
its first report. -/
theorem readAll_eq_afresh {file? : Option String} {tokens : List Token} {r : Reader}
    (hended : ∃ us e, tokens = us ++ [e] ∧ e.kind = .eof) (hr : ofTokens? file? tokens = some r)
    (lastEnd : Int) (forms : List Form) : r.readAll forms = r.readAllAfresh lastEnd none forms := by
  obtain ⟨c, hc, hlast⟩ := Option.bind_eq_some_iff.1 hr
  obtain ⟨last, -, hreader⟩ := Option.bind_eq_some_iff.1 hlast
  cases hreader
  refine readAll_eq ?_ rfl rfl lastEnd forms
  obtain ⟨t, ts, rfl⟩ : ∃ t ts, tokens = t :: ts := by
    obtain ⟨us, e, rfl, -⟩ := hended
    cases us <;> simp
  cases hc
  exact hended

theorem readAll_eq_afresh_of_tuple : ∃ r,
    ofTokens? none [⟨.lparen, "(", ⟨"a", 0, 1⟩⟩, ⟨.identifier, "x", ⟨"a", 1, 2⟩⟩, ⟨.eof, "", ⟨"a", 2, 2⟩⟩] =
      some r ∧
    r.readAll [.expression, .pattern, .program] =
      r.readAllAfresh 7 none [.expression, .pattern, .program] :=
  ⟨_, rfl, readAll_eq_afresh ⟨[_, _], _, rfl, rfl⟩ rfl 7 [.expression, .pattern, .program]⟩

end Reader
end TinyFront
