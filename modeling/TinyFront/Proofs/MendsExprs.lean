import TinyFront.Proofs.MendsAtoms

/-!
Expressions in the logic of refusals. An opening of a record is decided by three lexemes, and these
are the ones that a record begins with; no block and no list of clauses can begin so, since each of
them would need another token in the place of the equals sign.
-/
namespace TinyFront

open Grammar

namespace Cursor

variable {c c' : Cursor} {t : Token} {ts : List Token}

theorem Consumes.tail (h : c.Consumes (t :: ts) c') : c.current = t ∧ c.advance.Consumes ts c' := by
  have hrem : c.remaining = t :: (ts ++ c'.remaining) := h.remaining
  have hstep := advance_of_remaining hrem (by simp [c'.remaining_ne_nil])
  exact ⟨(current_of_remaining hrem).1, hstep.1, by rw [h.lastEnd, hstep.2]; rfl⟩

theorem opensRecord_iff : opensRecord c.lexemes = true ↔ c.current.kind = .lbrace ∧
    c.advance.current.kind = .identifier ∧ c.advance.advance.current.kind = .assign := by
  rw [← Parser.startsRecord_of_lexemes]
  obtain ⟨t, ts, e⟩ := c
  rcases ts with _ | ⟨u, _ | ⟨v, ts⟩⟩
  · constructor
    · simp [Parser.startsRecord]
    · rintro ⟨hk, hk', -⟩
      exact absurd (hk.symm.trans hk') (by decide)
  · constructor
    · simp [Parser.startsRecord]
    · rintro ⟨-, hk, hk'⟩
      exact absurd (hk.symm.trans hk') (by decide)
  · simp [Parser.startsRecord, advance, isAt]

end Cursor

namespace Parser

variable {ι α β γ : Type} {n j : Nat} {s : Sym} {w : List TokenKind} {file : String} {c : Cursor}

theorem patterns_mended (n : Nat) : ∀ j, Mended n (.element .pattern) [.underscore] fun m => pattern (m + j)
  | 0 => pattern_mended n
  | j + 1 => by
    simpa only [Nat.add_assoc, Nat.add_comm 1 j] using (patterns_mended (n + 1) j).pred

/-! Chains. -/

section

variable {q : Nat → Parser (Expr Span)} {starts : Cursor → Bool} {item : Nat → Parser β}
  {build : Int → Expr Span → β → Expr Span}

theorem chain_mends (hs : Scouts (.element .expression) starts)
    (hi : Items n (.element .expression) starts item)
    (hrecord : ∀ c : Cursor, starts c = true → c.current.kind = .lbrace → opensRecord c.lexemes = true)
    (ho : Mends n 1 (.element .expression) w (q n) (fun m (_ : Unit) => q m) file c)
    (hc : TokenStream c.remaining) :
    Mends n 1 (.element .expression) w (chain (q n) starts (item n) build)
      (fun m (_ : ι) => chain (q m) starts (item m) build) file c := by
  unfold chain
  rw [← List.append_nil w]
  refine .after_quiet .start .start fun a => .bind (i := 0) hc ho (fun e c' hc' => ?_) (.inr fun _ hk => hk)
    (fun R hR => hR) fun _ => many_respects hrecord fun _ _ => .pure _
  exact (many_mends hs hi (fun _ hk => hk) (fun _ => hrecord) hc').last (fun _ => .pure _)
    fun _ _ _ => .pure _

end

/-! Field accesses and records. -/

theorem fieldValue_shortens (m : Nat) (hc : c.Ended) : (fieldValue (expression m)).Shortens file c :=
  ((fieldValue_steady (expression_self m) hc).mono (by decide)).shortens hc

/-- What stands behind the equals sign of the first field of a record. -/
def recordRest (inner : Parser (Expr Span)) (name : Token) (start : Int) : Parser Suffix := do
  let value ← inner
  let s ← spanFrom start
  afterItem .expression .lbrace .rbrace (fieldValue inner) (fun x _ => pure (.record x.1))
    ⟨name.text, value, s⟩

theorem suffix_of_opensRecord (m : Nat) {d : Cursor} (hd : d.Ended)
    (ho : opensRecord d.lexemes = true) : suffix (expression m) file d =
      recordRest (expression m) d.advance.current d.advance.current.span.start file
        d.advance.advance.advance := by
  obtain ⟨hbrace, hname, hassign⟩ := Cursor.opensRecord_iff.1 ho
  have hfield : fieldValue (expression m) file d.advance =
      (do
        let value ← expression m
        let s ← spanFrom d.advance.current.span.start
        return ⟨d.advance.current.text, value, s⟩ : Parser (FieldValue Span)) file
          d.advance.advance.advance := by
    rw [fieldValue, located, start_bind, bind_assoc, Mends.bind_expect_of_eq hname, advance_bind,
      bind_assoc, Mends.bind_expect_of_eq hassign, advance_bind, bind_assoc]
    rfl
  have hlist : suffix (expression m) file d = closedList .expression .lbrace .rbrace
      (fieldValue (expression m)) (fun x _ => pure (.record x.1)) file d.advance := by
    rw [suffix, advance_bind, if_neg (by simp [hbrace])]
    rfl
  rw [hlist, closedList_of_not_listEnds (fun _ hc _ => fieldValue_shortens m hc)
    (hd.advance (by simp [hbrace])) (by simp [listEnds, Cursor.isAt, hname]), bind_apply, hfield,
    ← bind_apply, bind_assoc]
  rfl

theorem closing_congr {p q : Parser α} {d : Cursor} (hpq : p file c = q file d) :
    closing p file c = closing q file d := by
  rw [closing, bind_apply, hpq, ← bind_apply, closing]

theorem field_viable (hc : TokenStream c.remaining) (hdot : c.current.kind = .dot) :
    Viable n 1 (.element .expression) (closing (suffix (expression n)))
      (fun m (_ : Unit) => closing (suffix (expression m))) file c := by
  have heq : ∀ {p : Parser (Expr Span)} {file : String} {d : Cursor}, d.current.kind = .dot →
      suffix p file d = (do
        let _ ← advance
        let t ← expect .expression .identifier
        return .field t.text : Parser Suffix) file d := by
    intro p file d hd
    rw [suffix, advance_bind, if_pos hd]
    rfl
  have hfield : Mends n 1 (.element .expression) [.dot, .identifier]
      (do
        let _ ← advance
        let t ← expect .expression .identifier
        return .field t.text : Parser Suffix)
      (fun _ (_ : Unit) => do
        let _ ← advance
        let t ← expect .expression .identifier
        return .field t.text : Nat → Unit → Parser Suffix) file c :=
    .advance (l := 1) hc (by decide) hdot fun _ _ _ hc => .expect (l := 0) hc (by decide) fun _ _ _ _ => .pure
  exact hfield.closing.viable.at_kind (closing_congr (heq hdot)) fun m x _ _ hd =>
    ⟨x, closing_congr (heq (hd.trans hdot))⟩

section

variable (h : Mended n (.element .expression) [.underscore] expression)

include h

theorem fieldValue_mends (hc : TokenStream c.remaining) :
    Mends n 1 (.element .expression) [.identifier, .assign, .underscore] (fieldValue (expression n))
      (fun m (_ : ι) => fieldValue (expression m)) file c :=
  .located (.expect (l := 1) hc (by decide) fun _ _ _ hc => .expect (l := 1) hc (by decide) fun _ _ _ hc =>
    (h.mends hc).last (fun _ => .pure _) fun _ _ _ => .pure _)

theorem recordRest_mends (hc : TokenStream c.remaining) (name : Token) (start : Int) :
    Mends n 1 (.element .expression) [.underscore, .rbrace] (recordRest (expression n) name start)
      (fun m (x : Token × Int) => recordRest (expression m) x.1 x.2) file c := by
  have hcl := closes_rbrace .expression
  refine .bind (v := [.underscore]) (i := 1) hc (h.mends hc) (fun value c' hc' => ?_) (.inl (Nat.le_refl 1))
    (fun R _ => .cons rfl (by decide)) fun _ => respects_of_shy fun m _ x value file d _ ho b d' hrun => ?_
  · refine Mends.congr (afterItem_mends (K := fun (_ : Unit) x _ => pure (.record x.1)) hcl
      (fun _ _ hc => (fieldValue_mends h hc).viable) (fun m _ _ => fieldValue_shortens m)
      (fun _ _ => .pure _) (fun _ _ _ => .pure _) hc' _) rfl fun m _ x file d _ =>
        ⟨((), ⟨x.1.1.text, x.2, ⟨file, x.1.2, d.lastEnd⟩⟩), rfl⟩
  · exact absurd hrun (afterItem_ne_done hcl ho)

theorem record_viable (hc : TokenStream c.remaining) (ho : opensRecord c.lexemes = true) :
    Viable n 3 (.element .expression) (closing (suffix (expression n)))
      (fun m (_ : Unit) => closing (suffix (expression m))) file c := by
  obtain ⟨hbrace, hname, hassign⟩ := Cursor.opensRecord_iff.1 ho
  have hne : c.current.kind ≠ .eof := by simp [hbrace]
  have hne' : c.advance.current.kind ≠ .eof := by simp [hname]
  have hne'' : c.advance.advance.current.kind ≠ .eof := by simp [hassign]
  have hc' := (hc.advance hne).1
  have hc'' := (hc'.advance hne').1
  have hts := (hc.ended'.consumes_advance hne).trans
    ((hc'.ended'.consumes_advance hne').trans (hc''.ended'.consumes_advance hne''))
  refine (recordRest_mends h (hc''.advance hne'').1 c.advance.current c.advance.current.span.start).closing.skip
    hc hts (closing_congr (suffix_of_opensRecord n hc.ended' ho)) fun m _ _ file d us d₁ hd hus hlex => ?_
  obtain ⟨u, us, rfl, hu, hlex⟩ := List.map_eq_cons_iff.1 hlex
  obtain ⟨v, us, rfl, hv, hlex⟩ := List.map_eq_cons_iff.1 hlex
  obtain ⟨x, rfl, hx⟩ := List.map_eq_singleton_iff.1 hlex
  obtain ⟨rfl, hus₁⟩ := hus.tail
  obtain ⟨rfl, hus₂⟩ := hus₁.tail
  obtain ⟨rfl, -⟩ := hus₂.tail
  rw [← hus₂.advance_eq]
  refine ⟨(d.advance.current, d.advance.current.span.start), closing_congr (suffix_of_opensRecord m hd ?_)⟩
  exact Cursor.opensRecord_iff.2 ⟨(congrArg Prod.fst hu).trans hbrace,
    (congrArg Prod.fst hv).trans hname, (congrArg Prod.fst hx).trans hassign⟩

theorem suffix_items : Items n (.element .expression) startsSuffix
    fun m => closing (suffix (expression m)) where
  viable file c hc hs := by
    have hs' := hs
    rw [startsSuffix_eq, Bool.or_eq_true] at hs'
    obtain hdot | ho := hs'
    · have hk := Cursor.kind_of_isAt hdot
      refine ⟨1, by decide, by decide, fun d ha => ?_, field_viable hc hk⟩
      simp [startsSuffix, Cursor.isAt, kind_of_agree ha (by decide), hk]
    · refine ⟨3, by decide, by decide, fun d ha => ?_, record_viable h hc ho⟩
      rw [startsSuffix_eq, ← opensRecord_of_agree ha (by decide), ho, Bool.or_true]
  shortens m file c hc hs := (suffix_steady (expression_self m) hc hs).closing.shortens hc

end

theorem lbrace_of_startsSuffix (c : Cursor) (hs : startsSuffix c = true)
    (hk : c.current.kind = .lbrace) : opensRecord c.lexemes = true := by
  rw [startsSuffix_eq] at hs
  simpa [Cursor.isAt, hk] using hs

/-! Operators, arguments and what else goes on with an expression. -/

section

variable {q : Nat → Parser (Expr Span)} {binds : TokenKind → Bool}

theorem operator_viable {o : Operator} (hc : TokenStream c.remaining) (hk : c.current.kind = o.kind) :
    Viable n 1 s operator (fun _ (_ : ι) => operator) file c := by
  have hlex : c.current.lexeme = o.lexeme := by
    rw [hc.lexeme_of_isAt hk (by cases o <;> rfl)]
    cases o <;> rfl
  have hrun : ∀ (file : String) (d : Cursor), d.current.lexeme = c.current.lexeme →
      operator file d = .done (o, d.current) d.advance := by
    intro file d hd
    rw [operator, advance_bind, show d.current.text = o.symbol from congrArg Prod.snd (hd.trans hlex),
      Operator.ofSymbol?_symbol]
    rfl
  refine .token hc ?_ (hrun file c rfl) fun m _ _ file d hd => ⟨_, hrun file d hd⟩
  rw [hk]
  cases o <;> decide

theorem operation_items (hbinds : ∀ k, binds k = true → ∃ o : Operator, k = o.kind)
    (ho : ∀ file c, TokenStream c.remaining →
      Mends n 1 (.element .expression) w (q n) (fun m (_ : Unit) => q m) file c)
    (hshort : ∀ m file c, c.Ended → (q m).Shortens file c) :
    Items n (.element .expression) (fun c => binds c.current.kind) fun m => operation (q m) := by
  refine items_of_kind (f := binds) (fun _ => rfl) (fun file c hc hk => ?_) fun m file c hc hk => ?_
  · obtain ⟨o, hko⟩ := hbinds _ hk
    have hright : ∀ (x : (Operator × Token) × (Int → Span)) (c' : Cursor), TokenStream c'.remaining →
        Mends n 1 (.element .expression) w
          (closing (q n) >>= fun y => pure (⟨x.1.1, x.1.2.span, x.2, y.1, y.2⟩ : Operation))
          (fun m (y : Unit × ((Operator × Token) × (Int → Span))) => closing (q m) >>= fun z =>
            pure (⟨y.2.1.1, y.2.1.2.span, y.2.2, z.1, z.2⟩ : Operation)) file c' := fun x c' hc' =>
      (((ho file c' hc').reindex fun _ => ()).closing).last (fun _ => .pure _) fun _ _ _ => .pure _
    have hop : Viable n 1 (.atom .expression) (closing operator) (fun _ (_ : Unit) => closing operator)
        file c := (operator_viable hc hko).last (fun _ => .bind .close fun _ => .pure _)
      fun _ _ _ => .bind .close fun _ => .pure _
    exact hop.bind hc (hright ((.add, c.current), fun _ => default) c hc).fills
      (fun x c' _ hc' => (hright x c' hc').viable) (.inl (Nat.le_refl 1))
      (fun R hR => ends_of_goesOn_eq_false (fun _ => rfl) (by simp [hR.ne_nil])) fun hk => nomatch hk
  · refine operation_shortens (hshort m file) hc fun he => ?_
    obtain ⟨o, hko⟩ := hbinds _ hk
    rw [hko] at he
    cases o <;> cases he

end

section

variable {q : Nat → Parser (Expr Span)} {binds : TokenKind → Bool}

theorem tier_mends (hbinds : ∀ k, binds k = true → ∃ o : Operator, k = o.kind)
    (ho : ∀ file c, TokenStream c.remaining →
      Mends n 1 (.element .expression) w (q n) (fun m (_ : Unit) => q m) file c)
    (hshort : ∀ m file c, c.Ended → (q m).Shortens file c) (hc : TokenStream c.remaining) :
    Mends n 1 (.element .expression) w (tier binds (q n)) (fun m (_ : ι) => tier binds (q m))
      file c := by
  refine chain_mends (scouts_of_kind (f := binds) (fun _ => rfl) fun k hk => ?_)
    (operation_items hbinds ho hshort) (fun d hk hbrace => ?_) (ho file c hc) hc
  · obtain ⟨o, rfl⟩ := hbinds k hk
    cases o <;> rfl
  · obtain ⟨o, hko⟩ := hbinds _ hk
    rw [hbrace] at hko
    cases o <;> cases hko

end

section

variable (h : Mended n (.element .expression) [.underscore] expression)

include h

theorem withSuffixes_mends {q : Nat → Parser (Expr Span)}
    (ho : Mends n 1 (.element .expression) w (q n) (fun m (_ : Unit) => q m) file c)
    (hc : TokenStream c.remaining) :
    Mends n 1 (.element .expression) w (withSuffixes (expression n) (q n))
      (fun m (_ : ι) => withSuffixes (expression m) (q m)) file c :=
  chain_mends (scouts_suffix rfl) (suffix_items h) lbrace_of_startsSuffix ho hc

theorem expressionAtom_mends (hc : TokenStream c.remaining) :
    Mends n 1 (.element .expression) [.underscore] (atom .expression (expression n))
      (fun m (_ : ι) => atom .expression (expression m)) file c :=
  atom_mends (closes_rparen .expression) h hc

theorem argument_items : Items n (.element .expression) Family.expression.startsAtom
    fun m => closing (withSuffixes (expression m) (atom .expression (expression m))) :=
  items_of_kind (f := Family.expression.startsWith) (fun _ => rfl)
    (fun _ _ hc _ => (withSuffixes_mends (q := fun m => atom .expression (expression m)) h
      (expressionAtom_mends h hc) hc).closing.viable)
    fun m file c hc _ => (withSuffixes_follows (expression_self m)
      (atom_follows (Family.expression_natural _) (expression_self m)) file c hc).closing.shortens hc

theorem application_mends (hprimary : Mends n 1 (.element .expression) w
      (primary (expression n) (pattern (n + 1)))
      (fun m (_ : Unit) => primary (expression m) (pattern (m + 1))) file c)
    (hc : TokenStream c.remaining) :
    Mends n 1 (.element .expression) w (application (expression n) (pattern (n + 1)))
      (fun m (_ : ι) => application (expression m) (pattern (m + 1))) file c := by
  refine chain_mends (q := fun m => withSuffixes (expression m) (primary (expression m) (pattern (m + 1))))
    (startsAtom_scouts fun k hk => ?_) (argument_items h)
    (fun d hs hk => absurd hk (ne_lbrace_of_startsAtom hs))
    (withSuffixes_mends (q := fun m => primary (expression m) (pattern (m + 1))) h hprimary hc) hc
  cases k <;> first | rfl | cases hk

end

/-! What opens a record opens no block and no list of clauses. -/

section

variable {d d' : Cursor}

theorem leaf_of_identifier {ε : Type} {f : Family ε} (hk : d.current.kind = .identifier) :
    leaf f file d = .done (.name d.current.text) d.advance := by
  rw [leaf, current_bind]
  simp only [hk]
  rfl

theorem atom_of_identifier {ε : Type} {f : Family ε} {p : Parser ε} (hk : d.current.kind = .identifier) :
    atom f p file d = .done (f.ofLeaf (.name d.current.text) d.current.span) d.advance := by
  rw [atom_of_ne_lparen (by simp [hk]), bind_done (leaf_of_identifier hk), pure_apply]

theorem pattern_of_identifier {m : Nat} {p : Pattern Span} (hk : d.current.kind = .identifier)
    (hrun : pattern m file d = .done p d') : d' = d.advance := by
  cases m with
  | zero => cases hrun
  | succ m =>
    rw [pattern, patternWithin, current_bind, if_neg (by simp [hk]), atom_of_identifier hk] at hrun
    cases hrun
    rfl

theorem chain_of_stop {operand : Parser (Expr Span)} {starts : Cursor → Bool} {item : Parser β}
    {build : Int → Expr Span → β → Expr Span} {e : Expr Span}
    (hrun : operand file d = .done e d') (hs : starts d' = false) :
    chain operand starts item build file d = .done e d' := by
  rw [chain, start_bind, bind_done hrun, bind_done (many_of_stop hs)]
  rfl

theorem expression_of_identifier {m : Nat} {e : Expr Span} (hd : d.Ended)
    (hk : d.current.kind = .identifier) (hassign : d.advance.current.kind = .assign)
    (hrun : expression m file d = .done e d') : d' = d.advance := by
  cases m with
  | zero => cases hrun
  | succ m =>
    have hprimary : primary (expression m) (pattern (m + 1)) file d =
        .done (.leaf (.name d.current.text) d.current.span) d.advance := by
      rw [primary, current_bind]
      simp only [hk]
      rw [test_bind, if_pos (by simp [Family.startsAtom, hk]), atom_of_identifier hk]
      rfl
    have hoperand : withSuffixes (expression m) (primary (expression m) (pattern (m + 1))) file d = _ :=
      chain_of_stop hprimary (by simp [startsSuffix, startsRecord, Cursor.isAt, hassign])
    have happ : application (expression m) (pattern (m + 1)) file d = _ :=
      chain_of_stop hoperand (by simp [Family.startsAtom, hassign])
    have hterm : tier TokenKind.isMultiplicative (application (expression m) (pattern (m + 1))) file d = _ :=
      chain_of_stop happ (by rw [hassign]; rfl)
    have htier : tier TokenKind.isAdditive (tier TokenKind.isMultiplicative
        (application (expression m) (pattern (m + 1)))) file d = _ :=
      chain_of_stop hterm (by rw [hassign]; rfl)
    rw [expression, expressionWithin, start_bind, bind_done
      ((climb_eq_tiers (fun _ hc => application_shortens m hc) hd).trans htier), test_bind,
      if_neg (by simp [Cursor.isAt, hassign]), pure_apply] at hrun
    cases hrun
    rfl

theorem clause_ne_done {m j : Nat} {x : Clause Span} (hk : d.current.kind = .identifier)
    (hassign : d.advance.current.kind = .assign) :
    clause (expression m) (pattern (m + j)) file d ≠ .done x d' := by
  intro hrun
  obtain ⟨build, hrun, -⟩ := located_eq_done.1 hrun
  obtain ⟨p, d₁, hp, hrun⟩ := bind_eq_done.1 hrun
  obtain rfl := pattern_of_identifier hk hp
  obtain ⟨_, _, harrow, -⟩ := bind_eq_done.1 hrun
  exact absurd ((expect_eq_done.1 harrow).1.symm.trans hassign) (by decide)

theorem statement_of_identifier {m j : Nat} {x : Statement Span} (hd : d.Ended)
    (hk : d.current.kind = .identifier) (hassign : d.advance.current.kind = .assign)
    (hrun : statement (expression m) (pattern (m + j)) file d = .done x d') : d' = d.advance := by
  obtain ⟨build, hrun, -⟩ := located_eq_done.1 hrun
  rw [test_bind, if_neg (by simp [Cursor.isAt, hk])] at hrun
  obtain ⟨e, d₁, he, hrun⟩ := bind_eq_done.1 hrun
  obtain ⟨-, rfl⟩ := pure_eq_done.1 hrun
  exact expression_of_identifier hd hk hassign he

end

/-! Blocks and lists of clauses. -/

theorem clause_shortens (m j : Nat) (hc : c.Ended) :
    (clause (expression m) (pattern (m + j))).Shortens file c :=
  (clause_steady (expression_self m) (pattern_self (m + j))).shortens hc

theorem statement_shortens (m j : Nat) (hc : c.Ended) :
    (statement (expression m) (pattern (m + j))).Shortens file c :=
  (statement_follows (expression_self m) (pattern_self (m + j))).shortens hc

def clauses (inner : Parser (Expr Span)) (pat : Parser (Pattern Span))
    (k : List (Clause Span) × Bool → Token → Parser β) : Parser β := do
  let _ ← expect .expression .lbrace
  closedList .expression .lbrace .rbrace (clause inner pat) k

theorem clauses_ne_done {m j : Nat} {k : List (Clause Span) × Bool → Token → Parser β} {b : β}
    {d d' : Cursor} (hd : d.Ended) (ho : opensRecord d.lexemes = true) :
    clauses (expression m) (pattern (m + j)) k file d ≠ .done b d' := by
  obtain ⟨hbrace, hname, hassign⟩ := Cursor.opensRecord_iff.1 ho
  rw [clauses, Mends.bind_expect_of_eq hbrace, advance_bind,
    closedList_of_not_listEnds (fun _ hc _ => clause_shortens m j hc) (hd.advance (by simp [hbrace]))
      (by simp [listEnds, Cursor.isAt, hname])]
  intro hrun
  obtain ⟨x, d₁, hx, -⟩ := bind_eq_done.1 hrun
  exact clause_ne_done hname hassign hx

/-- What stands behind the opening brace of a block. -/
def blockRest (inner : Parser (Expr Span)) (pat : Parser (Pattern Span)) :
    Parser (Span → Expr Span) := do
  if ← test (·.isAt .eof) then reject .expression (.unclosed .lbrace .rbrace)
  else if ← test (·.isAt .rbrace) then
    let _ ← advance
    return emptyBlock
  else closedStatements inner pat fun ss _ => pure (.block ss)

theorem block_ne_done {m j : Nat} {e : Expr Span} {d d' : Cursor} (hd : d.Ended)
    (ho : opensRecord d.lexemes = true) :
    block (expression m) (pattern (m + j)) file d ≠ .done e d' := by
  obtain ⟨hbrace, hname, hassign⟩ := Cursor.opensRecord_iff.1 ho
  have hd' := hd.advance (by simp [hbrace])
  intro hrun
  obtain ⟨build, hrun, -⟩ := located_eq_done.1 hrun
  rw [Mends.bind_expect_of_eq hbrace, advance_bind, test_bind, if_neg (by simp [Cursor.isAt, hname]),
    test_bind, if_neg (by simp [Cursor.isAt, hname])] at hrun
  change closedStatements _ _ _ file d.advance = .done build d' at hrun
  rw [closedStatements_eq (fun _ hc => statement_shortens m j hc) hd'] at hrun
  obtain ⟨x, d₁, hx, hrun⟩ := bind_eq_done.1 hrun
  obtain rfl := statement_of_identifier hd' hname hassign hx
  rw [afterStatement, test_bind, if_neg (by simp [Cursor.isAt, hassign])] at hrun
  obtain ⟨_, _, hclose, -⟩ := bind_eq_done.1 hrun
  exact absurd ((expectClosing_eq_done.1 hclose).1.symm.trans hassign) (by decide)

section

variable (h : Mended n (.element .expression) [.underscore] expression)

include h

theorem clause_mends (hc : TokenStream c.remaining) :
    Mends n 1 (.element .expression) [.underscore, .fatArrow, .underscore]
      (clause (expression n) (pattern (n + j))) (fun m (_ : ι) => clause (expression m) (pattern (m + j)))
      file c :=
  .located (.bind (v := [.underscore]) (i := 1) hc ((patterns_mended n j).mends hc)
    (fun _ _ hc => .expect (l := 1) hc (by decide) fun _ _ _ hc =>
      (h.mends hc).last (fun _ => .pure _) fun _ _ _ => .pure _)
    (.inl (Nat.le_refl 1)) (fun R _ => .cons rfl (by decide)) fun hk => nomatch hk)

theorem clauses_mends {k : List (Clause Span) × Bool → Token → Parser β}
    {K : ι → List (Clause Span) × Bool → Token → Parser γ} (hk : ∀ x t, (k x t).Quiet)
    (hK : ∀ i x t, (K i x t).Quiet) (hc : TokenStream c.remaining) :
    Mends n 1 s [.lbrace, .rbrace] (clauses (expression n) (pattern (n + j)) k)
      (fun m i => clauses (expression m) (pattern (m + j)) (K i)) file c := by
  have hcl := closes_rbrace .expression
  exact .expect (l := 1) hc (by decide) fun _ _ _ hc => closedList_mends hcl
    (fun _ _ hc => (clause_mends h hc).viable) (fun m _ _ => clause_shortens m j) hk (fun x => hK x.1) hc

theorem caseOf_mends (hc : TokenStream c.remaining) (hk : c.current.kind = .kwMatch) :
    Mends n 1 (.element .expression) [.kwMatch, .underscore, .lbrace, .rbrace]
      (caseOf (expression n) (pattern (n + j))) (fun m (_ : ι) => caseOf (expression m) (pattern (m + j)))
      file c := by
  refine .located (.advance (l := 1) hc (by decide) hk fun _ _ c' hc' => ?_)
  refine .bind (v := [.underscore]) (i := 1) hc' (h.mends hc') (fun e _ hc => ?_) (.inl (Nat.le_refl 1))
    (fun R _ => .brace rfl fun hk => nomatch hk) fun _ => respects_of_shy ?_
  · exact clauses_mends h (fun _ _ => .pure _) (fun _ _ _ => .pure _) hc
  · exact fun m _ x e file d hd ho b d' hrun => absurd hrun (clauses_ne_done hd ho)

theorem lambda_mends (hc : TokenStream c.remaining) (hk : c.current.kind = .pipe) :
    Mends n 1 (.element .expression) [.pipe, .identifier, .pipe, .underscore] (lambda (expression n))
      (fun m (_ : ι) => lambda (expression m)) file c :=
  .located (.advance (l := 1) hc (by decide) hk fun _ _ _ hc => .expect (l := 1) hc (by decide)
    fun _ _ _ hc => .expect (l := 1) hc (by decide) fun _ _ _ hc =>
      (h.mends hc).last (fun _ => .pure _) fun _ _ _ => .pure _)

theorem statement_mends (hc : TokenStream c.remaining) :
    Mends n 1 (.element .expression) [.underscore] (statement (expression n) (pattern (n + j)))
      (fun m (_ : ι) => statement (expression m) (pattern (m + j))) file c := by
  have hlet : ∀ {p : Parser (Expr Span)} {q : Parser (Pattern Span)} {file : String} {d : Cursor},
      d.current.kind = .kwLet → statement p q file d = located (do
        let _ ← advance
        let x ← q
        let _ ← expect .expression .assign
        let value ← p
        return .bind x value) file d := by
    intro p q file d hd
    rw [statement, located, located, start_bind, start_bind, bind_apply, test_bind,
      if_pos (Cursor.isAt_iff.2 hd), ← bind_apply]
  have hexpr : ∀ {p : Parser (Expr Span)} {q : Parser (Pattern Span)} {file : String} {d : Cursor},
      d.current.kind ≠ .kwLet → statement p q file d = located (do return .expr (← p)) file d := by
    intro p q file d hd
    rw [statement, located, located, start_bind, start_bind, bind_apply, test_bind,
      if_neg (by simpa [Cursor.isAt] using hd), ← bind_apply]
  have hmends : Mends n 1 (.element .expression) [.underscore]
      (located (expression n >>= fun e => pure (Statement.expr e)))
      (fun m (_ : ι) => located (expression m >>= fun e => pure (Statement.expr e))) file c :=
    .located ((h.mends hc).last (fun _ => .pure _) fun _ _ _ => .pure _)
  refine ⟨hmends.fills.branch fun m _ x file d _ hd => ⟨x, hexpr ?_⟩, ?_⟩
  · rw [show d.current.kind = .underscore from congrArg Prod.fst hd]
    decide
  by_cases hk : c.current.kind = .kwLet
  · have hbind : Mends n 1 (.element .expression) [.kwLet, .underscore, .assign, .underscore]
        (located (do
          let _ ← advance
          let x ← pattern (n + j)
          let _ ← expect .expression .assign
          let value ← expression n
          return Statement.bind x value))
        (fun m (_ : ι) => located (do
          let _ ← advance
          let x ← pattern (m + j)
          let _ ← expect .expression .assign
          let value ← expression m
          return Statement.bind x value)) file c :=
      .located (.advance (l := 1) hc (by decide) hk fun _ _ _ hc =>
        .bind (v := [.underscore]) (i := 1) hc ((patterns_mended n j).mends hc)
          (fun _ _ hc => .expect (l := 1) hc (by decide) fun _ _ _ hc =>
            (h.mends hc).last (fun _ => .pure _) fun _ _ _ => .pure _)
          (.inl (Nat.le_refl 1)) (fun R _ => .cons rfl (by decide)) fun hk => absurd hk (by decide))
    exact hbind.viable.at_kind (hlet hk) fun m x _ _ hd => ⟨x, hlet (hd.trans hk)⟩
  · exact hmends.viable.at_kind (hexpr hk) fun m x _ _ hd => ⟨x, hexpr (by rwa [hd])⟩

theorem blockRest_mends (hc : TokenStream c.remaining) :
    Mends n 1 s [.rbrace] (blockRest (expression n) (pattern (n + j)))
      (fun m (_ : ι) => blockRest (expression m) (pattern (m + j))) file c := by
  have hempty : ∀ {p : Parser (Expr Span)} {q : Parser (Pattern Span)} {file : String} {d : Cursor},
      d.current.kind = .rbrace → blockRest p q file d = .done emptyBlock d.advance := by
    intro p q file d hd
    rw [blockRest, test_bind, if_neg (by simp [Cursor.isAt, hd]), test_bind,
      if_pos (Cursor.isAt_iff.2 hd), advance_bind, pure_apply]
  have hnone : Fills n s [] fun _ (_ : ι) => (pure emptyBlock : Parser (Span → Expr Span)) :=
    .quiet fun _ _ => .pure _
  refine ⟨hnone.step (by decide) fun m _ x file d _ hd => ⟨x, hempty (congrArg Prod.fst hd)⟩, ?_⟩
  by_cases heof : c.current.kind = .eof
  · have hopen : ∀ {p : Parser (Expr Span)} {q : Parser (Pattern Span)} {file : String} {d : Cursor},
        d.current.kind = .eof → blockRest p q file d =
          .failed (.rejected ⟨.unclosed .lbrace .rbrace, .expression, d.current.span⟩) d := by
      intro p q file d hd
      rw [blockRest, test_bind, if_pos (Cursor.isAt_iff.2 hd)]
      rfl
    exact .refuse (hopen heof) rfl fun m _ _ file d _ ha =>
      ⟨_, d, hopen ((kind_of_agree ha (by decide)).trans heof), rfl, rfl⟩
  by_cases hk : c.current.kind = .rbrace
  · exact .token hc heof (hempty hk) fun m _ x file d hd =>
      ⟨_, hempty ((congrArg Prod.fst hd).trans hk)⟩
  · have hmore : ∀ {p : Parser (Expr Span)} {q : Parser (Pattern Span)} {file : String} {d : Cursor},
        d.current.kind = c.current.kind → blockRest p q file d =
          closedStatements p q (fun ss _ => pure (.block ss)) file d := by
      intro p q file d hd
      rw [blockRest, test_bind, if_neg (by simpa [Cursor.isAt, hd] using heof), test_bind,
        if_neg (by simpa [Cursor.isAt, hd] using hk)]
    have hitem : ∀ file c, TokenStream c.remaining →
        Viable n 1 (.element .expression) (statement (expression n) (pattern (n + j)))
          (fun m (_ : Unit) => statement (expression m) (pattern (m + j))) file c :=
      fun _ _ hc => (statement_mends h hc).viable
    exact (closedStatements_viable (K := fun (_ : ι) ss _ => pure (.block ss))
      (fun ss _ => .pure (Expr.block ss)) (fun _ _ _ => .pure _) rfl hitem
      (fun m _ _ => statement_shortens m j) hc).at_kind (hmore rfl) fun m x _ _ hd => ⟨x, hmore hd⟩

theorem block_mends (hc : TokenStream c.remaining) :
    Mends n 1 s [.lbrace, .rbrace] (block (expression n) (pattern (n + j)))
      (fun m (_ : ι) => block (expression m) (pattern (m + j))) file c :=
  .located (.expect (l := 1) hc (by decide) fun _ _ _ hc => blockRest_mends h hc)

theorem ifLet_mends (hc : TokenStream c.remaining) (hk : c.current.kind = .kwIf) :
    Mends n 1 (.element .expression)
      [.kwIf, .kwLet, .underscore, .assign, .underscore, .lbrace, .rbrace, .kwElse, .lbrace, .rbrace]
      (ifLet (expression n) (pattern (n + j))) (fun m (_ : ι) => ifLet (expression m) (pattern (m + j)))
      file c := by
  refine .located (.advance (l := 1) hc (by decide) hk fun _ _ _ hc => .expect (l := 1) hc (by decide)
    fun _ _ _ hc => .bind (v := [.underscore]) (i := 1) hc ((patterns_mended n j).mends hc)
      (fun _ _ hc => .expect (l := 1) hc (by decide) fun _ _ _ hc => ?_)
      (.inl (Nat.le_refl 1)) (fun R _ => .cons rfl (by decide)) fun hk => nomatch hk)
  refine .bind (v := [.underscore]) (i := 1) hc (h.mends hc) (fun _ _ hc => ?_) (.inl (Nat.le_refl 1))
    (fun R _ => .brace rfl fun hk => nomatch hk) fun _ => respects_of_shy ?_
  · refine .bind (v := [.lbrace, .rbrace]) (t := .block) (i := 1) hc (block_mends h hc) (fun _ _ hc => ?_)
      (.inl (Nat.le_refl 1)) (fun R _ => .cons rfl (by decide)) fun hk => nomatch hk
    exact .expect (l := 1) hc (by decide) fun _ _ _ hc =>
      (block_mends h hc).last (fun _ => .pure _) fun _ _ _ => .pure _
  · intro m _ x _ file d hd ho b d' hrun
    obtain ⟨t, d₁, ht, -⟩ := bind_eq_done.1 hrun
    exact absurd ht (block_ne_done hd ho)

omit h in
theorem primary_of_atom {p : Parser (Expr Span)} {q : Parser (Pattern Span)} {d : Cursor}
    (hs : Family.expression.startsAtom d = true) :
    primary p q file d = atom .expression p file d := by
  rw [primary, current_bind]
  have hs' := hs
  rw [Family.startsAtom] at hs'
  cases hk : d.current.kind <;> simp only [hk] at hs' ⊢ <;> first
    | rw [test_bind, if_pos hs]
    | contradiction

theorem primary_mends (hc : TokenStream c.remaining) :
    Mends n 1 (.element .expression) [.underscore] (primary (expression n) (pattern (n + j)))
      (fun m (_ : ι) => primary (expression m) (pattern (m + j))) file c := by
  refine ⟨fills_of_atom (f := .expression) fun m _ _ file d hd => ⟨expression m, primary_of_atom ?_⟩, ?_⟩
  · simp [Family.startsAtom, hd]
  cases hs : Family.expression.startsAtom c with
  | true =>
    refine (expressionAtom_mends h hc).viable.at_kind (primary_of_atom hs) fun m x file d hd =>
      ⟨x, primary_of_atom ?_⟩
    rwa [Family.startsAtom, hd]
  | false =>
    have hs' : ∀ d : Cursor, d.current.kind = c.current.kind →
        Family.expression.startsAtom d = false := fun d hd => by rwa [Family.startsAtom, hd]
    cases hk : c.current.kind with
    | pipe =>
      have hrun : ∀ p q file (d : Cursor), d.current.kind = .pipe →
          primary p q file d = lambda p file d := fun p q file d hd => by
        rw [primary, current_bind, hd]
      exact (lambda_mends h hc hk).viable.at_kind (hrun _ _ _ _ hk)
        fun m x _ _ hd => ⟨x, hrun _ _ _ _ (hd.trans hk)⟩
    | kwIf =>
      have hrun : ∀ p q file (d : Cursor), d.current.kind = .kwIf →
          primary p q file d = ifLet p q file d := fun p q file d hd => by
        rw [primary, current_bind, hd]
      exact (ifLet_mends h hc hk).viable.at_kind (hrun _ _ _ _ hk)
        fun m x _ _ hd => ⟨x, hrun _ _ _ _ (hd.trans hk)⟩
    | kwMatch =>
      have hrun : ∀ p q file (d : Cursor), d.current.kind = .kwMatch →
          primary p q file d = caseOf p q file d := fun p q file d hd => by
        rw [primary, current_bind, hd]
      exact (caseOf_mends h hc hk).viable.at_kind (hrun _ _ _ _ hk)
        fun m x _ _ hd => ⟨x, hrun _ _ _ _ (hd.trans hk)⟩
    | lbrace =>
      have hrun : ∀ p q file (d : Cursor), d.current.kind = .lbrace →
          primary p q file d = block p q file d := fun p q file d hd => by
        rw [primary, current_bind, hd]
      exact (block_mends h hc).viable.at_kind (hrun _ _ _ _ hk)
        fun m x _ _ hd => ⟨x, hrun _ _ _ _ (hd.trans hk)⟩
    | _ =>
      have hrun : ∀ p q file (d : Cursor), d.current.kind = c.current.kind →
          primary p q file d = unexpected .expression (.category .expression) file d :=
        fun p q file d hd => by
          rw [primary, current_bind, hd, hk]
          simp only
          rw [test_bind, if_neg (by simp [hs' d hd])]
      exact .unexpected (hrun _ _ _ _ rfl) fun m _ x file d _ hd _ => hrun _ _ _ _ hd

theorem operations_mends (hc : TokenStream c.remaining) :
    Mends n 1 (.element .expression) [.underscore]
      (operations (application (expression n) (pattern (n + 1))))
      (fun m (_ : ι) => operations (application (expression m) (pattern (m + 1)))) file c := by
  have happ : ∀ file c, TokenStream c.remaining → Mends n 1 (.element .expression) [.underscore]
      (application (expression n) (pattern (n + 1)))
      (fun m (_ : Unit) => application (expression m) (pattern (m + 1))) file c :=
    fun _ _ hc => application_mends h (primary_mends h hc) hc
  have hmul : ∀ k, TokenKind.isMultiplicative k = true → ∃ o : Operator, k = o.kind := fun k hk =>
    (operator_of_isMultiplicative k hk).imp fun _ h => h.1
  have hadd : ∀ k, TokenKind.isAdditive k = true → ∃ o : Operator, k = o.kind := fun k hk =>
    (operator_of_isAdditive k hk).imp fun _ h => h.1
  have happ' : ∀ m file c, c.Ended → (application (expression m) (pattern (m + 1))).Shortens file c :=
    fun m _ _ hc => application_shortens m hc
  exact tier_mends (q := fun m => tier TokenKind.isMultiplicative (application (expression m) (pattern (m + 1))))
    hadd (fun _ _ hc => tier_mends (q := fun m => application (expression m) (pattern (m + 1))) hmul happ
      happ' hc) (fun m file c hc e d hrun => (tier_stops rfl (happ' m file) hc hrun).2) hc

end

/-- What may stand behind an expression: a colon and its type. -/
def ascription (type : Parser (Ty Span)) (start : Int) (e : Expr Span) : Parser (Expr Span) := do
  if ← test (·.isAt .colon) then
    let _ ← advance
    let t ← type
    return .ascribe e t (← spanFrom start)
  else return e

theorem expression_succ (m : Nat) (hc : c.Ended) : expression (m + 1) file c =
    (operations (application (expression m) (pattern (m + 1))) >>=
      ascription (type (m + 1)) c.current.span.start) file c := by
  rw [expression, expressionWithin, start_bind]
  exact bind_congr (climb_eq_tiers (fun _ hc => application_shortens m hc) hc) fun _ _ _ => rfl

theorem expression_viable (h : Mended n (.element .expression) [.underscore] expression)
    (hc : TokenStream c.remaining) : Viable n 1 (.element .expression) (expression (n + 1))
      (fun m (_ : Unit) => expression (m + 1)) file c := by
  have hgoes : ∀ k, (Sym.element .type).goesOn k = true → (Sym.element .expression).goesOn k = true := by
    intro k hk
    cases k <;> first | rfl | cases hk
  have htype : ∀ (s : Int) (e : Expr Span) (c : Cursor), TokenStream c.remaining →
      Mends n 1 (.element .expression) [.underscore]
        (type (n + 1) >>= fun t => spanFrom s >>= fun sp => pure (Expr.ascribe e t sp))
        (fun m (x : Int × Expr Span) => type (m + 1) >>= fun t => spanFrom x.1 >>= fun sp =>
          pure (Expr.ascribe x.2 t sp)) file c := fun s e c hc =>
    (((type_mended (n + 1)).pred.mends hc).of_sort hgoes).last (fun _ => .bind (.spanFrom _) fun _ => .pure _)
      fun _ _ _ => .bind (.spanFrom _) fun _ => .pure _
  have hmore : Mends n 1 (.element .expression) ([TokenKind.underscore] ++ [])
      (operations (application (expression n) (pattern (n + 1))) >>=
        ascription (type (n + 1)) c.current.span.start)
      (fun m (x : Int) => operations (application (expression m) (pattern (m + 1))) >>=
        ascription (type (m + 1)) x) file c := by
    refine .bind (i := 0) hc (operations_mends h hc) (fun e c' hc' => ?_) (.inr fun _ hk => hk)
      (fun R hR => hR) fun _ => respects_of_shy fun m _ x e file d _ ho b d' hrun => ?_
    · exact .perhaps hc' (by decide) rfl (fun c'' hc'' _ => htype _ e c'' hc'')
        (htype 0 e c' hc').fills
    · have hk : d.current.kind = .lbrace := by rw [d.current_kind_eq, headKind_of_opensRecord ho]
      rw [ascription, test_bind, if_neg (by simp [Cursor.isAt, hk])] at hrun
      exact (pure_eq_done.1 hrun).2.symm
  exact hmore.viable.congr (expression_succ n hc.ended') fun m _ _ file d hd =>
    ⟨d.current.span.start, expression_succ m hd⟩

theorem expression_mended : ∀ n, Mended n (.element .expression) [.underscore] expression :=
  .of_depth rfl (element_fills .expression) (fun m _ _ hc => (expression_self m).shortens hc)
    fun _ h _ _ hc => expression_viable h hc

end Parser
end TinyFront
