import Mathlib.Data.List.Induction
import TinyFront.Proofs.Exact

/-!
Exact spans of expressions and declarations. Main statement: every expression, pattern, type and
declaration of a tree that was read has an exact span, unless no token of the text spells it.
-/
namespace TinyFront

theorem Token.map_lexeme_alone (file : String) (mid : List Token) :
    (Token.alone file mid).map Token.lexeme = mid.map Token.lexeme ++ [TokenKind.eof.lexeme] := by
  rw [Token.alone, List.map_append, List.map_map]
  rfl

theorem Page.lexeme_of_kind {file : String} {ts : List Token} {c : Cursor} {k : TokenKind}
    (h : Page file ts) (hc : c.remaining <:+ ts) (hk : c.current.kind = k)
    (hs : k.spelling?.isSome = true) : c.current.lexeme = k.lexeme := by
  subst hk
  exact (h.stream.proper _ (hc.subset (List.mem_cons_self ..))).eq_lexeme hs

namespace Parser

variable {β : Type} {file source : String} {ts : List Token} {c c' : Cursor} {d : Nat}

theorem covers_of_consumes {mid : List Token} (hlex : lex file source = .ok ts)
    (hc : c.remaining <:+ ts) (h : c.Consumes mid c') (hlen : 1 ≤ mid.length) :
    Span.Covers ⟨file, c.current.span.start, c'.lastEnd⟩ source (mid.map Token.lexeme) := by
  obtain ⟨us, rfl⟩ := hc
  rw [h.remaining] at hlex
  obtain ⟨text, hdel, htext⟩ := lex_slice hlex (List.ne_nil_of_length_pos hlen) c'.remaining_ne_nil
  rw [spanOf_of_consumes file h hlen] at hdel
  exact ⟨text, _, hdel, htext, Token.map_lexeme_alone file mid⟩

/-! Chains. -/

/-- What a link builds ends where the link does, and all of it but the root is placed if what it is
built on is. -/
def Joins (file source : String) (build : Int → Expr Span → β → Expr Span) (z : Int) (x : β) : Prop :=
  ∀ s e, (build s e x).span = ⟨file, s, z⟩ ∧
    ∀ n ∈ (build s e x).inside, n ∈ e.nodes ∨ n.Placed file source

theorem chain_settles {operand : Parser (Expr Span)} {starts : Cursor → Bool} {item : Parser β}
    {build : Int → Expr Span → β → Expr Span} (hlex : lex file source = .ok ts)
    (hstands : ∀ links, Whole.expression.Stands (chainUpTo operand starts item build links))
    (ho : ∀ c, operand.Yields (Within ts) file c fun _ => Whole.expression.Settled file source)
    (hitem : ∀ c, starts c = true → item.Yields (Within ts) file c (Joins file source build)) (c : Cursor) :
    (chain operand starts item build).Yields (Within ts) file c fun _ =>
      Whole.expression.Settled file source := by
  intro hc a c' hrun
  obtain ⟨e, c₁, he, hlinks⟩ := bind_eq_done.1 (show (operand >>= _) file c = _ from hrun)
  obtain ⟨xs, c₂, hxs, hbuild⟩ := bind_eq_done.1 hlinks
  obtain ⟨rfl, rfl⟩ := pure_eq_done.1 hbuild
  obtain ⟨hc₁, hsettled⟩ := ho c hc e c₁ he
  clear hrun hlinks hbuild
  -- by induction on the links from the last one on, each prefix of them being read alone
  rw [many] at hxs
  generalize c₁.remaining.length = m at hxs
  induction xs using List.reverseRecOn generalizing m c₂ with
  | nil => exact ⟨eq_of_manyUpTo_nil hxs ▸ hc₁, hsettled⟩
  | append_singleton xs x ih =>
    obtain ⟨d, hd, hs, hx, hall⟩ := manyUpTo_eq_done_snoc hxs
    obtain ⟨hcd, hbefore⟩ := ih d _ hd
    obtain ⟨hc₂, hjoin⟩ := hitem d hs hcd x c₂ hx
    rw [List.foldl_append, List.foldl_cons, List.foldl_nil]
    obtain ⟨hspan, hinside⟩ := hjoin c.current.span.start (xs.foldl (build c.current.span.start) e)
    refine ⟨hc₂, List.forall_mem_cons.2 ⟨.inr ?_, fun n hn => (hinside n hn).elim (hbefore n) id⟩⟩
    obtain ⟨room, halone⟩ := hstands (xs.length + 1)
    refine exact_of_alone Whole.expression hlex hc ?_ hspan (halone file c ((page_of_lex hlex).fair hc))
    rw [chainUpTo, start_bind, bind_done he, bind_done hall, List.foldl_append]
    rfl

theorem stands_chainUpTo {starts : Cursor → Bool} (operand : Nat → Parser (Expr Span))
    (item : Nat → Parser β) {build : Int → Expr Span → β → Expr Span}
    {R : Placing → β → β → Prop}
    (ho : ∀ ρ depth, Follows ρ (depth < d) (operand d) (operand depth) (Expr.map ρ.span))
    (hlinks : ∀ ρ depth file, Links ρ (depth < d) starts (item d) (item depth) build (R ρ) file)
    (hstop : ∀ c : Cursor, c.current.kind = .eof → starts c = false)
    (hlift : ∀ depth, Lifts (chain (operand depth) starts (item depth) build) (expression (depth + 1)))
    (links : Nat) : Whole.expression.Stands (chainUpTo (operand d) starts (item d) build links) :=
  Whole.stands_of_lifts (tooDeep_overflows _) hlift fun ρ depth _ _ hc =>
    chainUpTo_alone (ho ρ depth) (hlinks ρ depth) hstop links hc

/-! What reads the parts of an expression at each depth. -/

theorem lifts_application (depth : Nat) :
    Lifts (application (expression depth) (pattern (depth + 1))) (expression (depth + 1)) :=
  ((lifts_tier (by rfl)).trans (lifts_tier (by rfl))).trans (lifts_expression depth)

section

variable (ρ : Placing) (d depth : Nat)

theorem expression_follows_self :
    Follows ρ (depth < d) (expression d) (expression depth) (Expr.map ρ.span) :=
  expression_follows d depth id

theorem pattern_follows_succ :
    Follows ρ (depth < d) (pattern (d + 1)) (pattern (depth + 1)) (Pattern.map ρ.span) :=
  pattern_follows (d + 1) (depth + 1) Nat.lt_of_succ_lt_succ

theorem primary_follows_self : Follows ρ (depth < d) (primary (expression d) (pattern (d + 1)))
    (primary (expression depth) (pattern (depth + 1))) (Expr.map ρ.span) :=
  primary_follows (expression_follows_self ρ d depth) (pattern_follows_succ ρ d depth)

theorem application_follows_self :
    Follows ρ (depth < d) (application (expression d) (pattern (d + 1)))
      (application (expression depth) (pattern (depth + 1))) (Expr.map ρ.span) :=
  application_follows (expression_follows_self ρ d depth) (pattern_follows_succ ρ d depth)

theorem operation_links_self {binds : TokenKind → Bool} (hstop : ∀ k, k.isStop = true → binds k = false)
    {operand operand' : Parser (Expr Span)} {deep : Prop}
    (ho : Follows ρ deep operand operand' (Expr.map ρ.span)) (file : String) :
    Links ρ deep (fun c => binds c.current.kind) (operation operand) (operation operand')
      Operation.apply (Operation.Goes ρ) file :=
  @operation_links ρ deep _ _ (fun _ => operand) (fun _ => operand') (fun _ => rfl) hstop
    (fun _ => ho) file

end

theorem stands_block {d d' : Nat} (hd : d' ≤ d + 1) :
    Whole.expression.Stands (block (expression d) (pattern d')) :=
  Whole.stands_of_lifts (tooDeep_overflows _)
    (fun depth => (refines_block_primary.lifts.trans lifts_primary).trans (lifts_application depth))
    fun ρ depth file c hc => SteadyUpTo.alone (block_follows (expression_follows_self ρ d depth)
      (pattern_follows d' (depth + 1) fun h => by omega) file c hc) (Nat.le_refl 1)

theorem stands_primary (d : Nat) :
    Whole.expression.Stands (primary (expression d) (pattern (d + 1))) :=
  Whole.stands_of_lifts (tooDeep_overflows _)
    (fun depth => lifts_primary.trans (lifts_application depth))
    fun ρ depth file c hc => SteadyUpTo.alone (primary_follows_self ρ d depth file c hc) (Nat.le_refl 1)

theorem stands_expressionAtom (d : Nat) : Whole.expression.Stands (atom .expression (expression d)) :=
  Whole.stands_of_lifts (tooDeep_overflows _)
    (fun depth => (refines_atom_primary.lifts.trans lifts_primary).trans (lifts_application depth))
    fun ρ depth file c hc => SteadyUpTo.alone (atom_follows (Family.expression_natural ρ)
      (expression_follows_self ρ d depth) file c hc) (Nat.le_refl 1)

theorem stands_expression (d : Nat) : Whole.expression.Stands (expression d) :=
  ⟨d, fun file c hc _ depth => SteadyUpTo.alone (expression_follows_self _ d depth file c hc.ended)
    (Nat.le_refl 1)⟩

section

variable (hlex : lex file source = .ok ts)

section

variable {pattern : Parser (Pattern Span)} {inner : Parser (Expr Span)}
  (hpattern : ∀ c, pattern.Yields (Within ts) file c fun _ => Whole.pattern.Settled file source)
  (hinner : ∀ c, inner.Yields (Within ts) file c fun _ => Whole.expression.Settled file source)

include hinner

theorem fieldValue_yields (c : Cursor) : (fieldValue inner).Yields (Within ts) file c
    fun _ x => ∀ n ∈ x.nodes, n.Placed file source := by
  unfold fieldValue
  exact .located (.expect fun _ => .expect fun _ => (hinner _).bind fun e c' _ he => .pure he)

theorem suffix_joins (c : Cursor) :
    (closing (suffix inner)).Yields (Within ts) file c (Joins file source Suffix.apply) := by
  unfold suffix
  refine .closing (.advance ?_)
  split
  · exact .expect fun _ => .pure fun s e => ⟨rfl, fun n hn => .inl hn⟩
  · refine (Yields.commas (fieldValue_yields hinner)).bind fun x c' _ hx => .expectClosing (.pure ?_)
    refine fun s e => ⟨rfl, fun n hn => ?_⟩
    rcases List.mem_append.1 hn with hn | hn
    · exact .inl hn
    · rw [FieldValue.nodesAll_eq_flatMap] at hn
      obtain ⟨x, hx', hn⟩ := List.mem_flatMap.1 hn
      exact .inr (hx x hx' n hn)

theorem lambda_yields (c : Cursor) : (lambda inner).Yields (Within ts) file c
    (Whole.expression.Shaped file source c.current.span.start) := by
  unfold lambda
  exact .located (.advance (.expect fun _ => .expect fun _ => (hinner _).bind fun e c' _ he =>
    .pure ⟨.inl rfl, he⟩))

include hpattern

theorem clause_yields (c : Cursor) : (clause inner pattern).Yields (Within ts) file c
    fun _ x => ∀ n ∈ x.nodes, n.Placed file source := by
  unfold clause
  exact .located ((hpattern _).bind fun p c' _ hp => .expect fun _ => (hinner _).bind fun e c' _ he =>
    .pure (List.forall_mem_append.2 ⟨hp, he⟩))

theorem statement_yields (c : Cursor) : (statement inner pattern).Yields (Within ts) file c
    fun _ x => ∀ n ∈ x.nodes, n.Placed file source := by
  unfold statement
  refine .located (.test (fun _ => .advance ?_) fun _ => (hinner _).bind fun e c' _ he => .pure he)
  exact (hpattern _).bind fun p c' _ hp => .expect fun _ => (hinner _).bind fun e c' _ he =>
    .pure (List.forall_mem_append.2 ⟨hp, he⟩)

theorem caseOf_yields (c : Cursor) : (caseOf inner pattern).Yields (Within ts) file c
    (Whole.expression.Shaped file source c.current.span.start) := by
  unfold caseOf
  refine .located (.advance ((hinner _).bind fun e c' _ he => .expect fun _ => ?_))
  refine (Yields.commas (clause_yields hpattern hinner)).bind fun x c' _ hx => .expectClosing (.pure ?_)
  refine ⟨.inl rfl, List.forall_mem_append.2 ⟨he, fun n hn => ?_⟩⟩
  rw [Clause.nodesAll_eq_flatMap] at hn
  obtain ⟨x, hx', hn⟩ := List.mem_flatMap.1 hn
  exact hx x hx' n hn

theorem ifLet_yields
    (hblock : ∀ c, (block inner pattern).Yields (Within ts) file c fun _ => Whole.expression.Settled file source)
    (c : Cursor) : (ifLet inner pattern).Yields (Within ts) file c
      (Whole.expression.Shaped file source c.current.span.start) := by
  unfold ifLet
  refine .located (.advance (.expect fun _ => (hpattern _).bind fun p _ _ hp => .expect fun _ =>
    (hinner _).bind fun e _ _ he => (hblock _).bind fun t _ _ ht => .expect fun _ =>
      (hblock _).bind fun l _ _ hl => .pure ⟨.inl rfl, ?_⟩))
  exact List.forall_mem_append.2 ⟨List.forall_mem_append.2 ⟨List.forall_mem_append.2 ⟨hp, he⟩, ht⟩, hl⟩

include hlex

theorem block_yields (c : Cursor) : (block inner pattern).Yields (Within ts) file c
    (Whole.expression.Shaped file source c.current.span.start) := by
  unfold block
  refine .within fun hc => .located (.expect fun hopen => .test (fun _ => .reject) fun _ =>
    .test (fun hclose => .advance (.pure ⟨.inl rfl, ?_⟩)) fun _ => ?_)
  · -- the braces are all that the unit in them covers
    have hended := (page_of_lex hlex).ended hc
    have hcons : c.Consumes [c.current, c.advance.current] c.advance.advance :=
      (hended.consumes_advance (by rw [hopen]; decide)).trans
        ((hended.advance (by rw [hopen]; decide)).consumes_advance
          (by rw [Cursor.kind_of_isAt hclose]; decide))
    have hcovers := covers_of_consumes hlex hc hcons (by simp)
    rw [List.map_cons, (page_of_lex hlex).lexeme_of_kind hc hopen rfl, List.map_singleton,
      (page_of_lex hlex).lexeme_of_kind ((remaining_advance c).trans hc) (Cursor.kind_of_isAt hclose)
        rfl] at hcovers
    exact List.forall_mem_singleton.2 (.inl (.emptyBlock hcovers))
  · refine (Yields.statements (statement_yields hpattern hinner)).bind fun ss c' _ hss =>
      .expectClosing (.pure ⟨.inl rfl, fun n hn => ?_⟩)
    replace hn : n ∈ Statement.nodesAll ss := hn
    rw [Statement.nodesAll_eq_flatMap] at hn
    obtain ⟨x, hx', hn⟩ := List.mem_flatMap.1 hn
    exact hss x hx' n hn

end

variable (hinner : ∀ c, (expression d).Yields (Within ts) file c fun _ => Whole.expression.Settled file source)

include hlex hinner

theorem block_settles {d' : Nat} (hd : d' ≤ d + 1) (c : Cursor) :
    (block (expression d) (pattern d')).Yields (Within ts) file c fun _ => Whole.expression.Settled file source :=
  (stands_block hd).settles hlex (block_yields hlex (pattern_settles hlex d') hinner c)

theorem primary_settles (c : Cursor) : (primary (expression d) (pattern (d + 1))).Yields (Within ts) file c
    fun _ => Whole.expression.Settled file source := by
  have hpattern := pattern_settles hlex (d + 1)
  refine (stands_primary d).settles hlex ?_
  unfold primary
  refine .current ?_
  split
  · exact lambda_yields hinner c
  · exact ifLet_yields hpattern hinner (block_settles hlex hinner (Nat.le_refl _)) c
  · exact caseOf_yields hpattern hinner c
  · exact block_yields hlex hpattern hinner c
  · exact .test (fun _ => atom_yields expression_builds hlex hinner) fun _ => .unexpected

theorem argument_settles (c : Cursor) :
    (withSuffixes (expression d) (atom .expression (expression d))).Yields (Within ts) file c
      fun _ => Whole.expression.Settled file source :=
  chain_settles hlex
    (stands_chainUpTo (fun d => atom .expression (expression d))
      (fun d => closing (suffix (expression d)))
      (fun ρ depth => atom_follows (Family.expression_natural ρ) (expression_follows_self ρ d depth))
      (fun ρ depth => suffix_links (expression_follows_self ρ d depth)) (fun _ => startsSuffix_eof)
      fun depth => lifts_argument.trans (lifts_application depth))
    (fun _ => (stands_expressionAtom d).settles hlex (atom_yields expression_builds hlex hinner))
    (fun c _ => suffix_joins hinner c) c

theorem operand_settles (c : Cursor) :
    (withSuffixes (expression d) (primary (expression d) (pattern (d + 1)))).Yields (Within ts) file c
      fun _ => Whole.expression.Settled file source :=
  chain_settles hlex
    (stands_chainUpTo (fun d => primary (expression d) (pattern (d + 1)))
      (fun d => closing (suffix (expression d))) (fun ρ depth => primary_follows_self ρ d depth)
      (fun ρ depth => suffix_links (expression_follows_self ρ d depth)) (fun _ => startsSuffix_eof)
      fun depth => lifts_operand.trans (lifts_application depth))
    (primary_settles hlex hinner) (fun c _ => suffix_joins hinner c) c

theorem argument_joins (c : Cursor) :
    (closing (withSuffixes (expression d) (atom .expression (expression d)))).Yields (Within ts) file c
      (Joins file source Argument.apply) := by
  refine .closing ((argument_settles hlex hinner c).mono fun z a ha s e => ⟨rfl, fun n hn => ?_⟩)
  exact (List.mem_append.1 hn).imp_right (ha n)

theorem application_settles (c : Cursor) :
    (application (expression d) (pattern (d + 1))).Yields (Within ts) file c
      fun _ => Whole.expression.Settled file source :=
  chain_settles hlex
    (stands_chainUpTo
      (fun d => withSuffixes (expression d) (primary (expression d) (pattern (d + 1))))
      (fun d => closing (withSuffixes (expression d) (atom .expression (expression d))))
      (fun ρ depth => withSuffixes_follows (expression_follows_self ρ d depth)
        (primary_follows_self ρ d depth))
      (fun ρ depth => argument_links (expression_follows_self ρ d depth)) (fun _ => startsAtom_eof)
      lifts_application)
    (operand_settles hlex hinner) (fun c _ => argument_joins hlex hinner c) c

omit hinner in
/-- What an operator builds is placed but for its root, the operator and its application to the left
operand being spelled by no token. -/
theorem operation_joins {operand : Parser (Expr Span)} {binds : TokenKind → Bool} {tight : Bool}
    (hbinds : ∀ k, binds k = true → ∃ o : Operator, k = o.kind ∧ o.isAdditive = tight)
    (ho : ∀ c, operand.Yields (Within ts) file c fun _ => Whole.expression.Settled file source)
    (hk : binds c.current.kind = true) :
    (operation operand).Yields (Within ts) file c (Joins file source Operation.apply) := by
  intro hc x c' hrun
  obtain ⟨hsymbol, hspan, -, hoperand, hclose⟩ := operation_eq_done hrun
  obtain ⟨hc', hsettled⟩ := ho _ ((remaining_advance c).trans hc) _ _ hoperand
  refine ⟨hc', fun s e => ⟨by rw [Operation.apply, hclose]; rfl, fun n hn => ?_⟩⟩
  obtain ⟨o, hko, -⟩ := hbinds _ hk
  have hpage := page_of_lex hlex
  have hlexeme : c.current.lexeme = o.lexeme := by
    rw [hpage.lexeme_of_kind hc hko (by cases o <;> rfl)]
    cases o <;> rfl
  have hxo : x.operator = o := by
    have htext : c.current.text = o.symbol := congrArg Prod.snd hlexeme
    rw [htext, Operator.ofSymbol?_symbol] at hsymbol
    exact (Option.some.inj hsymbol).symm
  have hcovers : x.operatorSpan.Covers source [x.operator.lexeme] := by
    have hne : c.current.kind ≠ .eof := by rw [hko]; cases o <;> decide
    have h := covers_of_consumes hlex hc ((hpage.ended hc).consumes_advance hne) (by simp)
    rw [List.map_singleton, hlexeme, c.advance_lastEnd, ← (hpage.fair hc).file] at h
    rwa [hspan, hxo]
  rcases List.mem_append.1 hn with hn | hn
  · rcases List.mem_cons.1 hn with rfl | hn
    · exact .inr (.inl (.applied x.operator hcovers))
    · rcases List.mem_cons.1 hn with rfl | hn
      · exact .inr (.inl (.operator x.operator hcovers))
      · exact .inl hn
  · exact .inr (hsettled n hn)

omit hinner in
theorem tier_settles (operand : Nat → Parser (Expr Span)) {binds : TokenKind → Bool}
    {tight : Bool} (hstop : ∀ k, k.isStop = true → binds k = false)
    (hbinds : ∀ k, binds k = true → ∃ o : Operator, k = o.kind ∧ o.isAdditive = tight)
    (ho : ∀ ρ depth, Follows ρ (depth < d) (operand d) (operand depth) (Expr.map ρ.span))
    (hlift : ∀ depth, Lifts (tier binds (operand depth)) (expression (depth + 1)))
    (h : ∀ c, (operand d).Yields (Within ts) file c fun _ => Whole.expression.Settled file source) (c : Cursor) :
    (tier binds (operand d)).Yields (Within ts) file c fun _ => Whole.expression.Settled file source :=
  chain_settles hlex
    (stands_chainUpTo operand (fun d => operation (operand d)) ho
      (fun ρ depth => operation_links_self ρ hstop (ho ρ depth))
      (fun c hc => by rw [hc]; exact hstop _ rfl) hlift)
    h (fun _ hk => operation_joins hlex hbinds h hk) c

theorem operations_settles (c : Cursor) :
    (operations (application (expression d) (pattern (d + 1)))).Yields (Within ts) file c
      fun _ => Whole.expression.Settled file source := by
  have hmul : ∀ k : TokenKind, k.isStop = true → k.isMultiplicative = false := fun k hk => by
    cases k <;> first | rfl | cases hk
  have hadd : ∀ k : TokenKind, k.isStop = true → k.isAdditive = false := fun k hk => by
    cases k <;> first | rfl | cases hk
  refine tier_settles hlex (fun d => tier TokenKind.isMultiplicative
    (application (expression d) (pattern (d + 1)))) hadd operator_of_isAdditive ?_
    lifts_expression ?_ c
  · exact fun ρ depth => chain_follows (application_follows_self ρ d depth) fun file =>
      operation_links_self ρ hmul (application_follows_self ρ d depth) file
  · exact tier_settles hlex (fun d => application (expression d) (pattern (d + 1)))
      hmul operator_of_isMultiplicative (fun ρ depth => application_follows_self ρ d depth)
      (fun depth => (lifts_tier (by rfl)).trans (lifts_expression depth))
      (application_settles hlex hinner)

theorem expressionWithin_settles (c : Cursor) :
    (expression (d + 1)).Yields (Within ts) file c fun _ => Whole.expression.Settled file source := by
  refine (stands_expression (d + 1)).settles hlex ?_
  rw [expression]
  unfold expressionWithin
  refine .within fun hc => .start (Yields.bind (P := fun _ => Whole.expression.Settled file source) ?_
    fun e c' _ he => .test (fun _ => .advance ?_) fun _ => .pure he.shaped)
  · exact .congr (climb_eq_tiers (fun c hc => application_shortens d hc) ((page_of_lex hlex).ended hc))
      (operations_settles hlex hinner c)
  · exact (type_settles hlex (d + 1) _).bind fun t c' _ ht => .spanFrom
      (.pure ⟨.inl rfl, List.forall_mem_append.2 ⟨he, ht⟩⟩)

end

theorem expression_settles (hlex : lex file source = .ok ts) (d : Nat) (c : Cursor) :
    (expression d).Yields (Within ts) file c fun _ => Whole.expression.Settled file source := by
  induction d generalizing c with
  | zero => exact .reject
  | succ d ih => exact expressionWithin_settles hlex ih c

/-! Declarations. -/

section

variable {block : Parser (Expr Span)} {pattern : Parser (Pattern Span)} {type atomic : Parser (Ty Span)}
  (hblock : ∀ c, block.Yields (Within ts) file c fun _ => Whole.expression.Settled file source)
  (hpattern : ∀ c, pattern.Yields (Within ts) file c fun _ => Whole.pattern.Settled file source)
  (htype : ∀ c, type.Yields (Within ts) file c fun _ => Whole.type.Settled file source)
  (hatomic : ∀ c, atomic.Yields (Within ts) file c fun _ => Whole.type.Settled file source)

include hpattern htype in
theorem param_yields (c : Cursor) : (param pattern type).Yields (Within ts) file c
    fun _ x => ∀ n ∈ x.nodes, n.Placed file source := by
  unfold param
  exact .located (.advance ((hpattern _).bind fun p _ _ hp => .expect fun _ =>
    (htype _).bind fun t _ _ ht => .expectClosing (.pure (List.forall_mem_append.2 ⟨hp, ht⟩))))

include htype in
theorem returnType_yields (c : Cursor) : (returnType type).Yields (Within ts) file c
    fun _ r => ∀ n ∈ r.toList.flatMap Ty.nodes, n.Placed file source := by
  unfold returnType
  refine .test (fun _ => .advance ((htype _).bind fun t _ _ ht => .pure ?_)) fun _ => .pure (by simp)
  simpa [Ty.nodes, Whole.Settled, Whole.type] using ht

include hblock hpattern htype in
theorem fnDecl_yields (c : Cursor) : (fnDecl block pattern type).Yields (Within ts) file c
    (Whole.declaration.Shaped file source c.current.span.start) := by
  unfold fnDecl
  refine .located (.advance (.expect fun _ => ?_))
  refine (Yields.many fun c _ => param_yields hpattern htype c).bind fun ps _ _ hps =>
    (returnType_yields htype _).bind fun r _ _ hr => (hblock _).bind fun b _ _ hb => .pure ⟨.inl rfl, ?_⟩
  exact List.forall_mem_append.2 ⟨List.forall_mem_append.2 ⟨List.forall_mem_flatMap.2 hps, hr⟩, hb⟩

include hatomic in
theorem variant_yields (c : Cursor) : (variant atomic).Yields (Within ts) file c
    fun _ x => ∀ n ∈ x.nodes, n.Placed file source := by
  unfold variant
  exact .located (.expect fun _ => (Yields.many fun c _ => hatomic c).bind fun as _ _ has =>
    .pure (List.forall_mem_flatMap.2 has))

include htype in
theorem field_yields (c : Cursor) : (field type).Yields (Within ts) file c
    fun _ x => ∀ n ∈ x.nodes, n.Placed file source := by
  unfold field
  exact .located (.expect fun _ => .expect fun _ => (htype _).bind fun t _ _ ht => .pure ht)

include htype hatomic in
theorem typeBody_yields (name : String) (c : Cursor) : (typeBody type atomic name).Yields (Within ts) file c
    fun _ b => ∀ n ∈ b.nodes, n.Placed file source := by
  unfold typeBody sum product
  refine .test (fun _ => ?_) fun _ => .test (fun _ => .advance ?_) fun _ => .reject
  · exact (Yields.many fun c _ => .advance (variant_yields hatomic _)).bind fun vs _ _ hvs =>
      .pure (List.forall_mem_flatMap.2 hvs)
  · exact (Yields.commas (field_yields htype)).bind fun x _ _ hx =>
      .expectClosing (.pure (List.forall_mem_flatMap.2 hx))

include htype hatomic in
theorem typeDecl_yields (c : Cursor) : (typeDecl type atomic).Yields (Within ts) file c
    (Whole.declaration.Shaped file source c.current.span.start) := by
  unfold typeDecl
  exact .located (.advance (.expect fun _ => Yields.names.bind fun ns _ _ _ => .expect fun _ =>
    (typeBody_yields htype hatomic _ _).bind fun b _ _ hb => .pure ⟨.inl rfl, hb⟩))

end

theorem stands_declaration (d : Nat) : Whole.declaration.Stands (declaration d) :=
  ⟨d, fun file c hc _ depth => SteadyUpTo.alone (declaration_follows d depth id file c hc.ended)
    (Nat.le_refl 1)⟩

theorem declaration_settles (hlex : lex file source = .ok ts) (d : Nat) (c : Cursor) :
    (declaration d).Yields (Within ts) file c fun _ => Whole.declaration.Settled file source := by
  have hblock := block_settles hlex (expression_settles hlex d) (Nat.le_succ d)
  refine (stands_declaration d).settles hlex ?_
  rw [declaration]
  unfold declarationWithin
  refine .current ?_
  split
  · exact fnDecl_yields hblock (pattern_settles hlex d) (type_settles hlex d) c
  · exact typeDecl_yields (type_settles hlex d) (typeAtom_settles hlex (type_settles hlex d)) c
  · exact .unexpected

/-! Trees. -/

theorem tree_settles (hlex : lex file source = .ok ts) (depth : Nat) (form : Form) (c : Cursor) :
    (tree depth form).Yields (Within ts) file c fun _ t => ∀ n ∈ t.subtrees, n.Placed file source := by
  cases form with
  | program =>
    refine Yields.bind (P := fun _ p => ∀ n ∈ p.decls.flatMap Decl.nodes, n.Placed file source) ?_
      fun p c' _ hp => .pure hp
    unfold program
    refine (Yields.many fun c _ => declaration_settles hlex depth c).bind fun ds c' _ hds => ?_
    rintro hc p c'' ⟨⟩
    exact ⟨hc, List.forall_mem_flatMap.2 hds⟩
  | expression => exact (expression_settles hlex depth c).bind fun e _ _ he => atEnd_yields (.pure he)
  | pattern => exact (pattern_settles hlex depth c).bind fun p _ _ hp => atEnd_yields (.pure hp)
  | type => exact (type_settles hlex depth c).bind fun t _ _ ht => atEnd_yields (.pure ht)

end Parser

/-- The text that the span of a node reaches over is read as that node, moved to where the text
begins. Only what no token spells is exempt: the name of an infix operator, its application to the
left operand, and the unit in empty braces. -/
theorem exact_of_mem_subtrees {depth : Nat} {form : Form} {file source : String} {t : Tree Span}
    (h : (Parser.tree depth form).runSource file source = .ok t) {n : Tree Span}
    (hn : n ∈ t.subtrees) : n.Synthetic source ∨ n.Exact file source := by
  obtain ⟨ts, hlex, hrun⟩ := Parser.runSource_eq_ok.1 h
  obtain ⟨file', c, hfile, hc, -, heq⟩ := Parser.run_eq (Parser.tree depth form) (some file) (lex_ne_nil hlex)
  obtain rfl := hfile file rfl
  rw [heq] at hrun
  cases hdone : Parser.tree depth form file c with
  | failed e c' =>
    rw [hdone] at hrun
    cases hrun
  | done u c' =>
    rw [hdone] at hrun
    obtain rfl := Except.ok.inj hrun
    exact (Parser.tree_settles hlex depth form c (hc ▸ List.suffix_refl _) u c' hdone).2 n hn

theorem exact_of_difference : ∃ e, (Parser.tree 2 .expression).runSource "a" "(f x) - y" =
    .ok (.expression e) ∧
      ((Tree.expression e).Synthetic "(f x) - y" ∨ (Tree.expression e).Exact "a" "(f x) - y") := by
  obtain ⟨t, h⟩ : ∃ t, (Parser.tree 2 .expression).runSource "a" "(f x) - y" = .ok t :=
    exists_of_isOk (by decide +kernel)
  have hform := (wellFormed_of_runSource h).1
  cases t with
  | expression e => exact ⟨e, h, exact_of_mem_subtrees h (List.mem_cons_self ..)⟩
  | _ => cases hform

end TinyFront
