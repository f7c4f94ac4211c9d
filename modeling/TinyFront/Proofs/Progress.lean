import TinyFront.Proofs.Tandem
import TinyFront.Proofs.Tiers

/-!
Progress. Each reader calls the readers of what nests in it only where it has consumed something, so
readers that agree wherever fewer than `n` tokens are left make readers that agree wherever one more is
left. Main statement: from every cursor in front of an end marker each call comes to an end, in front
of the next end marker or at it, and each round of a loop and each cycle of calls consumes a token.
-/
namespace TinyFront
namespace Parser

variable {α β : Type} {deep : Prop} {m n : Nat} {file : String} {c : Cursor}

/-- The parsers do the same wherever fewer than `n` tokens are left, and consume one if they succeed. -/
def TandemBelow (deep : Prop) (n : Nat) (p q : Parser α) (file : String) : Prop :=
  ∀ c, c.Ended → c.remaining.length < n → Tandem deep 1 p q file c

theorem tandemBelow_zero (p q : Parser α) : TandemBelow deep 0 p q file :=
  fun _ _ h => absurd h (Nat.not_lt_zero _)

theorem TandemBelow.mono {p q : Parser α} (h : TandemBelow deep n p q file) (hm : m ≤ n) :
    TandemBelow deep m p q file := fun c hc hn => h c hc (Nat.lt_of_lt_of_le hn hm)

/-! Atoms, patterns and types. -/

section

variable {ε : Type} {p q : Parser ε}

theorem number_tandem (category : Category) (t : Token) :
    Tandem deep 0 (number category t) (number category t) file c :=
  .ite (fun _ => .ite (fun _ => .fail fun h => h) fun _ => .ite (fun _ => .pure) fun _ =>
    .fail fun h => by cases h) fun _ => .fail fun h => by cases h

theorem leaf_tandem (f : Family ε) (hc : c.Ended) : Tandem deep 1 (leaf f) (leaf f) file c := by
  refine .current ?_
  split
  · exact .bind hc (.advance hc (by simp_all)) fun _ _ _ _ _ => .pure
  · refine .bind hc (.advance hc (by simp_all)) fun _ d _ hd _ => ?_
    exact .bind hd (number_tandem f.category c.current) fun _ _ _ _ _ => .pure
  · exact .bind hc (.advance hc (by simp_all)) fun _ _ _ _ _ => .pure
  · exact .bind hc (.advance hc (by simp_all)) fun _ _ _ _ _ => .pure
  · refine .ite (fun _ => ?_) fun _ => .unexpected
    exact .bind hc (.advance hc (by simp_all)) fun _ _ _ _ _ => .pure
  · exact .unexpected

theorem atom_tandem (f : Family ε) (hp : TandemBelow deep n p q file) :
    TandemBelow deep (n + 1) (atom f p) (atom f q) file := by
  intro c hc hn
  refine .current (.ite (fun hk => ?_) fun _ => ?_)
  · refine .located hc (.bind hc (.advance hc (by simp [hk])) fun _ d _ hd hlt => ?_)
    refine .bind hd (.commas hd fun d' hd' hle _ => hp d' hd' (by omega)) fun _ d _ hd _ => ?_
    exact .bind hd (Tandem.expectClosing hd (by decide)).loosen fun _ _ _ _ _ => .pure
  · exact .bind hc (leaf_tandem f hc) fun _ _ _ _ _ => .pure

theorem atoms_tandem (f : Family ε) (hp : TandemBelow deep n p q file) (hc : c.Ended)
    (hn : c.remaining.length ≤ n) :
    Tandem deep 0 (many f.startsAtom (atom f p)) (many f.startsAtom (atom f q)) file c :=
  .many hc fun d hd hle _ => atom_tandem f hp d hd (by omega)

end

theorem patternWithin_tandem {p q : Parser (Pattern Span)} (hp : TandemBelow deep n p q file) :
    TandemBelow deep (n + 1) (patternWithin p) (patternWithin q) file := by
  intro c hc hn
  refine .current (.ite (fun hk => ?_) fun _ => atom_tandem _ hp c hc hn)
  refine .bind hc (.advance hc (by simp [hk])) fun _ d _ hd hlt => ?_
  exact .bind hd (atoms_tandem _ hp hd (by omega)) fun _ _ _ _ _ => .spanFrom .pure

section

variable {p q : Parser (Ty Span)}

theorem typeApplication_tandem (hp : TandemBelow deep n p q file) :
    TandemBelow deep (n + 1) (typeApplication p) (typeApplication q) file := by
  intro c hc hn
  refine .current (.ite (fun hk => ?_) fun _ => atom_tandem _ hp c hc hn)
  refine .bind hc (.advance hc (by simp [hk])) fun _ d _ hd hlt => ?_
  refine .bind hd (atoms_tandem _ hp hd (by omega)) fun _ _ _ _ _ => ?_
  exact .ite (fun _ => .pure) fun _ => .spanFrom .pure

theorem names_tandem (hc : c.Ended) :
    Tandem deep 0 (many (·.isAt .identifier) advance) (many (·.isAt .identifier) advance) file c :=
  .many hc fun _ hd _ h => .advance hd (by simp [Cursor.kind_of_isAt h])

theorem quantified_tandem (hp : TandemBelow deep n p q file) (hc : c.Ended)
    (hn : c.remaining.length < n + 1) (hk : c.current.kind ≠ .eof) :
    Tandem deep 1 (quantified p) (quantified q) file c := by
  refine .located hc (.bind hc (.advance hc hk) fun _ d _ hd hlt => ?_)
  refine .bind hd (names_tandem hd) fun _ d' _ hd' hle => ?_
  refine .bind hd' (Tandem.expect hd' (by decide)).loosen fun _ d'' _ hd'' hle' => ?_
  exact .bind hd'' (hp d'' hd'' (by omega)).loosen fun _ _ _ _ _ => .pure

theorem arrowChain_tandem (hp : TandemBelow deep n p q file) (bound : Nat) (hc : c.Ended)
    (hn : c.remaining.length < n + 1) :
    Tandem deep 1 (arrowChain p bound) (arrowChain q bound) file c := by
  induction bound generalizing c with
  | zero => exact .unexpected
  | succ bound ih =>
    refine .test (fun hk => ?_) fun _ => .start ?_
    · exact .bind hc (quantified_tandem hp hc hn (by simp [Cursor.kind_of_isAt hk]))
        fun _ _ _ _ _ => .pure
    · refine .bind hc (typeApplication_tandem hp c hc hn) fun _ d _ hd hlt => ?_
      refine .test (fun harrow => ?_) fun _ => .pure
      have hadvance : Tandem deep 1 advance advance file d :=
        .advance hd (by simp [Cursor.kind_of_isAt harrow])
      refine .bind hd hadvance fun _ d' _ hd' hlt' => ?_
      exact .bind hd' (ih hd' (by omega)).loosen fun _ _ _ _ _ => .pure

theorem typeWithin_tandem (hp : TandemBelow deep n p q file) :
    TandemBelow deep (n + 1) (typeWithin p) (typeWithin q) file := by
  intro c hc hn
  have hchain := arrowChain_tandem hp c.remaining.length hc hn
  have harrows : Tandem deep 1 (arrows p) (arrows q) file c :=
    ⟨hchain.agree, hchain.advances.done, hchain.advances.failed⟩
  exact .bind hc (.closing hc harrows) fun _ _ _ _ _ => .pure

end

/-! Expressions. -/

section

variable {p q : Parser (Expr Span)} {pp pq : Parser (Pattern Span)} {tp tq : Parser (Ty Span)}

theorem operator_tandem (hc : c.Ended) (hk : c.current.kind ≠ .eof) :
    Tandem deep 1 operator operator file c := by
  refine .bind hc (.advance hc hk) fun t d _ _ _ => ?_
  split
  · exact .pure
  · exact .fail fun h => h

theorem ne_eof_of_bindsAtLeast {power : Nat} (h : bindsAtLeast power c = true) :
    c.current.kind ≠ .eof := by
  intro hk
  simp [bindsAtLeast, hk, TokenKind.powers?] at h

theorem climbOperation_tandem {right right' : Nat → Parser (Expr Span)}
    (h : ∀ power, TandemBelow deep n (right power) (right' power) file) (hc : c.Ended)
    (hn : c.remaining.length < n + 1) (hk : c.current.kind ≠ .eof) :
    Tandem deep 1 (climbOperation right) (climbOperation right') file c := by
  refine .bind hc (.closing hc (operator_tandem hc hk)) fun x d _ hd hlt => ?_
  exact .bind hd (Tandem.closing hd (h _ d hd (by omega))).loosen fun _ _ _ _ _ => .pure

theorem climbWithin_tandem {right right' : Nat → Parser (Expr Span)}
    (hp : TandemBelow deep (n + 1) p q file)
    (h : ∀ power, TandemBelow deep n (right power) (right' power) file) (power : Nat) :
    TandemBelow deep (n + 1) (climbWithin p right power) (climbWithin q right' power) file := by
  intro c hc hn
  refine .start (.bind hc (hp c hc hn) fun _ d _ hd hlt => ?_)
  exact .bind hd (.many hd fun e he hle hs =>
    climbOperation_tandem h he (by omega) (ne_eof_of_bindsAtLeast hs)) fun _ _ _ _ _ => .pure

theorem climb_tandem (hp : TandemBelow deep n p q file) (climbs power : Nat) :
    TandemBelow deep n (climb p climbs power) (climb q climbs power) file := by
  induction climbs generalizing n power with
  | zero => exact hp
  | succ climbs ih =>
    cases n with
    | zero => exact tandemBelow_zero _ _
    | succ n => exact climbWithin_tandem hp (ih (hp.mono (Nat.le_succ n))) power

theorem fieldValue_tandem (hp : TandemBelow deep n p q file) :
    TandemBelow deep (n + 1) (fieldValue p) (fieldValue q) file := by
  intro c hc hn
  refine .located hc (.bind hc (.expect hc (by decide)) fun _ d _ hd hlt => ?_)
  refine .bind hd (Tandem.expect hd (by decide)).loosen fun _ d' _ hd' hle => ?_
  exact .bind hd' (hp d' hd' (by omega)).loosen fun _ _ _ _ _ => .pure

theorem suffix_tandem (hp : TandemBelow deep n p q file) (hc : c.Ended)
    (hn : c.remaining.length < n + 1) (hk : c.current.kind ≠ .eof) :
    Tandem deep 1 (suffix p) (suffix q) file c := by
  refine .bind hc (.advance hc hk) fun t d _ hd hlt => .ite (fun _ => ?_) fun _ => ?_
  · exact .bind hd (Tandem.expect hd (by decide)).loosen fun _ _ _ _ _ => .pure
  · refine .bind hd (.commas hd fun d' hd' hle _ => fieldValue_tandem hp d' hd' (by omega))
      fun _ d' _ hd' _ => ?_
    exact .bind hd' (Tandem.expectClosing hd' (by decide)).loosen
      fun _ _ _ _ _ => .pure

theorem ne_eof_of_startsSuffix (h : startsSuffix c = true) : c.current.kind ≠ .eof := by
  rw [startsSuffix, Bool.or_eq_true] at h
  rcases h with h | h
  · simp [Cursor.kind_of_isAt h]
  · simp [(listEnds_advance_of_startsRecord h).1]

theorem withSuffixes_tandem {operand operand' : Parser (Expr Span)}
    (hp : TandemBelow deep n p q file) (ho : TandemBelow deep (n + 1) operand operand' file) :
    TandemBelow deep (n + 1) (withSuffixes p operand) (withSuffixes q operand') file := by
  intro c hc hn
  refine .start (.bind hc (ho c hc hn) fun _ d _ hd hlt => ?_)
  exact .bind hd (.many hd fun d' hd' hle hs => .closing hd'
    (suffix_tandem hp hd' (by omega) (ne_eof_of_startsSuffix hs))) fun _ _ _ _ _ => .pure

theorem clause_tandem (hp : TandemBelow deep n p q file) (hpat : TandemBelow deep n pp pq file) :
    TandemBelow deep n (clause p pp) (clause q pq) file := by
  intro c hc hn
  refine .located hc (.bind hc (hpat c hc hn) fun _ d _ hd hlt => ?_)
  refine .bind hd (Tandem.expect hd (by decide)).loosen fun _ d' _ hd' hle => ?_
  exact .bind hd' (hp d' hd' (by omega)).loosen fun _ _ _ _ _ => .pure

theorem caseOf_tandem (hp : TandemBelow deep n p q file) (hpat : TandemBelow deep n pp pq file)
    (hc : c.Ended) (hn : c.remaining.length < n + 1) (hk : c.current.kind ≠ .eof) :
    Tandem deep 1 (caseOf p pp) (caseOf q pq) file c := by
  refine .located hc (.bind hc (.advance hc hk) fun _ d₁ _ hd₁ h₁ => ?_)
  refine .bind hd₁ (hp d₁ hd₁ (by omega)).loosen fun _ d₂ _ hd₂ h₂ => ?_
  refine .bind hd₂ (Tandem.expect hd₂ (by decide)).loosen fun _ d₃ _ hd₃ h₃ => ?_
  refine .bind hd₃ (.commas hd₃ fun d hd hle _ => clause_tandem hp hpat d hd (by omega))
    fun _ d₄ _ hd₄ _ => ?_
  exact .bind hd₄ (Tandem.expectClosing hd₄ (by decide)).loosen fun _ _ _ _ _ => .pure

theorem lambda_tandem (hp : TandemBelow deep n p q file) (hc : c.Ended)
    (hn : c.remaining.length < n + 1) (hk : c.current.kind ≠ .eof) :
    Tandem deep 1 (lambda p) (lambda q) file c := by
  refine .located hc (.bind hc (.advance hc hk) fun _ d₁ _ hd₁ h₁ => ?_)
  refine .bind hd₁ (Tandem.expect hd₁ (by decide)).loosen fun _ d₂ _ hd₂ h₂ => ?_
  refine .bind hd₂ (Tandem.expect hd₂ (by decide)).loosen fun _ d₃ _ hd₃ h₃ => ?_
  exact .bind hd₃ (hp d₃ hd₃ (by omega)).loosen fun _ _ _ _ _ => .pure

theorem statement_tandem (hp : TandemBelow deep n p q file) (hpat : TandemBelow deep n pp pq file) :
    TandemBelow deep n (statement p pp) (statement q pq) file := by
  intro c hc hn
  refine .located hc (.test (fun hk => ?_) fun _ => ?_)
  · refine .bind hc (.advance hc (by simp [Cursor.kind_of_isAt hk])) fun _ d₁ _ hd₁ h₁ => ?_
    refine .bind hd₁ (hpat d₁ hd₁ (by omega)).loosen fun _ d₂ _ hd₂ h₂ => ?_
    refine .bind hd₂ (Tandem.expect hd₂ (by decide)).loosen fun _ d₃ _ hd₃ h₃ => ?_
    exact .bind hd₃ (hp d₃ hd₃ (by omega)).loosen fun _ _ _ _ _ => .pure
  · exact .bind hc (hp c hc hn) fun _ _ _ _ _ => .pure

theorem statements_tandem (hp : TandemBelow deep n p q file) (hpat : TandemBelow deep n pp pq file)
    (hc : c.Ended) (hn : c.remaining.length < n) :
    Tandem deep 0 (statements p pp) (statements q pq) file c := by
  have hall : ∀ bound c, c.Ended → c.remaining.length < n →
      Tandem deep 0 (statementsUpTo p pp bound) (statementsUpTo q pq bound) file c := by
    intro bound
    induction bound with
    | zero => exact fun _ _ _ => .pure
    | succ bound ih =>
      intro c hc hn
      refine .bind hc (statement_tandem hp hpat c hc hn) fun s d _ hd hlt => ?_
      refine .test (fun hsemi => ?_) fun _ => .pure
      have hadvance : Tandem deep 1 advance advance file d :=
        .advance hd (by simp [Cursor.kind_of_isAt hsemi])
      refine .bind hd hadvance fun _ d' _ hd' hlt' => .test (fun _ => .pure) fun _ => ?_
      exact .bind hd' (ih d' hd' (by omega)) fun _ _ _ _ _ => .pure
  have hbounded := hall c.remaining.length c hc hn
  exact ⟨hbounded.agree, hbounded.advances.done, hbounded.advances.failed⟩

theorem block_tandem (hp : TandemBelow deep n p q file) (hpat : TandemBelow deep n pp pq file) :
    TandemBelow deep (n + 1) (block p pp) (block q pq) file := by
  intro c hc hn
  refine .located hc (.bind hc (.expect hc (by decide)) fun _ d _ hd hlt => ?_)
  refine .test (fun _ => .reject fun h => by cases h) fun _ => .test (fun hk => ?_) fun _ => ?_
  · have hadvance : Tandem deep 1 advance advance file d :=
      .advance hd (by simp [Cursor.kind_of_isAt hk])
    exact .bind hd hadvance.loosen fun _ _ _ _ _ => .pure
  · refine .bind hd (statements_tandem hp hpat hd (by omega)) fun _ d' _ hd' _ => ?_
    exact .bind hd' (Tandem.expectClosing hd' (by decide)).loosen
      fun _ _ _ _ _ => .pure

theorem ifLet_tandem (hp : TandemBelow deep n p q file) (hpat : TandemBelow deep n pp pq file)
    (hc : c.Ended) (hn : c.remaining.length < n + 1) (hk : c.current.kind ≠ .eof) :
    Tandem deep 1 (ifLet p pp) (ifLet q pq) file c := by
  have hblock := block_tandem hp hpat
  refine .located hc (.bind hc (.advance hc hk) fun _ d₁ _ hd₁ h₁ => ?_)
  refine .bind hd₁ (Tandem.expect hd₁ (by decide)).loosen fun _ d₂ _ hd₂ h₂ => ?_
  refine .bind hd₂ (hpat d₂ hd₂ (by omega)).loosen fun _ d₃ _ hd₃ h₃ => ?_
  refine .bind hd₃ (Tandem.expect hd₃ (by decide)).loosen fun _ d₄ _ hd₄ h₄ => ?_
  refine .bind hd₄ (hp d₄ hd₄ (by omega)).loosen fun _ d₅ _ hd₅ h₅ => ?_
  refine .bind hd₅ (hblock d₅ hd₅ (by omega)).loosen fun _ d₆ _ hd₆ h₆ => ?_
  refine .bind hd₆ (Tandem.expect hd₆ (by decide)).loosen fun _ d₇ _ hd₇ h₇ => ?_
  exact .bind hd₇ (hblock d₇ hd₇ (by omega)).loosen fun _ _ _ _ _ => .pure

theorem primary_tandem (hp : TandemBelow deep n p q file) (hpat : TandemBelow deep n pp pq file) :
    TandemBelow deep (n + 1) (primary p pp) (primary q pq) file := by
  intro c hc hn
  refine .current ?_
  split
  · exact lambda_tandem hp hc hn (by simp_all)
  · exact ifLet_tandem hp hpat hc hn (by simp_all)
  · exact caseOf_tandem hp hpat hc hn (by simp_all)
  · exact block_tandem hp hpat c hc hn
  · exact .test (fun _ => atom_tandem _ hp c hc hn) fun _ => .unexpected

theorem argument_tandem (hp : TandemBelow deep n p q file) :
    TandemBelow deep (n + 1) (withSuffixes p (atom .expression p))
      (withSuffixes q (atom .expression q)) file :=
  withSuffixes_tandem hp (atom_tandem _ hp)

theorem application_tandem (hp : TandemBelow deep n p q file)
    (hpat : TandemBelow deep n pp pq file) :
    TandemBelow deep (n + 1) (application p pp) (application q pq) file := by
  intro c hc hn
  refine .start (.bind hc (withSuffixes_tandem hp (primary_tandem hp hpat) c hc hn)
    fun _ d _ hd hlt => ?_)
  exact .bind hd (.many hd fun d' hd' hle _ => .closing hd' (argument_tandem hp d' hd' (by omega)))
    fun _ _ _ _ _ => .pure

theorem expressionWithin_tandem (hp : TandemBelow deep n p q file)
    (hpat : TandemBelow deep n pp pq file) (hty : TandemBelow deep n tp tq file) :
    TandemBelow deep (n + 1) (expressionWithin p pp tp) (expressionWithin q pq tq) file := by
  intro c hc hn
  refine .start (.bind hc (climb_tandem (application_tandem hp hpat) tiers 0 c hc hn)
    fun _ d _ hd hlt => ?_)
  refine .test (fun hk => ?_) fun _ => .pure
  have hadvance : Tandem deep 1 advance advance file d :=
    .advance hd (by simp [Cursor.kind_of_isAt hk])
  refine .bind hd hadvance fun _ d' _ hd' hlt' => ?_
  exact .bind hd' (hty d' hd' (by omega)).loosen fun _ _ _ _ _ => .spanFrom .pure

end

/-! Declarations. -/

section

variable {bp bq : Parser (Expr Span)} {pp pq : Parser (Pattern Span)} {tp tq ap aq : Parser (Ty Span)}

theorem param_tandem (hpat : TandemBelow deep n pp pq file) (hty : TandemBelow deep n tp tq file)
    (hc : c.Ended) (hn : c.remaining.length < n + 1) (hk : c.current.kind ≠ .eof) :
    Tandem deep 1 (param pp tp) (param pq tq) file c := by
  refine .located hc (.bind hc (.advance hc hk) fun _ d₁ _ hd₁ h₁ => ?_)
  refine .bind hd₁ (hpat d₁ hd₁ (by omega)).loosen fun _ d₂ _ hd₂ h₂ => ?_
  refine .bind hd₂ (Tandem.expect hd₂ (by decide)).loosen fun _ d₃ _ hd₃ h₃ => ?_
  refine .bind hd₃ (hty d₃ hd₃ (by omega)).loosen fun _ d₄ _ hd₄ _ => ?_
  exact .bind hd₄ (Tandem.expectClosing hd₄ (by decide)).loosen fun _ _ _ _ _ => .pure

theorem returnType_tandem (hty : TandemBelow deep n tp tq file) (hc : c.Ended)
    (hn : c.remaining.length < n + 1) : Tandem deep 0 (returnType tp) (returnType tq) file c := by
  refine .test (fun hk => ?_) fun _ => .pure
  have hadvance : Tandem deep 1 advance advance file c :=
    .advance hc (by simp [Cursor.kind_of_isAt hk])
  refine .bind hc hadvance fun _ d _ hd hlt => ?_
  exact .bind hd (hty d hd (by omega)).loosen fun _ _ _ _ _ => .pure

theorem fnDecl_tandem (hb : TandemBelow deep n bp bq file) (hpat : TandemBelow deep n pp pq file)
    (hty : TandemBelow deep n tp tq file) (hc : c.Ended) (hn : c.remaining.length < n + 1)
    (hk : c.current.kind ≠ .eof) : Tandem deep 1 (fnDecl bp pp tp) (fnDecl bq pq tq) file c := by
  refine .located hc (.bind hc (.advance hc hk) fun _ d₁ _ hd₁ h₁ => ?_)
  refine .bind hd₁ (Tandem.expect hd₁ (by decide)).loosen fun _ d₂ _ hd₂ h₂ => ?_
  refine .bind hd₂ (.many hd₂ fun d hd hle hs =>
    param_tandem hpat hty hd (by omega) (by simp [Cursor.kind_of_isAt hs])) fun _ d₃ _ hd₃ h₃ => ?_
  refine .bind hd₃ (returnType_tandem hty hd₃ (by omega)) fun _ d₄ _ hd₄ h₄ => ?_
  exact .bind hd₄ (hb d₄ hd₄ (by omega)).loosen fun _ _ _ _ _ => .pure

theorem variant_tandem (ha : TandemBelow deep n ap aq file) :
    TandemBelow deep (n + 1) (variant ap) (variant aq) file := by
  intro c hc hn
  refine .located hc (.bind hc (.expect hc (by decide)) fun _ d _ hd hlt => ?_)
  exact .bind hd (.many hd fun d' hd' hle _ => ha d' hd' (by omega)) fun _ _ _ _ _ => .pure

theorem barred_tandem (ha : TandemBelow deep n ap aq file) (hc : c.Ended)
    (hn : c.remaining.length < n + 1) (hk : c.isAt .pipe = true) :
    Tandem deep 1 (do let _ ← advance; variant ap) (do let _ ← advance; variant aq) file c := by
  refine .bind hc (.advance hc (by simp [Cursor.kind_of_isAt hk])) fun _ d _ hd hlt => ?_
  exact (variant_tandem ha d hd (by omega)).loosen

theorem field_tandem (hty : TandemBelow deep n tp tq file) :
    TandemBelow deep (n + 1) (field tp) (field tq) file := by
  intro c hc hn
  refine .located hc (.bind hc (.expect hc (by decide)) fun _ d₁ _ hd₁ h₁ => ?_)
  refine .bind hd₁ (Tandem.expect hd₁ (by decide)).loosen fun _ d₂ _ hd₂ h₂ => ?_
  exact .bind hd₂ (hty d₂ hd₂ (by omega)).loosen fun _ _ _ _ _ => .pure

theorem product_tandem (hty : TandemBelow deep n tp tq file) (hc : c.Ended)
    (hn : c.remaining.length < n + 1) (hk : c.current.kind ≠ .eof) :
    Tandem deep 1 (product tp) (product tq) file c := by
  refine .bind hc (.advance hc hk) fun _ d₁ _ hd₁ h₁ => ?_
  refine .bind hd₁ (.commas hd₁ fun d hd hle _ => field_tandem hty d hd (by omega))
    fun _ d₂ _ hd₂ _ => ?_
  exact .bind hd₂ (Tandem.expectClosing hd₂ (by decide)).loosen fun _ _ _ _ _ => .pure

theorem typeBody_tandem (hty : TandemBelow deep n tp tq file) (ha : TandemBelow deep n ap aq file)
    (name : String) (hc : c.Ended) (hn : c.remaining.length < n + 1) :
    Tandem deep 0 (typeBody tp ap name) (typeBody tq aq name) file c := by
  refine .test (fun _ => ?_) fun _ => .test (fun hk => ?_) fun _ => .reject fun h => by cases h
  · exact .bind hc (.many hc fun d hd hle hs => barred_tandem ha hd (by omega) hs)
      fun _ _ _ _ _ => .pure
  · exact (product_tandem hty hc hn (by simp [Cursor.kind_of_isAt hk])).loosen

theorem typeDecl_tandem (hty : TandemBelow deep n tp tq file) (ha : TandemBelow deep n ap aq file)
    (hc : c.Ended) (hn : c.remaining.length < n + 1) (hk : c.current.kind ≠ .eof) :
    Tandem deep 1 (typeDecl tp ap) (typeDecl tq aq) file c := by
  refine .located hc (.bind hc (.advance hc hk) fun _ d₁ _ hd₁ h₁ => ?_)
  refine .bind hd₁ (Tandem.expect hd₁ (by decide)).loosen fun _ d₂ _ hd₂ h₂ => ?_
  refine .bind hd₂ (names_tandem hd₂) fun _ d₃ _ hd₃ h₃ => ?_
  refine .bind hd₃ (Tandem.expect hd₃ (by decide)).loosen fun _ d₄ _ hd₄ h₄ => ?_
  exact .bind hd₄ (typeBody_tandem hty ha _ hd₄ (by omega)) fun _ _ _ _ _ => .pure

theorem declarationWithin_tandem (hb : TandemBelow deep n bp bq file)
    (hpat : TandemBelow deep n pp pq file) (hty : TandemBelow deep n tp tq file)
    (ha : TandemBelow deep n ap aq file) :
    TandemBelow deep (n + 1) (declarationWithin bp pp tp ap) (declarationWithin bq pq tq aq) file := by
  intro c hc hn
  refine .current ?_
  split
  · exact fnDecl_tandem hb hpat hty hc hn (by simp_all)
  · exact typeDecl_tandem hty ha hc hn (by simp_all)
  · exact .unexpected

end

/-! The readers themselves, with room for `d` and `d'` further levels of nesting. -/

/-- Where fewer than `n` tokens are left, the two bounds on nesting are the same for a reader: because
they are equal, or because neither is met. -/
def Room (deep : Prop) (n d d' : Nat) : Prop := d = d' ∧ deep ∨ n ≤ d ∧ n ≤ d'

namespace Room

variable {d d' : Nat}

theorem refl (n d : Nat) : Room True n d d := .inl ⟨rfl, trivial⟩

theorem mono (h : Room deep n d d') (hm : m ≤ n) : Room deep m d d' :=
  h.imp_right fun ⟨h, h'⟩ => ⟨Nat.le_trans hm h, Nat.le_trans hm h'⟩

theorem cases (h : Room deep (n + 1) d d') :
    (d = 0 ∧ d' = 0 ∧ deep) ∨ ∃ e e', d = e + 1 ∧ d' = e' + 1 ∧ Room deep n e e' := by
  obtain ⟨rfl, hdeep⟩ | ⟨h, h'⟩ := h
  · cases d with
    | zero => exact .inl ⟨rfl, rfl, hdeep⟩
    | succ d => exact .inr ⟨d, d, rfl, rfl, .inl ⟨rfl, hdeep⟩⟩
  · obtain ⟨e, rfl⟩ := Nat.exists_eq_add_of_le' h
    obtain ⟨e', rfl⟩ := Nat.exists_eq_add_of_le' h'
    exact .inr ⟨e + n, e' + n, rfl, rfl, .inr ⟨Nat.le_add_left .., Nat.le_add_left ..⟩⟩

end Room

theorem tooDeep_tandem (hdeep : deep) (category : Category) :
    TandemBelow deep n (tooDeep category : Parser α) (tooDeep category) file :=
  fun _ _ _ => .reject fun _ => hdeep

section

variable {d d' : Nat}

theorem pattern_tandem (h : Room deep n d d') : TandemBelow deep n (pattern d) (pattern d') file := by
  induction n generalizing d d' with
  | zero => exact tandemBelow_zero _ _
  | succ n ih =>
    obtain ⟨rfl, rfl, hdeep⟩ | ⟨e, e', rfl, rfl, h'⟩ := h.cases
    · exact tooDeep_tandem hdeep _
    · exact patternWithin_tandem (ih h')

theorem type_tandem (h : Room deep n d d') : TandemBelow deep n (type d) (type d') file := by
  induction n generalizing d d' with
  | zero => exact tandemBelow_zero _ _
  | succ n ih =>
    obtain ⟨rfl, rfl, hdeep⟩ | ⟨e, e', rfl, rfl, h'⟩ := h.cases
    · exact tooDeep_tandem hdeep _
    · exact typeWithin_tandem (ih h')

theorem expression_tandem (h : Room deep n d d') :
    TandemBelow deep n (expression d) (expression d') file := by
  induction n generalizing d d' with
  | zero => exact tandemBelow_zero _ _
  | succ n ih =>
    obtain ⟨rfl, rfl, hdeep⟩ | ⟨e, e', rfl, rfl, h'⟩ := h.cases
    · exact tooDeep_tandem hdeep _
    · have h := h.mono (Nat.le_succ n)
      exact expressionWithin_tandem (ih h') (pattern_tandem h) (type_tandem h)

theorem declaration_tandem (h : Room deep (n + 1) d d') :
    TandemBelow deep (n + 1) (declaration d) (declaration d') file := by
  have h := h.mono (Nat.le_succ n)
  have hpat : TandemBelow deep n (pattern d) (pattern d') file := pattern_tandem h
  have hty : TandemBelow deep n (type d) (type d') file := type_tandem h
  exact declarationWithin_tandem ((block_tandem (expression_tandem h) hpat).mono (Nat.le_succ n)) hpat
    hty ((atom_tandem _ hty).mono (Nat.le_succ n))

theorem program_tandem (h : Room deep n d d') (hc : c.Ended) (hn : c.remaining.length < n) :
    Tandem deep 0 (program d) (program d') file c := by
  refine .bind hc (.many hc fun e he hle _ => ?_) fun _ _ _ _ _ => .current ?_
  · obtain ⟨m, rfl⟩ := Nat.exists_eq_succ_of_ne_zero (Nat.ne_zero_of_lt hn)
    exact declaration_tandem h e he (by omega)
  · exact .still rfl

theorem tree_tandem (form : Form) (h : Room deep n d d') (hc : c.Ended)
    (hn : c.remaining.length < n) : Tandem deep 0 (tree d form) (tree d' form) file c := by
  have hend : ∀ category c, Tandem deep 0 (tree.atEnd category) (tree.atEnd category) file c :=
    fun _ _ => .test (fun _ => .pure) fun _ => .unexpected
  cases form with
  | program => exact .bind hc (program_tandem h hc hn) fun _ _ _ _ _ => .pure
  | expression =>
    refine .bind hc (expression_tandem h c hc hn).loosen fun _ e _ he _ => ?_
    exact .bind he (hend _ e) fun _ _ _ _ _ => .pure
  | pattern =>
    refine .bind hc (pattern_tandem h c hc hn).loosen fun _ e _ he _ => ?_
    exact .bind he (hend _ e) fun _ _ _ _ _ => .pure
  | type =>
    refine .bind hc (type_tandem h c hc hn).loosen fun _ e _ he _ => ?_
    exact .bind he (hend _ e) fun _ _ _ _ _ => .pure

end

/-! Every loop, every cycle of calls, and every call. -/

/-- A loop goes on where an item starts. It is given a number of items not to exceed. -/
structure Loop where
  {Item : Type}
  {Result : Type}
  starts : Cursor → Bool
  item : Parser Item
  upTo : (bound : Nat) → Parser Result

namespace Loop

def ofMany (starts : Cursor → Bool) (item : Parser α) : Loop := ⟨starts, item, manyUpTo starts item⟩

def ofCommas (closer : TokenKind) (item : Parser α) : Loop :=
  ⟨fun c => !listEnds closer c, item, commasUpTo closer item⟩

def ofStatements (inner : Parser (Expr Span)) (pattern : Parser (Pattern Span)) : Loop :=
  ⟨fun _ => true, statement inner pattern, statementsUpTo inner pattern⟩

/-- A quantified type ends a chain of arrows and is no link of it. -/
def ofArrows (inner : Parser (Ty Span)) : Loop :=
  ⟨fun c => !c.isAt .kwForall, typeApplication inner, arrowChain inner⟩

/-- Each round that is completed consumes something, so the number of tokens left is never exceeded. -/
structure Runs (L : Loop) (file : String) : Prop where
  shortens : ∀ c, c.Ended → L.starts c = true → L.item.Shortens file c
  unbounded : ∀ c, c.Ended → ∀ m n, c.remaining.length ≤ m → c.remaining.length ≤ n →
    L.upTo m file c = L.upTo n file c

section

variable {starts : Cursor → Bool} {closer : TokenKind} {item : Parser α}

theorem runs_ofMany (h : ∀ c, c.Ended → starts c = true → item.Shortens file c) :
    (ofMany starts item).Runs file where
  shortens := h
  unbounded _ hc m n hm hn := manyUpTo_eq_of_le h m n hc hm hn

theorem runs_ofCommas (h : ∀ c, c.Ended → listEnds closer c = false → item.Shortens file c) :
    (ofCommas closer item).Runs file where
  shortens c hc hs := h c hc (by simpa [ofCommas] using hs)
  unbounded _ hc m n hm hn := commasUpTo_eq_of_le h m n hc hm hn

end

/-- The loops of the readers with room for `depth` further levels of nesting. -/
inductive Occurs (depth : Nat) : Loop → Prop
  | declarations : Occurs depth (ofMany (fun c => !c.isAt .eof) (declaration depth))
  | params : Occurs depth (ofMany (·.isAt .lparen) (param (pattern depth) (type depth)))
  | variants : Occurs depth
      (ofMany (·.isAt .pipe) do let _ ← advance; variant (atom .type (type depth)))
  | fields : Occurs depth (ofCommas .rbrace (field (type depth)))
  | names : Occurs depth (ofMany (·.isAt .identifier) advance)
  | expressions : Occurs depth (ofCommas .rparen (expression depth))
  | patterns : Occurs depth (ofCommas .rparen (pattern depth))
  | types : Occurs depth (ofCommas .rparen (type depth))
  | operations (climbs power : Nat) : Occurs depth (ofMany (bindsAtLeast power)
      (climbOperation (climb (application (expression depth) (pattern (depth + 1))) climbs)))
  | arguments : Occurs depth (ofMany Family.expression.startsAtom
      (closing (withSuffixes (expression depth) (atom .expression (expression depth)))))
  | patternArguments : Occurs depth
      (ofMany Family.pattern.startsAtom (atom .pattern (pattern depth)))
  | typeArguments : Occurs depth (ofMany Family.type.startsAtom (atom .type (type depth)))
  | suffixes : Occurs depth (ofMany startsSuffix (closing (suffix (expression depth))))
  | fieldValues : Occurs depth (ofCommas .rbrace (fieldValue (expression depth)))
  | clauses : Occurs depth (ofCommas .rbrace (clause (expression depth) (pattern (depth + 1))))
  | statements (patternDepth : Nat) : Occurs depth
      (ofStatements (expression depth) (pattern patternDepth))
  | arrows : Occurs depth (ofArrows (type depth))

end Loop

theorem Loop.Occurs.runs {depth : Nat} {L : Loop} (h : L.Occurs depth) (file : String) :
    L.Runs file := by
  have hexpr : ∀ n, TandemBelow True n (expression depth) (expression depth) file :=
    fun n => expression_tandem (.refl n depth)
  have hpat : ∀ d n, TandemBelow True n (pattern d) (pattern d) file :=
    fun d n => pattern_tandem (.refl n d)
  have hty : ∀ n, TandemBelow True n (type depth) (type depth) file :=
    fun n => type_tandem (.refl n depth)
  have happ : ∀ n, TandemBelow True n (application (expression depth) (pattern (depth + 1)))
      (application (expression depth) (pattern (depth + 1))) file :=
    fun n => (application_tandem (hexpr n) (hpat _ n)).mono (Nat.le_succ n)
  have hlt : ∀ c : Cursor, c.remaining.length < c.remaining.length + 1 := fun c => Nat.lt_succ_self _
  cases h with
  | declarations =>
    exact runs_ofMany fun c hc _ =>
      (declaration_tandem (.refl _ depth) c hc (hlt c)).advances.shortens hc
  | params =>
    exact runs_ofMany fun c hc hs => (param_tandem (hpat depth _) (hty _) hc (hlt c)
      (by simp [Cursor.kind_of_isAt hs])).advances.shortens hc
  | variants =>
    exact runs_ofMany fun c hc hs => (barred_tandem ((atom_tandem _ (hty _)).mono (Nat.le_succ _)) hc
      (hlt c) hs).advances.shortens hc
  | fields => exact runs_ofCommas fun c hc _ => (field_tandem (hty _) c hc (hlt c)).advances.shortens hc
  | names =>
    refine runs_ofMany fun c hc hs => ?_
    have hadvance : Tandem True 1 advance advance file c :=
      .advance hc (by simp [Cursor.kind_of_isAt hs])
    exact hadvance.advances.shortens hc
  | expressions => exact runs_ofCommas fun c hc _ => (hexpr _ c hc (hlt c)).advances.shortens hc
  | patterns => exact runs_ofCommas fun c hc _ => (hpat depth _ c hc (hlt c)).advances.shortens hc
  | types => exact runs_ofCommas fun c hc _ => (hty _ c hc (hlt c)).advances.shortens hc
  | operations climbs power =>
    exact runs_ofMany fun c hc hs => (climbOperation_tandem (climb_tandem (happ _) climbs) hc (hlt c)
      (ne_eof_of_bindsAtLeast hs)).advances.shortens hc
  | arguments =>
    exact runs_ofMany fun c hc _ =>
      (Tandem.closing hc (argument_tandem (hexpr _) c hc (hlt c))).advances.shortens hc
  | patternArguments =>
    exact runs_ofMany fun c hc _ => (atom_tandem _ (hpat depth _) c hc (hlt c)).advances.shortens hc
  | typeArguments =>
    exact runs_ofMany fun c hc _ => (atom_tandem _ (hty _) c hc (hlt c)).advances.shortens hc
  | suffixes =>
    exact runs_ofMany fun c hc hs => (Tandem.closing hc (suffix_tandem (hexpr _) hc (hlt c)
      (ne_eof_of_startsSuffix hs))).advances.shortens hc
  | fieldValues =>
    exact runs_ofCommas fun c hc _ => (fieldValue_tandem (hexpr _) c hc (hlt c)).advances.shortens hc
  | clauses =>
    exact runs_ofCommas fun c hc _ =>
      (clause_tandem (hexpr _) (hpat _ _) c hc (hlt c)).advances.shortens hc
  | statements patternDepth =>
    have hitem : ∀ c, c.Ended → (statement (expression depth) (pattern patternDepth)).Shortens file c :=
      fun c hc => (statement_tandem (hexpr _) (hpat _ _) c hc (hlt c)).advances.shortens hc
    exact ⟨fun c hc _ => hitem c hc, fun c hc m n hm hn => statementsUpTo_eq_of_le hitem m n hc hm hn⟩
  | arrows =>
    have hitem : ∀ c, c.Ended → (typeApplication (type depth)).Shortens file c :=
      fun c hc => (typeApplication_tandem (hty _) c hc (hlt c)).advances.shortens hc
    exact ⟨fun c hc _ => hitem c hc, fun c hc m n hm hn => arrowChain_eq_of_le hitem m n hc hm hn⟩

/-- The rules that call themselves, directly or through others, do so only where they have consumed
something: readers for what is inside need to agree only where one token less is left. -/
structure Guarded (file : String) : Prop where
  pattern : ∀ {deep n p q}, TandemBelow deep n p q file →
    TandemBelow deep (n + 1) (patternWithin p) (patternWithin q) file
  type : ∀ {deep n p q}, TandemBelow deep n p q file →
    TandemBelow deep (n + 1) (typeWithin p) (typeWithin q) file
  expression : ∀ {deep n p q pp pq tp tq}, TandemBelow deep n p q file →
    TandemBelow deep n pp pq file → TandemBelow deep n tp tq file →
    TandemBelow deep (n + 1) (expressionWithin p pp tp) (expressionWithin q pq tq) file
  climb : ∀ {deep n p q right right'}, TandemBelow deep (n + 1) p q file →
    (∀ power, TandemBelow deep n (right power) (right' power) file) → ∀ power,
    TandemBelow deep (n + 1) (climbWithin p right power) (climbWithin q right' power) file

theorem guarded (file : String) : Guarded file :=
  ⟨patternWithin_tandem, typeWithin_tandem, expressionWithin_tandem, climbWithin_tandem⟩

end Parser

/-- Where a run stopped. -/
def Outcome.stop {α : Type} : Outcome α → Cursor
  | done _ c => c
  | failed _ c => c

theorem Parser.Tandem.passes {α : Type} {deep : Prop} {k : Nat} {p q : Parser α} {file : String}
    {c : Cursor} (h : Tandem deep k p q file c) : ∃ ts, c.Passes ts (p file c).stop := by
  cases hrun : p file c with
  | done a c' =>
    obtain ⟨ts, -, hts⟩ := h.advances.done a c' hrun
    exact ⟨ts, hts⟩
  | failed e c' => exact (h.advances.failed e c' hrun).1

namespace Reader

/-- The reader behind several calls. -/
def after (r : Reader) (forms : List Form) : Reader := forms.foldl (fun r form => (r.read form).2) r

theorem cursor_read (r : Reader) (form : Form) :
    (r.read form).2.cursor = (Parser.tree Parser.maxDepth form r.file r.cursor).stop := by
  rw [read]
  split <;> rename_i hrun <;> rw [hrun] <;> rfl

theorem passes_after {r : Reader} (hr : r.cursor.Ended) (forms : List Form) :
    ∃ ts, r.cursor.Passes ts (r.after forms).cursor := by
  induction forms generalizing r with
  | nil => exact ⟨[], .refl _⟩
  | cons form forms ih =>
    have hstop : ∃ ts, r.cursor.Passes ts (r.read form).2.cursor := by
      rw [cursor_read]
      exact (Parser.tree_tandem form (.refl _ Parser.maxDepth) hr (Nat.lt_succ_self _)).passes
    obtain ⟨ts, hts⟩ := hstop
    obtain ⟨us, hus⟩ := ih (hts.ended hr)
    exact ⟨ts ++ us, hts.trans hus⟩

end Reader

namespace Parser

/-- What reading does from a cursor, with room for `depth` levels of nesting. -/
structure Progresses (file : String) (depth : Nat) (c : Cursor) : Prop where
  /-- A call stops somewhere before the next end marker, or at it. -/
  passes : ∀ form, ∃ ts, c.Passes ts (tree depth form file c).stop
  /-- So does a call behind any others. -/
  passes_after : ∀ overflow forms,
    ∃ ts, c.Passes ts (Reader.after ⟨file, c, overflow⟩ forms).cursor
  /-- It needs no more levels of nesting than there are tokens left. -/
  ends : ∀ form, c.remaining.length < depth → ¬ (tree depth form).Overflows file c ∧
    ∀ depth', c.remaining.length < depth' → tree depth' form file c = tree depth form file c
  /-- Each round of a loop consumes something. -/
  loops : ∀ L : Loop, L.Occurs depth → L.Runs file
  /-- Each rule consumes something before it comes back to itself. -/
  guarded : Guarded file

/-- Reading goes on and comes to an end, wherever it begins in a list that ends with an end marker. -/
theorem tree_progresses (file : String) (depth : Nat) {c : Cursor} (hc : c.Ended) :
    Progresses file depth c where
  passes form := (tree_tandem form (.refl _ depth) hc (Nat.lt_succ_self _)).passes
  passes_after overflow forms := Reader.passes_after (r := ⟨file, c, overflow⟩) hc forms
  ends form hd := by
    have h : ∀ depth', c.remaining.length < depth' →
        Tandem False 0 (tree depth form) (tree depth' form) file c :=
      fun depth' hd' => tree_tandem form (.inr ⟨hd, hd'⟩) hc (Nat.lt_succ_self _)
    refine ⟨?_, fun depth' hd' => (h depth' hd').agree⟩
    rintro ⟨r, c', hrun, hr⟩
    exact ((h depth hd).advances.failed _ c' hrun).2 hr
  loops L hL := hL.runs file
  guarded := Parser.guarded file

/-- An end marker within an open parenthesis. -/
theorem tree_progresses_of_unclosed :
    let c : Cursor := ⟨⟨.lparen, "(", ⟨"a", 0, 1⟩⟩, [⟨.eof, "", ⟨"a", 1, 1⟩⟩,
      ⟨.identifier, "x", ⟨"a", 1, 2⟩⟩, ⟨.eof, "?", ⟨"b", 7, 3⟩⟩], -1⟩
    c.Ended ∧ Progresses "a" 5 c :=
  ⟨⟨[_, _, _], _, rfl, rfl⟩, tree_progresses "a" 5 ⟨[_, _, _], _, rfl, rfl⟩⟩

end Parser
end TinyFront
