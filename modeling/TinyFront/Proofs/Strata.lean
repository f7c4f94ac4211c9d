import TinyFront.Proofs.Soundness

/-!
Readers that follow the grammar literally: one loop for each level of infix operators, each of which
is applied as soon as its right operand is read, and a rule for arrows that calls itself. Main
statements: at every cursor in front of an end marker, climbing over binding powers and the chain of
arrows give the outcomes of these readers, failures and places included.
-/
namespace TinyFront
namespace Parser

variable {file : String} {c : Cursor}

/-! Infix operators. -/

section

variable (binds : TokenKind → Bool) (operand : Parser (Expr Span))

/-- Goes on behind `left`, which begins at offset `s`, with at most `bound` operators of one level. -/
def joined (s : Int) : (bound : Nat) → (left : Expr Span) → Parser (Expr Span)
  | 0, left => return left
  | bound + 1, left => do
    if ← test (fun c => binds c.current.kind) then
      let (o, t) ← operator
      let leftSpan ← spanFrom s
      let right ← operand
      let span ← spanFrom s
      joined s bound (.apply (.apply (.leaf (.name o.name) t.span) left leftSpan) right span)
    else return left

/-- One operand, and then operators of one level with further operands. -/
def level (bound : Nat) : Parser (Expr Span) := do
  let s ← start
  joined binds operand s bound (← operand)

/-- The grammar's rule for products and quotients. -/
def multiplicative (bound : Nat) : Parser (Expr Span) :=
  level TokenKind.isMultiplicative operand bound

/-- The grammar's rule for sums and differences, whose operands are those of the rule above. -/
def additive (bound : Nat) : Parser (Expr Span) :=
  level TokenKind.isAdditive (multiplicative operand bound) bound

end

section

variable {binds : TokenKind → Bool} {operand operand' : Parser (Expr Span)}

theorem close_bind {β : Type} (k : (Int → Span) → Parser β) :
    (close >>= k) file c = k (fun s => ⟨file, s, c.lastEnd⟩) file c := rfl

theorem operation_bind {β : Type} (k : Operation → Parser β) :
    (operation operand >>= k) = (do
      let x ← operator
      let operatorEnd ← close
      let right ← operand
      let operandEnd ← close
      k ⟨x.1, x.2.span, operatorEnd, right, operandEnd⟩) := by
  simp only [operation, closing_bind, bind_assoc, pure_bind]

/-- Applying each operator at once, or all of them behind the last one. The operands need to agree
only in the rest of the list. -/
theorem joined_eq (hbinds : binds .eof = false)
    (hoperand : ∀ c, c.Ended → operand'.Shortens file c) (hc : c.Ended)
    (hagree : ∀ d, d.Ended → d.remaining.length ≤ c.remaining.length →
      operand file d = operand' file d) (s : Int) (bound : Nat) (left : Expr Span) :
    joined binds operand s bound left file c =
      (do
        let operations ← manyUpTo (fun c => binds c.current.kind) (operation operand') bound
        return operations.foldl (Operation.apply s) left : Parser _) file c := by
  induction bound generalizing left c with
  | zero => rfl
  | succ bound ih =>
    rw [joined, manyUpTo, bind_assoc, test_bind, test_bind]
    by_cases h : binds c.current.kind = true
    · rw [if_pos h, if_pos h, bind_assoc, operation_bind]
      refine bind_congr rfl fun x d hx => ?_
      obtain ⟨-, -, rfl⟩ := operator_eq_done hx
      have hk : c.current.kind ≠ .eof := fun he => by simp [he, hbinds] at h
      have hlen := (hc.consumes_advance hk).length
      rw [List.length_singleton] at hlen
      have hright := hagree c.advance (hc.advance hk) (by omega)
      refine bind_congr (p := operand) hright fun right d' hrun => ?_
      obtain ⟨hd', hlt⟩ := hoperand _ (hc.advance hk) _ _ hrun
      refine (ih hd' (fun d hd hle => hagree d hd (by omega)) _).trans ?_
      simp only [close_bind, bind_assoc, pure_bind, List.foldl_cons]
      rfl
    · rw [if_neg h, if_neg h]
      rfl

theorem level_eq_tier (hbinds : binds .eof = false)
    (hoperand : ∀ c, c.Ended → operand'.Shortens file c) (hc : c.Ended)
    (hagree : ∀ d, d.Ended → d.remaining.length ≤ c.remaining.length →
      operand file d = operand' file d) {bound : Nat} (hbound : c.remaining.length ≤ bound) :
    level binds operand bound file c = tier binds operand' file c := by
  have hitem : ∀ c, c.Ended → binds c.current.kind = true → (operation operand').Shortens file c :=
    fun c hc h => operation_shortens hoperand hc fun he => by simp [he, hbinds] at h
  rw [level, tier, start_bind, start_bind]
  refine bind_congr (hagree c hc (Nat.le_refl _)) fun e d hrun => ?_
  obtain ⟨hd, hlt⟩ := hoperand c hc e d hrun
  rw [joined_eq hbinds hoperand hd fun d hd hle => hagree d hd (by omega)]
  exact bind_congr (manyUpTo_eq_of_le hitem bound d.remaining.length hd (by omega) (Nat.le_refl _))
    fun _ _ _ => rfl

/-- The two rules of the grammar, each with its loop. -/
theorem additive_eq_tier (hoperand : ∀ c, c.Ended → operand.Shortens file c) (hc : c.Ended)
    {bound : Nat} (hbound : c.remaining.length ≤ bound) :
    additive operand bound file c =
      tier TokenKind.isAdditive (tier TokenKind.isMultiplicative operand) file c :=
  level_eq_tier rfl (fun _ hc _ _ hrun => (tier_stops rfl hoperand hc hrun).2) hc
    (fun _ hd hle => level_eq_tier rfl hoperand hd (fun _ _ _ => rfl) (by omega)) hbound

/-! How often climbing may call itself does not matter above the number of levels. -/

theorem many_congr {α : Type} {starts : Cursor → Bool} {item item' : Parser α}
    (h : ∀ c, starts c = true → item file c = item' file c) :
    many starts item file c = many starts item' file c := by
  have hbounded : ∀ n c, manyUpTo starts item n file c = manyUpTo starts item' n file c := by
    intro n
    induction n with
    | zero => exact fun _ => rfl
    | succ n ih =>
      intro c
      rw [manyUpTo, manyUpTo, test_bind, test_bind]
      by_cases hs : starts c = true
      · rw [if_pos hs, if_pos hs]
        exact bind_congr (h c hs) fun a d _ => bind_congr (ih d) fun _ _ _ => rfl
      · rw [if_neg hs, if_neg hs]
  exact hbounded _ _

theorem climbWithin_congr {right right' : Nat → Parser (Expr Span)} {power : Nat}
    (h : ∀ c, bindsAtLeast power c = true → ∀ d,
      right (rightPower c.current.kind) file d = right' (rightPower c.current.kind) file d) :
    climbWithin operand right power file c = climbWithin operand right' power file c := by
  rw [climbWithin, climbWithin, start_bind, start_bind]
  refine bind_congr rfl fun first d _ => bind_congr (many_congr fun c hc => ?_) fun _ _ _ => rfl
  refine bind_congr rfl fun x d hrun => ?_
  obtain ⟨hx, -, -⟩ := operator_eq_done (closing_eq_done.1 hrun).1
  have hright := h c hc d
  rw [← hx] at hright
  exact bind_congr (bind_congr hright fun _ _ _ => rfl) fun _ _ _ => rfl

/-- No operator binds its left operand as tightly as the right operand of a product is bound. -/
theorem climb_four (climbs : Nat) (c : Cursor) : climb operand climbs 4 file c = operand file c := by
  cases climbs with
  | zero => rfl
  | succ climbs =>
    have hnever : ∀ c, bindsAtLeast 4 c ≠ true := fun c => by simp [bindsAtLeast_four]
    have hnone : climbWithin operand (climb operand climbs) 4 file c =
        climbWithin operand (climb operand 0) 4 file c :=
      climbWithin_congr fun c hc => absurd hc (hnever c)
    rw [climb_succ, hnone, ← climb_succ, climb_one_four]

theorem climb_two (climbs : Nat) (c : Cursor) :
    climb operand (climbs + 1) 2 file c = climb operand 1 2 file c := by
  refine climbWithin_congr fun c hc d => ?_
  rw [bindsAtLeast_two] at hc
  rw [rightPower_of_isMultiplicative hc, climb_four, climb_four]

theorem climb_eq_of_le {climbs : Nat} (h : tiers ≤ climbs) :
    climb operand climbs 0 file c = climb operand tiers 0 file c := by
  obtain ⟨n, rfl⟩ := Nat.exists_eq_add_of_le' h
  refine climbWithin_congr fun c hc d => ?_
  rw [bindsAtLeast_zero, Bool.or_eq_true] at hc
  rcases hc with hc | hc
  · rw [rightPower_of_isMultiplicative hc, climb_four, climb_four]
  · rw [rightPower_of_isAdditive hc, climb_two]

end

/-- Climbing over the binding powers of infix operators is the grammar with its two levels. -/
theorem climb_eq_additive (file : String) (depth : Nat) {climbs bound : Nat} (hclimbs : tiers ≤ climbs)
    {c : Cursor} (hc : c.Ended) (hbound : c.remaining.length ≤ bound) :
    climb (application (expression depth) (pattern (depth + 1))) climbs 0 file c =
      additive (application (expression depth) (pattern (depth + 1))) bound file c := by
  have hoperand : ∀ c, c.Ended →
      (application (expression depth) (pattern (depth + 1))).Shortens file c :=
    fun _ hc => application_shortens depth hc
  rw [climb_eq_of_le hclimbs, climb_eq_tiers hoperand hc, additive_eq_tier hoperand hc hbound]

/-- A difference whose second operand is a product. -/
theorem climb_eq_additive_of_difference :
    let c : Cursor := ⟨⟨.integer, "1", ⟨"a", 0, 1⟩⟩, [⟨.minus, "-", ⟨"a", 1, 2⟩⟩,
      ⟨.identifier, "x", ⟨"a", 2, 3⟩⟩, ⟨.star, "*", ⟨"a", 3, 4⟩⟩, ⟨.integer, "2", ⟨"a", 4, 5⟩⟩,
      ⟨.eof, "", ⟨"a", 5, 5⟩⟩], 0⟩
    tiers ≤ 7 ∧ c.Ended ∧ c.remaining.length ≤ 6 ∧
      climb (application (expression 3) (pattern 4)) 7 0 "a" c =
        additive (application (expression 3) (pattern 4)) 6 "a" c :=
  ⟨by decide, ⟨[_, _, _, _, _], _, rfl, rfl⟩, by decide,
    climb_eq_additive "a" 3 (by decide) ⟨[_, _, _, _, _], _, rfl, rfl⟩ (by decide)⟩

/-! Arrows. -/

section

variable (inner : Parser (Ty Span))

/-- The rule for types. What stands behind an arrow is read by `rest`. -/
def arrowRule (rest : Parser (Ty Span)) : Parser (Ty Span) := do
  if ← test (·.isAt .kwForall) then quantified inner
  else
    let s ← start
    let domain ← typeApplication inner
    if ← test (·.isAt .arrow) then
      let _ ← advance
      let codomain ← rest
      return .arrow domain codomain (← spanFrom s)
    else return domain

/-- The rule calling itself, at most `bound` times. -/
def rightRecursive : (bound : Nat) → Parser (Ty Span)
  | 0 => unexpected .type (.category .type)
  | bound + 1 => arrowRule inner (rightRecursive bound)

end

theorem arrowRule_congr {inner rest rest' : Parser (Ty Span)} (hc : c.Ended)
    (hinner : ∀ c, c.Ended → (typeApplication inner).Shortens file c)
    (h : ∀ d, d.Ended → d.remaining.length < c.remaining.length → rest file d = rest' file d) :
    arrowRule inner rest file c = arrowRule inner rest' file c := by
  rw [arrowRule, arrowRule, test_bind, test_bind]
  split
  · rfl
  · rw [start_bind, start_bind]
    refine bind_congr rfl fun domain d hrun => ?_
    obtain ⟨hd, hlt⟩ := hinner c hc domain d hrun
    rw [test_bind, test_bind]
    by_cases harrow : d.isAt .arrow = true
    · obtain ⟨hadv, hlt'⟩ := hd.advance_of_isAt harrow (by decide)
      rw [if_pos harrow, if_pos harrow, advance_bind, advance_bind]
      exact bind_congr (h _ hadv (by omega)) fun _ _ _ => rfl
    · rw [if_neg harrow, if_neg harrow]

/-- Reading a chain of arrows to its end before any of them is built is the rule that calls itself
behind each arrow. -/
theorem typeWithin_eq_rightRecursive (file : String) (depth : Nat) {bound : Nat} {c : Cursor}
    (hc : c.Ended) (hbound : c.remaining.length ≤ bound) :
    typeWithin (type depth) file c = rightRecursive (type depth) bound file c := by
  have hinner : ∀ c, c.Ended → (typeApplication (type depth)).Shortens file c :=
    fun c hc => typeApplication_shortens depth hc
  induction bound generalizing c with
  | zero => exact absurd (List.length_eq_zero_iff.1 (Nat.le_zero.1 hbound)) c.remaining_ne_nil
  | succ bound ih =>
    refine (typeWithin_eq hinner hc).trans ?_
    exact arrowRule_congr hc hinner fun d hd hlt => ih hd (by omega)

/-- A function of two arguments. -/
theorem typeWithin_eq_rightRecursive_of_function :
    let c : Cursor := ⟨⟨.typeIdentifier, "A", ⟨"a", 0, 1⟩⟩, [⟨.arrow, "->", ⟨"a", 1, 3⟩⟩,
      ⟨.identifier, "b", ⟨"a", 3, 4⟩⟩, ⟨.arrow, "->", ⟨"a", 4, 6⟩⟩, ⟨.underscore, "_", ⟨"a", 6, 7⟩⟩,
      ⟨.eof, "", ⟨"a", 7, 7⟩⟩], 0⟩
    c.Ended ∧ c.remaining.length ≤ 6 ∧
      typeWithin (type 2) "a" c = rightRecursive (type 2) 6 "a" c :=
  ⟨⟨[_, _, _, _, _], _, rfl, rfl⟩, by decide,
    typeWithin_eq_rightRecursive "a" 2 ⟨[_, _, _, _, _], _, rfl, rfl⟩ (by decide)⟩

end Parser
end TinyFront
