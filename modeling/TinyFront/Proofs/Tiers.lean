import TinyFront.Proofs.Moves

/-!
Infix operators and arrows without their bounds. Main statements: climbing over binding powers reads
one loop of additive operators over one loop of multiplicative ones, and a chain of arrows reads as
the rule that calls itself behind each arrow.
-/
namespace TinyFront

namespace TokenKind

def isAdditive (k : TokenKind) : Bool := k == .plus || k == .minus

def isMultiplicative (k : TokenKind) : Bool := k == .star || k == .slash

end TokenKind

namespace Parser

variable {α β : Type} {file : String} {c : Cursor}

def operation (operand : Parser (Expr Span)) : Parser Operation := do
  let ((o, t), operatorEnd) ← closing operator
  let (right, operandEnd) ← closing operand
  return ⟨o, t.span, operatorEnd, right, operandEnd⟩

/-- Operands joined by the operators of one tier, grouped to the left. -/
def tier (binds : TokenKind → Bool) (operand : Parser (Expr Span)) : Parser (Expr Span) := do
  let s ← start
  let first ← operand
  let operations ← many (fun c => binds c.current.kind) (operation operand)
  return operations.foldl (Operation.apply s) first

theorem bind_congr {p q : Parser α} {k l : α → Parser β} (hp : p file c = q file c)
    (hk : ∀ a c', q file c = .done a c' → k a file c' = l a file c') :
    (p >>= k) file c = (q >>= l) file c := by
  rw [bind_apply, bind_apply, hp]
  cases hrun : q file c with
  | done a c' => exact hk a c' hrun
  | failed e c' => rfl

theorem Shortens.bind {p : Parser α} {k : α → Parser β} (hp : p.Shortens file c)
    (hk : ∀ a c', p file c = .done a c' → c'.Ended → ∀ b c'', k a file c' = .done b c'' →
      c''.Ended ∧ c''.remaining.length ≤ c'.remaining.length) : (p >>= k).Shortens file c := by
  intro b c'' hrun
  obtain ⟨a, c', ha, hb⟩ := bind_eq_done.1 hrun
  obtain ⟨hended, hlt⟩ := hp a c' ha
  obtain ⟨hended', hle⟩ := hk a c' ha hended b c'' hb
  exact ⟨hended', by omega⟩

/-- A loop over two sorts of items, where none of the first follows one of the second, is a loop
over the first sort and then one over the second. -/
theorem many_or {p q : Cursor → Bool} {item itemP itemQ : Parser α}
    (hitem : ∀ c, c.Ended → (p c || q c) = true → item.Shortens file c)
    (hp : ∀ c, c.Ended → p c = true → item file c = itemP file c)
    (hq : ∀ c, c.Ended → q c = true → item file c = itemQ file c)
    (hafter : ∀ c a c', c.Ended → q c = true → item file c = .done a c' → p c' = false)
    (hc : c.Ended) :
    many (fun c => p c || q c) item file c =
      (do
        let as ← many p itemP
        let bs ← many q itemQ
        return as ++ bs : Parser _) file c := by
  have hitemP : ∀ c, c.Ended → p c = true → itemP.Shortens file c := by
    intro c hc h a c' hrun
    exact hitem c hc (by simp [h]) a c' (by rw [hp c hc h, hrun])
  have hitemQ : ∀ c, c.Ended → q c = true → itemQ.Shortens file c := by
    intro c hc h a c' hrun
    exact hitem c hc (by simp [h]) a c' (by rw [hq c hc h, hrun])
  induction hlen : c.remaining.length using Nat.strongRecOn generalizing c with
  | ind n ih =>
    rw [many_eq hitem hc]
    by_cases h : p c = true
    · -- the first loop takes the item
      rw [if_pos (by simp [h]), bind_congr (q := do let a ← itemP; return a :: (← many p itemP))
        (k := fun as => do let bs ← many q itemQ; return as ++ bs)
        (by rw [many_eq hitemP hc, if_pos h]) fun _ _ _ => rfl, bind_assoc]
      refine bind_congr (hp c hc h) fun a d hrun => ?_
      obtain ⟨hd, hlt⟩ := hitemP c hc h a d hrun
      rw [bind_congr (ih _ (by omega) hd rfl) fun _ _ _ => rfl]
      simp only [bind_assoc, pure_bind, List.cons_append]
    · have hnone : many p itemP file c = (pure [] : Parser _) file c := by
        rw [many_eq hitemP hc, if_neg h]
        rfl
      rw [bind_congr hnone fun _ _ _ => rfl, pure_bind]
      by_cases h' : q c = true
      · -- only the second loop goes on, since nothing of the first sort follows
        rw [if_pos (by simp [h']), bind_congr (q := do let a ← itemQ; return a :: (← many q itemQ))
          (k := fun bs => return [] ++ bs)
          (by rw [many_eq hitemQ hc, if_pos h']) fun _ _ _ => rfl, bind_assoc]
        refine bind_congr (hq c hc h') fun a d hrun => ?_
        obtain ⟨hd, hlt⟩ := hitemQ c hc h' a d hrun
        have hstop := hafter c a d hc h' (by rw [hq c hc h', hrun])
        have hnone' : many p itemP file d = (pure [] : Parser _) file d := by
          rw [many_eq hitemP hd, if_neg (by simp [hstop])]
          rfl
        rw [bind_congr (ih _ (by omega) hd rfl) fun _ _ _ => rfl]
        simp only [bind_assoc, pure_bind]
        rw [bind_congr hnone' fun _ _ _ => rfl]
        simp
      · rw [if_neg (by simp [h, h']), bind_apply, many_eq hitemQ hc, if_neg h']
        rfl

/-- A loop ends where no item starts, and not before where it began. -/
theorem many_stops {starts : Cursor → Bool} {item : Parser α}
    (hitem : ∀ c, c.Ended → starts c = true → item.Shortens file c) (hc : c.Ended) {as : List α}
    {c' : Cursor} (hrun : many starts item file c = .done as c') :
    starts c' = false ∧ c'.Ended ∧ c'.remaining.length ≤ c.remaining.length := by
  induction hlen : c.remaining.length using Nat.strongRecOn generalizing c as with
  | ind n ih =>
    rw [many_eq hitem hc] at hrun
    split at hrun
    · rename_i h
      obtain ⟨a, d, ha, hrun⟩ := bind_eq_done.1 hrun
      obtain ⟨bs, d', hbs, hrun⟩ := bind_eq_done.1 hrun
      obtain ⟨-, rfl⟩ := pure_eq_done.1 hrun
      obtain ⟨hd, hlt⟩ := hitem c hc h a d ha
      obtain ⟨hstop, hended, hle⟩ := ih _ (by omega) hd hbs rfl
      exact ⟨hstop, hended, by omega⟩
    · rename_i h
      cases hrun
      exact ⟨by simpa using h, hc, by omega⟩

section

variable {operand : Parser (Expr Span)}

theorem operator_eq_done {x : Operator × Token} {c' : Cursor}
    (h : operator file c = .done x c') :
    x.2 = c.current ∧ Operator.ofSymbol? c.current.text = some x.1 ∧ c' = c.advance := by
  rw [operator, advance_bind] at h
  cases ho : Operator.ofSymbol? c.current.text with
  | none => simp [ho] at h
  | some o =>
    rw [ho] at h
    obtain ⟨rfl, rfl⟩ := pure_eq_done.1 h
    exact ⟨rfl, rfl, rfl⟩

theorem operation_eq_done {o : Operation} {c' : Cursor} (h : operation operand file c = .done o c') :
    Operator.ofSymbol? c.current.text = some o.operator ∧ o.operatorSpan = c.current.span ∧
      o.operatorEnd = (fun s => ⟨file, s, c.advance.lastEnd⟩) ∧
      operand file c.advance = .done o.operand c' ∧
      o.operandEnd = fun s => ⟨file, s, c'.lastEnd⟩ := by
  obtain ⟨⟨⟨x, t⟩, f⟩, d, hx, h⟩ := bind_eq_done.1 h
  obtain ⟨hx, hf⟩ := closing_eq_done.1 hx
  obtain ⟨rfl, hsym, rfl⟩ := operator_eq_done hx
  obtain ⟨⟨r, g⟩, d, hr, h⟩ := bind_eq_done.1 h
  obtain ⟨hr, hg⟩ := closing_eq_done.1 hr
  obtain ⟨rfl, rfl⟩ := pure_eq_done.1 h
  exact ⟨hsym, rfl, hf, hr, hg⟩

theorem operation_shortens (hoperand : ∀ c, c.Ended → operand.Shortens file c) (hc : c.Ended)
    (hk : c.current.kind ≠ .eof) : (operation operand).Shortens file c := by
  intro o c' hrun
  obtain ⟨-, -, -, hrun, -⟩ := operation_eq_done hrun
  obtain ⟨hended, hlt⟩ := hoperand _ (hc.advance hk) _ _ hrun
  have hlen := (hc.consumes_advance hk).length
  simp only [List.length_singleton] at hlen
  exact ⟨hended, by omega⟩

theorem ne_eof_of_isMultiplicative {k : TokenKind} (h : k.isMultiplicative = true) : k ≠ .eof := by
  rintro rfl
  cases h

theorem ne_eof_of_isAdditive {k : TokenKind} (h : k.isAdditive = true) : k ≠ .eof := by
  rintro rfl
  cases h

theorem tier_stops {binds : TokenKind → Bool} (hbinds : binds .eof = false)
    (hoperand : ∀ c, c.Ended → operand.Shortens file c) (hc : c.Ended) {e : Expr Span} {c' : Cursor}
    (hrun : tier binds operand file c = .done e c') :
    binds c'.current.kind = false ∧ c'.Ended ∧ c'.remaining.length < c.remaining.length := by
  rw [tier, start_bind] at hrun
  obtain ⟨a, d, ha, hrun⟩ := bind_eq_done.1 hrun
  obtain ⟨os, d', hos, hrun⟩ := bind_eq_done.1 hrun
  obtain ⟨-, rfl⟩ := pure_eq_done.1 hrun
  obtain ⟨hd, hlt⟩ := hoperand c hc a d ha
  have hitem : ∀ c, c.Ended → binds c.current.kind = true → (operation operand).Shortens file c :=
    fun c hc h => operation_shortens hoperand hc fun he => by simp [he, hbinds] at h
  obtain ⟨hstop, hended, hle⟩ := many_stops hitem hd hos
  exact ⟨hstop, hended, by omega⟩

theorem bindsAtLeast_zero : bindsAtLeast 0 =
    fun c => c.current.kind.isMultiplicative || c.current.kind.isAdditive := by
  funext c
  rw [bindsAtLeast]
  cases c.current.kind <;> rfl

theorem bindsAtLeast_two : bindsAtLeast 2 = fun c => c.current.kind.isMultiplicative := by
  funext c
  rw [bindsAtLeast]
  cases c.current.kind <;> rfl

theorem bindsAtLeast_four : bindsAtLeast 4 = fun _ => false := by
  funext c
  rw [bindsAtLeast]
  cases c.current.kind <;> rfl

theorem climb_one_two : climb operand 1 2 = tier TokenKind.isMultiplicative operand := by
  rw [climb, bindsAtLeast_two]
  rfl

theorem climb_one_four (c : Cursor) : climb operand 1 4 file c = operand file c := by
  rw [climb, bindsAtLeast_four, start_bind]
  exact .trans (bind_congr rfl fun _ _ _ => rfl) (congrFun (congrFun (bind_pure operand) file) c)

/-- An operator before a climb is an operation, once the power of the climb is known. -/
theorem operation_of_climb {operand' : Parser (Expr Span)}
    (h : ∀ d, climb operand 1 (rightPower c.current.kind) file d = operand' file d) :
    (do
      let ((o, t), operatorEnd) ← closing operator
      let (right, operandEnd) ← closing (climb operand 1 (rightPower t.kind))
      return (⟨o, t.span, operatorEnd, right, operandEnd⟩ : Operation) : Parser _) file c =
      operation operand' file c := by
  refine bind_congr rfl fun ⟨⟨o, t⟩, f⟩ d hrun => ?_
  obtain ⟨ht, -, -⟩ := operator_eq_done (closing_eq_done.1 hrun).1
  cases ht
  refine bind_congr ?_ fun _ _ _ => rfl
  exact bind_congr (h d) fun _ _ _ => rfl

/-- An operator, and its right operand, whose reader depends on how tightly the operator binds. -/
def climbOperation (right : Nat → Parser (Expr Span)) : Parser Operation := do
  let x ← closing operator
  let y ← closing (right (rightPower x.1.2.kind))
  return ⟨x.1.1, x.1.2.span, x.2, y.1, y.2⟩

/-- A climb over the climbs that it calls. -/
def climbWithin (operand : Parser (Expr Span)) (right : Nat → Parser (Expr Span)) (power : Nat) :
    Parser (Expr Span) := do
  let s ← start
  let first ← operand
  let operations ← many (bindsAtLeast power) (climbOperation right)
  return operations.foldl (Operation.apply s) first

theorem climb_succ (climbs power : Nat) :
    climb operand (climbs + 1) power = climbWithin operand (climb operand climbs) power := rfl

theorem rightPower_of_isMultiplicative {k : TokenKind} (h : k.isMultiplicative = true) :
    rightPower k = 4 := by
  cases k <;> first | rfl | cases h

theorem rightPower_of_isAdditive {k : TokenKind} (h : k.isAdditive = true) : rightPower k = 2 := by
  cases k <;> first | rfl | cases h

/-- Climbing over binding powers is one loop over another. -/
theorem climb_eq_tiers (hoperand : ∀ c, c.Ended → operand.Shortens file c) (hc : c.Ended) :
    climb operand tiers 0 file c =
      tier TokenKind.isAdditive (tier TokenKind.isMultiplicative operand) file c := by
  have htier : ∀ c, c.Ended → (tier TokenKind.isMultiplicative operand).Shortens file c :=
    fun c hc e d hrun => (tier_stops rfl hoperand hc hrun).2
  have hmul : ∀ c : Cursor, c.current.kind.isMultiplicative = true →
      ∀ d, climb operand 1 (rightPower c.current.kind) file d = operand file d := by
    intro c h d
    rw [rightPower_of_isMultiplicative h, climb_one_four]
  have hadd : ∀ c : Cursor, c.current.kind.isAdditive = true →
      ∀ d, climb operand 1 (rightPower c.current.kind) file d =
        tier TokenKind.isMultiplicative operand file d := by
    intro c h d
    rw [rightPower_of_isAdditive h, climb_one_two]
  have hfirst : tier TokenKind.isMultiplicative operand file c =
      (do
        let first ← operand
        let operations ← many (fun c => c.current.kind.isMultiplicative) (operation operand)
        return operations.foldl (Operation.apply c.current.span.start) first : Parser _) file c := rfl
  rw [tiers, climb, bindsAtLeast_zero, start_bind, tier, start_bind,
    bind_congr hfirst fun _ _ _ => rfl, bind_assoc]
  refine bind_congr rfl fun first d hrun => ?_
  obtain ⟨hd, -⟩ := hoperand c hc first d hrun
  have hitem : ∀ c, c.Ended →
      (c.current.kind.isMultiplicative || c.current.kind.isAdditive) = true →
      Shortens (do
        let ((o, t), operatorEnd) ← closing operator
        let (right, operandEnd) ← closing (climb operand 1 (rightPower t.kind))
        return (⟨o, t.span, operatorEnd, right, operandEnd⟩ : Operation)) file c := by
    intro c hc h o d hrun
    by_cases hm : c.current.kind.isMultiplicative = true
    · rw [operation_of_climb (hmul c hm)] at hrun
      exact operation_shortens hoperand hc (ne_eof_of_isMultiplicative hm) o d hrun
    · have ha : c.current.kind.isAdditive = true := by simpa [hm] using h
      rw [operation_of_climb (hadd c ha)] at hrun
      exact operation_shortens htier hc (ne_eof_of_isAdditive ha) o d hrun
  rw [bind_congr (many_or hitem (fun c _ h => operation_of_climb (hmul c h))
    (fun c _ h => operation_of_climb (hadd c h)) ?_ hd) fun _ _ _ => rfl]
  · simp only [bind_assoc, pure_bind, List.foldl_append]
  · intro c o d hc h hrun
    rw [operation_of_climb (hadd c h)] at hrun
    obtain ⟨-, -, -, hrun, -⟩ := operation_eq_done hrun
    exact (tier_stops rfl hoperand (hc.advance (ne_eof_of_isAdditive h)) hrun).1

end

section

variable {inner : Parser (Ty Span)}

theorem closing_bind (p : Parser α) (k : α × (Int → Span) → Parser β) :
    (closing p >>= k) = (do
      let a ← p
      let f ← close
      k (a, f)) := by
  simp only [closing, bind_assoc, pure_bind]

theorem typeWithin_eq (hitem : ∀ c, c.Ended → (typeApplication inner).Shortens file c)
    (hc : c.Ended) :
    typeWithin inner file c =
      (do
        if ← test (·.isAt .kwForall) then quantified inner
        else
          let s ← start
          let t ← typeApplication inner
          if ← test (·.isAt .arrow) then
            let _ ← advance
            let rest ← typeWithin inner
            return .arrow t rest (← spanFrom s)
          else return t : Parser _) file c := by
  have hclose : ∀ c, typeWithin inner file c = (do
      let x ← arrows inner
      let f ← close
      return x.1.foldr (fun p rest => .arrow p.2 rest (f p.1)) x.2 : Parser _) file c := by
    intro c
    rw [typeWithin, closing_bind]
  rw [hclose, bind_congr (arrows_eq hitem hc) fun _ _ _ => rfl, bind_assoc, test_bind, test_bind]
  by_cases hforall : c.isAt .kwForall = true
  · rw [if_pos hforall, if_pos hforall, bind_assoc, bind_apply]
    cases quantified inner file c <;> rfl
  · rw [if_neg hforall, if_neg hforall, bind_assoc, start_bind, start_bind, bind_assoc]
    refine bind_congr rfl fun t d _ => ?_
    rw [bind_assoc, test_bind, test_bind]
    by_cases harrow : d.isAt .arrow = true
    · rw [if_pos harrow, if_pos harrow, bind_assoc, advance_bind, advance_bind, bind_assoc]
      rw [bind_apply, bind_apply, hclose, bind_apply]
      cases arrows inner file d.advance <;> rfl
    · rw [if_neg harrow, if_neg harrow]
      rfl

end

end Parser
end TinyFront
