import TinyFront.Proofs.Operands
import TinyFront.Proofs.RoundTrip
import TinyFront.Proofs.Standing

/-!
Parentheses in a layout. Main statement: without a pair of them the text is not read as the same tree,
unless the pair is around a lambda that is an operand, or an argument that is selected from a group, and
this reaches just as far without it.
-/
namespace TinyFront

open Forest Sign

namespace Sign

variable {as bs ss ts : List Sign}

/-- Signs that leave nothing open and close nothing end where what is open around them is closed. -/
theorem balanced_unique (has : nest 0 as = some 0) (hbs : nest 0 bs = some 0)
    (h : as ++ closing :: ss = bs ++ closing :: ts) : as = bs ∧ ss = ts := by
  have hlonger : ∀ {as bs us : List Sign}, nest 0 as = some 0 → nest 0 bs = some 0 →
      bs = as ++ us → closing :: ss = us ++ closing :: ts ∨ closing :: ts = us ++ closing :: ss →
        us = [] := by
    rintro as _ us has hbs rfl h
    cases us with
    | nil => rfl
    | cons u us =>
      have hu : u = closing := by rcases h with h | h <;> exact (List.cons.inj h).1.symm
      rw [nest_append, has, hu] at hbs
      cases hbs
  obtain ⟨us, hus, h⟩ | ⟨us, hus, h⟩ := List.append_eq_append_iff.1 h
  · obtain rfl := hlonger has hbs hus (.inl h)
    simp_all
  · obtain rfl := hlonger hbs has hus (.inr h)
    simp_all

end Sign

namespace Forest

variable {f g : Forest} {as bs cs rest : List Lexeme}

/-- Signs between a sign that opens and one that closes are those of a pair. -/
theorem has_of_signs {us vs ws : List Sign} (hsigns : g.signs = us ++ .opening :: (vs ++ .closing :: ws))
    (hvs : nest 0 vs = some 0) (hne : vs ≠ []) : ∃ r i, vs = i.signs ∧ Has r i g us ws := by
  obtain hhead | ⟨r, i, cs, hcs, h⟩ := exists_has hsigns
  · rcases vs with _ | ⟨v, vs⟩
    · contradiction
    · obtain rfl : v = closing := by simpa using hhead
      cases hvs
  · have hbalanced := nest_signs i 0 []
    rw [List.append_nil] at hbalanced
    obtain ⟨rfl, rfl⟩ := balanced_unique hvs hbalanced hcs
    exact ⟨r, i, rfl, h⟩

theorem eq_unit {f : Forest} (hf : f.Clean) (h : f.signs = [.opening, .closing]) : f = .unit .nil := by
  cases f with
  | nil | word w f => simp [signs] at h
  | unit f => cases f <;> simp [signs] at h ⊢
  | pair r i f =>
    simp only [signs, List.cons.injEq, true_and] at h
    exact absurd (by rw [h]; rfl) (head_signs_append hf.1 (.closing :: f.signs))

/-- A unit is more than nothing. -/
theorem not_covers_of_unit {b : Bool} {us ws : List Sign} (hg : g.Clean) (hw : g.Every Warranted b)
    (hsigns : g.signs = us ++ .opening :: .closing :: ws) (hf : f.plain.signs = us ++ ws) :
    ¬ f.Covers g := by
  intro h
  have hmeet : us.getLast? = some opening → ws.head? ≠ some closing := by
    intro hlast hhead
    obtain ⟨us, rfl⟩ := List.getLast?_eq_some_iff.1 hlast
    obtain ⟨ws, rfl⟩ := List.head?_eq_some_iff.1 hhead
    have hinside : g.signs = us ++ .opening :: ([.opening, .closing] ++ .closing :: ws) := by
      simpa using hsigns
    obtain ⟨r, i, hi, h⟩ := has_of_signs hinside rfl (by simp)
    exact (h.every hw).unit (eq_unit (h.clean hg).2 hi.symm)
  have hleaves := leaves_signs hg []
  have hleaves' := leaves_signs h.clean.plain []
  rw [List.append_nil] at hleaves hleaves'
  rw [hsigns, leaves_unit hmeet, ← hf, hleaves', weight_plain] at hleaves
  have := h.weight
  omega

/-! A layout beside what is read from its signs without one of its pairs. -/

section

variable {us vs : List Sign} {i : Forest}

theorem weight_of_insert (hg : g.Clean) (hf : f.Clean) (hi : i.Clean) (hpos : 0 < i.weight)
    (hsigns : g.signs = us ++ .opening :: (i.signs ++ .closing :: vs))
    (hplain : f.plain.signs = us ++ (i.signs ++ vs)) : f.weight = g.weight := by
  have hleaves := leaves_signs hg []
  have hleaves' := leaves_signs hf.plain []
  rw [List.append_nil] at hleaves hleaves'
  rw [hsigns, leaves_insert hi hpos, ← hplain, hleaves', weight_plain] at hleaves
  exact Nat.add_right_cancel hleaves

theorem operators_of_insert (hsigns : g.signs = us ++ .opening :: (i.signs ++ .closing :: vs))
    (hplain : f.plain.signs = us ++ (i.signs ++ vs)) : f.operators = g.operators := by
  rw [← operators_plain, ← count_signs, ← count_signs, hplain, hsigns]
  simp

/-- The needed pairs of what is read are those that are left of the layout. -/
theorem places_of_insert (hg : g.Clean) (hf : f.Clean) (hi : i.Clean) (hpos : 0 < i.weight)
    (hsigns : g.signs = us ++ .opening :: (i.signs ++ .closing :: vs))
    (hplain : f.plain.signs = us ++ (i.signs ++ vs)) :
    g.places (fun _ => true) 0 = (leaves us, leaves us + i.weight) ::ₘ f.places (· == .needed) 0 := by
  have hall := places_insert hi hpos us vs 0 []
  have hg' := places_signs hg 0 [] []
  have hf' := places_signs hf.plain 0 [] []
  rw [List.append_nil] at hg' hf'
  rw [← hsigns, ← hplain, hg', hf', places_plain] at hall
  simpa [Sign.places] using hall

end

/-- A needed pair of a layout is around words that are in a needed pair once less often without it. -/
theorem not_needed_of_insert {b : Bool} {x : Nat × Nat} (hg : g.Clean) (hw : g.Every Warranted b)
    (hx : x ∈ g.places (· == .needed) 0)
    (hneeded : g.places (· == .needed) 0 ≤ f.places (· == .needed) 0) :
    g.places (fun _ => true) 0 ≠ x ::ₘ f.places (· == .needed) 0 := by
  intro hplaces
  have hspare : x ∉ g.places (fun r => !(r == .needed)) 0 := by
    intro hspare
    obtain ⟨r, hr, hspare⟩ := exists_reason hspare
    simp [needed_of_mem_places hg hw hx hspare] at hr
  -- the place stands on the left as often as in what is read, which has one more on the right
  have hcount := congrArg (Multiset.count x) hplaces
  rw [← places_add_not (· == .needed), Multiset.count_add, Multiset.count_eq_zero.2 hspare,
    Multiset.count_cons_self] at hcount
  have := Multiset.count_le_of_le x hneeded
  omega

/-- Where something was read at the place of a pair that is left out, it is what was in the pair. -/
theorem holds_of_place {i : Forest} {r : Reason} (hi : i.signs = bs.map Lexeme.sign) (hclean : i.Clean)
    (hpos : 0 < i.weight) (hr : Warranted (endsAfter false (as.map Lexeme.sign)) r i)
    (hspare : r ≠ .needed) (hf : Traced false (as ++ bs ++ cs) rest f) (hfclean : f.Clean)
    (hmem : (leaves (as.map Lexeme.sign), leaves (as.map Lexeme.sign) + i.weight) ∈
      f.places (· == r) 0) : r.Holds (endsAfter false (as.map Lexeme.sign)) bs (cs ++ rest) := by
  obtain ⟨as', j, bs', cs', hxs, hj, hjclean, hsolid, hx, holds⟩ := hf.exists_place hfclean hspare hmem
  simp only [Nat.zero_add, Prod.mk.injEq] at hx
  obtain ⟨hleaves, hend⟩ := hx
  have hweight : i.weight = j.plain.weight := by
    rw [weight_plain]
    omega
  have hsame : as.map Lexeme.sign ++ (i.signs ++ cs.map Lexeme.sign) =
      as'.map Lexeme.sign ++ (j.plain.signs ++ cs'.map Lexeme.sign) := by
    rw [hi, hj, ← List.map_append, ← List.map_append, ← List.map_append, ← List.map_append,
      ← List.append_assoc, ← List.append_assoc, hxs]
  have hbegins : ((∃ w, i.signs.head? = some (.word w) ∧ 0 < w.weight) ∧
      ∃ w, j.plain.signs.head? = some (.word w) ∧ 0 < w.weight) ∨
      endsAfter false (as.map Lexeme.sign) = true ∧ endsAfter false (as'.map Lexeme.sign) = true := by
    cases r with
    | needed => contradiction
    | argument => exact .inr ⟨hr.argument rfl, holds.1⟩
    | lambda =>
      refine .inl ⟨(hr.lambda rfl).2, .other, ?_, by decide⟩
      rw [hj]
      cases bs' with
      | nil =>
        have hzero := leaves_signs hjclean.plain []
        rw [hj] at hzero
        simp [leaves] at hzero
        omega
      | cons x xs =>
        obtain rfl : x = TokenKind.pipe.lexeme := by simpa using holds.1
        rfl
  obtain ⟨has, hbs⟩ := part_unique hclean hjclean.plain hsame hpos hleaves hweight
    ⟨hr.ends hspare, hsolid false⟩ hbegins
  obtain ⟨rfl, hrest⟩ := List.append_inj (by simpa using hxs) (by simpa using congrArg List.length has)
  have hlength : bs.length = bs'.length := by
    simpa using congrArg List.length (hi.symm.trans (hbs.trans hj))
  obtain ⟨rfl, rfl⟩ := List.append_inj hrest hlength
  exact holds

/-- Where a pair of a layout can be left out, its words are read as an argument, or as a lambda that is
an operand. -/
theorem holds_of_covers (hg : g.Clean) (hw : g.Every Warranted false) (ho : g.Settled)
    (hsigns : g.signs = as.map Lexeme.sign ++
      .opening :: (bs.map Lexeme.sign ++ .closing :: cs.map Lexeme.sign))
    (hbs : nest 0 (bs.map Lexeme.sign) = some 0) (hf : Traced false (as ++ bs ++ cs) rest f)
    (h : f.Covers g) : bs ≠ [] ∧ ∃ r : Reason,
      (r = .argument ∧ endsAfter false (as.map Lexeme.sign) = true ∨
        r = .lambda ∧ endsAfter false (as.map Lexeme.sign) = false ∧
          ((as.map Lexeme.sign).getLast? = some (.word .operator) ∨
            prolongs ((cs ++ rest).map Lexeme.sign) = true)) ∧
      r.Holds (endsAfter false (as.map Lexeme.sign)) bs (cs ++ rest) := by
  have hplain : f.plain.signs =
      as.map Lexeme.sign ++ (bs.map Lexeme.sign ++ cs.map Lexeme.sign) := by
    simpa using hf.signs
  have hne : bs ≠ [] := by
    rintro rfl
    exact not_covers_of_unit hg hw hsigns hplain h
  refine ⟨hne, ?_⟩
  obtain ⟨r, i, hi, hhas⟩ := has_of_signs hsigns hbs (by simpa using hne)
  have hr := hhas.every hw
  obtain ⟨hpos, hclean⟩ := hhas.clean hg
  have hmem := hhas.mem_places hg 0
  rw [Nat.zero_add] at hmem
  rw [hi] at hsigns hplain
  obtain ⟨hneeded, hother⟩ := h.places (weight_of_insert hg h.clean hclean hpos hsigns hplain)
    (operators_of_insert hsigns hplain) 0
  have hplaces := places_of_insert hg h.clean hclean hpos hsigns hplain
  -- a needed pair would be missing, so it is one whose place is seen in what was read
  have hspare : r ≠ .needed := by
    rintro rfl
    exact not_needed_of_insert hg hw hmem hneeded hplaces
  have holds := holds_of_place hi.symm hclean hpos hr hspare hf h.clean (hother r hspare hmem)
  refine ⟨r, ?_, holds⟩
  cases r with
  | needed => contradiction
  | argument => exact .inl ⟨rfl, hr.argument rfl⟩
  | lambda =>
    have hoperand := hhas.operand (ho (rest.map Lexeme.sign) none)
    exact .inr ⟨rfl, (hr.lambda rfl).1, by simpa using hoperand⟩

end Forest

namespace Token

/-- The tokens leave no pair of parentheses open and close none that is opened before them. -/
def Balanced (ts : List Token) : Prop := Sign.nest 0 (ts.map (·.kind.sign)) = some 0

/-- Whether an operand can end behind the tokens. -/
def endOperand (ts : List Token) : Bool := Sign.endsAfter false (ts.map (·.kind.sign))

theorem signs_lexemes (ts : List Token) :
    (ts.map Token.lexeme).map Lexeme.sign = ts.map (·.kind.sign) := by
  rw [List.map_map]
  rfl

/-- What stands between the tokens is an operand: an operator is before it, or the expression goes on
behind it. -/
def AroundOperand (before behind : List Token) : Prop :=
  (before.map (·.kind.sign)).getLast? = some (.word .operator) ∨
    Sign.prolongs (behind.map (·.kind.sign)) = true

/-- A pair of parentheses that a layout has though its content is read to the same end without it:
around an argument that is a selection but can not stand bare, or around a lambda that is an operand. -/
def Spare (before inside behind : List Token) : Prop :=
  if endOperand before then
    ∃ depth, (Parser.argument depth).TakesJust Expr.isDetached (inside.map Token.lexeme)
      (behind.map Token.lexeme)
  else AroundOperand before behind ∧ inside.head?.map (·.kind) = some .pipe ∧
    ∃ depth, (Parser.lambda (Parser.expression depth)).TakesJust Expr.isLambda
      (inside.map Token.lexeme) (behind.map Token.lexeme)

theorem spare_of_holds {before inside behind : List Token} {r : Reason} (hne : inside ≠ [])
    (hr : r = .argument ∧ Sign.endsAfter false (before.map (·.kind.sign)) = true ∨
      r = .lambda ∧ Sign.endsAfter false (before.map (·.kind.sign)) = false ∧
        AroundOperand before behind)
    (holds : r.Holds (Sign.endsAfter false (before.map (·.kind.sign))) (inside.map Token.lexeme)
      (behind.map Token.lexeme)) : Spare before inside behind := by
  rw [Spare, endOperand]
  rcases hr with ⟨rfl, hends⟩ | ⟨rfl, hends, hoperand⟩
  · rw [if_pos hends]
    exact holds.2
  · rw [if_neg (by simp [hends])]
    refine ⟨hoperand, ?_, holds.2⟩
    cases inside with
    | nil => contradiction
    | cons x xs =>
      have hx : x.lexeme = TokenKind.pipe.lexeme := by simpa using holds.1
      exact congrArg (fun x => some (Prod.fst x)) hx

end Token

theorem TokenStream.without {as cs : List Token} {b : Token} (h : TokenStream (as ++ b :: cs))
    (hcs : cs ≠ []) : TokenStream (as ++ cs) where
  ended := by
    obtain ⟨us, e, hus, he⟩ := h.ended
    obtain ⟨cs, e', rfl⟩ := (List.eq_nil_or_concat cs).resolve_left hcs
    have hlast : (as ++ b :: cs) ++ [e'] = us ++ [e] := by simpa using hus
    obtain rfl : e' = e := by simpa using (List.append_inj' hlast rfl).2
    exact ⟨as ++ cs, e', by simp, he⟩
  last us t vs hus ht := by
    obtain ⟨ws, rfl, hws⟩ | ⟨ws, rfl, hws⟩ := List.append_eq_append_iff.1 hus
    · exact h.last (as ++ b :: ws) t vs (by simp [hws]) ht
    · cases ws with
      | nil => exact h.last (us ++ [] ++ [b]) t vs (by simpa using hws.symm) ht
      | cons w ws =>
        obtain ⟨rfl, -⟩ := List.cons.inj hws
        simpa using h.last us t (ws ++ b :: cs) (by simp) ht
  proper t ht := h.proper t (by
    rcases List.mem_append.1 ht with ht | ht
    · exact List.mem_append_left _ ht
    · exact List.mem_append_right _ (List.mem_cons_of_mem _ ht))

theorem TokenStream.unpaired {as bs cs : List Token} {x y : Token}
    (h : TokenStream (as ++ x :: (bs ++ y :: cs))) (hcs : cs ≠ []) : TokenStream (as ++ bs ++ cs) := by
  have hinner := h.without (by simp)
  rw [← List.append_assoc] at hinner
  exact hinner.without hcs

variable {depth : Nat} {form : Form} {file source : String} {t : Tree Span}

/-- Without a pair of parentheses that is not spare, a layout is not read as the same tree. -/
theorem bare_ne_of_parentheses (h : (Parser.tree depth form).runSource file source = .ok t)
    (indent : Nat) (file' : String) :
    ∃ ts, lex file' (t.format indent) = .ok ts ∧ ∀ before opening inside closing behind,
      ts = before ++ opening :: (inside ++ closing :: behind) → opening.kind = .lparen →
      closing.kind = .rparen → Token.Balanced inside → ¬ Token.Spare before inside behind →
      ∀ depth' file? u, (Parser.tree depth' form).run file? (before ++ inside ++ behind) = .ok u →
        u.bare ≠ t.bare := by
  obtain ⟨rfl, hwf⟩ := wellFormed_of_runSource h
  obtain ⟨xs, hspelled, -⟩ := Tree.spelled_of_wellFormed hwf
  obtain ⟨ts, hlex, hxs⟩ := lex_text hspelled file' indent
  refine ⟨ts, by rw [← t.format_bare]; exact hlex, ?_⟩
  rintro before opening inside closing behind rfl hopening hclosing hbalanced hspare depth' file? u hrun hu
  obtain ⟨behind, e, rfl⟩ : ∃ ds e, behind = ds ++ [e] := by
    obtain ⟨us, e, hus, he⟩ := (stream_of_lex hlex).ended
    rcases List.eq_nil_or_concat behind with rfl | ⟨ds, e, rfl⟩
    · have hlast : (before ++ opening :: inside) ++ [closing] = us ++ [e] := by simpa using hus
      obtain rfl : closing = e := by simpa using (List.append_inj' hlast rfl).2
      rw [hclosing] at he
      cases he
    · exact ⟨ds, e, List.concat_eq_append⟩
  have hlexemes : xs = (before ++ opening :: (inside ++ closing :: behind)).map Token.lexeme := by
    have hall : xs ++ [TokenKind.eof.lexeme] =
        (before ++ opening :: (inside ++ closing :: behind)).map Token.lexeme ++ [e.lexeme] := by
      rw [← hxs]
      simp
    exact (List.append_inj' hall rfl).1
  have hstream := (stream_of_lex hlex).unpaired (by simp)
  rw [← List.append_assoc] at hstream hrun
  obtain ⟨f, hf, hcovers⟩ := traced_of_run hstream hrun
  rw [hu] at hcovers
  rw [List.map_append, List.map_append] at hf
  have hsigns : t.bare.nests.signs = (before.map Token.lexeme).map Lexeme.sign ++
      .opening :: ((inside.map Token.lexeme).map Lexeme.sign ++
        .closing :: (behind.map Token.lexeme).map Lexeme.sign) := by
    have hsign : ∀ x : Token, Lexeme.sign x.lexeme = x.kind.sign := fun _ => rfl
    rw [← Tree.signs_marks hwf, hspelled.signs, hlexemes]
    simp [hsign, hopening, hclosing, TokenKind.sign]
  obtain ⟨hclean, hwarranted⟩ := Tree.kept hwf
  obtain ⟨hne, r, hr, holds⟩ := holds_of_covers hclean hwarranted (Tree.settled hwf) hsigns
    (by rw [Token.signs_lexemes]; exact hbalanced) hf hcovers
  have hbehind : behind.map Token.lexeme ++ [e.lexeme] = (behind ++ [e]).map Token.lexeme := by simp
  rw [hbehind, Token.signs_lexemes] at hr holds
  rw [Token.signs_lexemes] at hr
  exact hspare (Token.spare_of_holds (by simpa using hne) hr holds)

theorem bare_ne_of_group : ∃ t ts, (Parser.tree 3 .expression).runSource "a" "(1+2)*3" = .ok t ∧
    lex "b" (t.format 4) = .ok ts ∧ ∀ depth u,
      (Parser.tree depth .expression).run none (ts.eraseIdx 4).tail = .ok u → u.bare ≠ t.bare := by
  obtain ⟨t, h⟩ : ∃ t, (Parser.tree 3 .expression).runSource "a" "(1+2)*3" = .ok t :=
    exists_of_isOk (by decide +kernel)
  have hformat : t.format 4 = "(1 + 2) * 3" := by
    have hall : ((Parser.tree 3 .expression).runSource "a" "(1+2)*3").toOption.map (Tree.format 4) =
        some "(1 + 2) * 3" := by decide +kernel
    rw [h] at hall
    exact Option.some.inj hall
  obtain ⟨ts, hlex, hpairs⟩ := bare_ne_of_parentheses h 4 "b"
  refine ⟨t, ts, h, hlex, fun depth u => ?_⟩
  have hts : lex "b" "(1 + 2) * 3" = .ok _ := rfl
  rw [hformat, hts] at hlex
  obtain rfl := Except.ok.inj hlex
  refine hpairs [] _ [_, _, _] _ [_, _, _] rfl rfl rfl rfl ?_ depth none u
  rintro ⟨-, hpipe, -⟩
  cases hpipe

/-- The pair around a lambda that is an operand can be left out where nothing follows it. -/
theorem lambda_parentheses_spare : ∃ t ts u, ∃ before inside behind : List Token, ∃ opening closing : Token,
    (Parser.tree 3 .expression).runSource "a" "1 + |x| x" = .ok t ∧
      lex "a" (t.format 4) = .ok ts ∧ ts = before ++ opening :: (inside ++ closing :: behind) ∧
      opening.kind = .lparen ∧ closing.kind = .rparen ∧ Token.Balanced inside ∧
      (Parser.tree 3 .expression).run (some "a") (before ++ inside ++ behind) = .ok u ∧
      u.bare = t.bare := by
  obtain ⟨t, h⟩ : ∃ t, (Parser.tree 3 .expression).runSource "a" "1 + |x| x" = .ok t :=
    exists_of_isOk (by decide +kernel)
  have hformat : t.format 4 = "1 + (|x| x)" := by
    have hall : ((Parser.tree 3 .expression).runSource "a" "1 + |x| x").toOption.map (Tree.format 4) =
        some "1 + (|x| x)" := by decide +kernel
    rw [h] at hall
    exact Option.some.inj hall
  obtain ⟨before, inside, behind, opening, closing, hlex, hopening, hclosing, hbalanced, hbehind, hrun⟩ :
      ∃ before inside behind : List Token, ∃ opening closing : Token,
        lex "a" "1 + (|x| x)" = .ok (before ++ opening :: (inside ++ closing :: behind)) ∧
          opening.kind = .lparen ∧ closing.kind = .rparen ∧ Token.Balanced inside ∧ behind ≠ [] ∧
          ((Parser.tree 3 .expression).run (some "a") (before ++ inside ++ behind)).toOption.map
            (Tree.format 4) = some "1 + (|x| x)" :=
    ⟨[_, _], [_, _, _, _], [_], _, _, rfl, rfl, rfl, rfl, by simp, by decide +kernel⟩
  have hstream := (stream_of_lex hlex).unpaired hbehind
  generalize hu : (Parser.tree 3 .expression).run (some "a") (before ++ inside ++ behind) = result at hrun
  cases result with
  | error e => cases hrun
  | ok u =>
    rw [← hformat] at hlex
    obtain ⟨hform, hwf⟩ := wellFormed_of_runSource h
    obtain ⟨hform', hwf'⟩ := wellFormed_of_run hstream hu
    have hsame : u.format 4 = t.format 4 := (Option.some.inj hrun).trans hformat.symm
    refine ⟨t, _, u, before, inside, behind, opening, closing, h, hlex, rfl, hopening, hclosing,
      hbalanced, hu, Tree.eq_of_format_eq hwf' hwf ?_ 4 ?_⟩
    · rw [u.form_bare, t.form_bare, hform, hform']
    · rw [u.format_bare, t.format_bare, hsame]

end TinyFront
