import TinyFront.Proofs.Reading
import TinyFront.Proofs.Traces

/-!
Reading goes through the pairs that the layout has. Main statement: the words and pairs that the parser
of a category went through stand for the tree that it answers with. The parsers are taken in the order
in which they call each other, as for soundness.
-/
namespace TinyFront

open Grammar

namespace Forest

/-- What is selected from an expression stands for the selection. -/
def Selected (f : Forest) (x : Parser.Suffix) : Prop :=
  ∀ (g : Forest) (e : Expr Unit), g.Stands e .primary →
    (g ++ f).Stands (x.bare e) .primary ∧ (x.bare e).isSelection = true

theorem Stands.selected (parts : List (Forest × Parser.Suffix)) {P : Forest → Expr Unit → Prop}
    (h : ∀ p ∈ parts, p.1.Selected p.2) {f : Forest} {e : Expr Unit} (hf : f.Stands e .primary)
    (hP : P f e ∨ e.isSelection = true) :
    (f ++ row (parts.map (·.1))).Stands (parts.foldl (fun e p => p.2.bare e) e) .primary ∧
      (P (f ++ row (parts.map (·.1))) (parts.foldl (fun e p => p.2.bare e) e) ∨
        (parts.foldl (fun e p => p.2.bare e) e).isSelection = true) := by
  induction parts generalizing f e with
  | nil => simpa [row] using ⟨hf, hP⟩
  | cons p ps ih =>
    obtain ⟨hp, hps⟩ := List.forall_mem_cons.1 h
    obtain ⟨hstands, hselection⟩ := hp f e hf
    simpa [row, append_assoc] using ih hps hstands (.inr hselection)

theorem Stands.applied (parts : List (Forest × Expr Unit)) (h : ∀ p ∈ parts, p.1.Argues p.2)
    {f : Forest} {e : Expr Unit} (hf : f.Stands e .application) :
    (f ++ row (parts.map (·.1))).Stands (parts.foldl (fun e p => .apply e p.2 ()) e) .application := by
  induction parts generalizing f e with
  | nil => simpa [row] using hf
  | cons p ps ih =>
    obtain ⟨hp, hps⟩ := List.forall_mem_cons.1 h
    simpa [row, append_assoc] using ih hps (hf.apply hp)

theorem Stands.operated {s : Strength} (parts : List (Forest × Operator × Expr Unit))
    (h : ∀ p ∈ parts, p.2.1.strength = s ∧ ∃ g, p.1 = word .operator g ∧
      g.Stands p.2.2 p.2.1.rightStrength)
    {f : Forest} {e : Expr Unit} (hf : f.Stands e s) :
    (f ++ row (parts.map (·.1))).Stands
      (parts.foldl (fun e p => infixed e (p.2.1, [], p.2.2)) e) s := by
  induction parts generalizing f e with
  | nil => simpa [row] using hf
  | cons p ps ih =>
    obtain ⟨⟨rfl, g, hg, hp⟩, hps⟩ := List.forall_mem_cons.1 h
    rw [List.map_cons, row, ← append_assoc, List.foldl_cons, hg]
    exact ih hps (hf.operation hp)

theorem Stands.tuple {es : List (Expr Unit)} {f : Forest} (hne : es ≠ []) (hf : 0 < f.weight)
    (h : f.Covers (separated (es.map Expr.nests))) :
    (Forest.enclosed .needed f).Stands (.tuple es ()) .primary := by
  refine .of_covers (by simpa using hf) (fun _ => rfl) ?_ (Nat.le_refl _) rfl
  rw [Expr.nests, Expr.nestsAll_eq_map]
  rcases es with _ | ⟨e, _ | ⟨e', es⟩⟩
  · contradiction
  · have hall : (f ++ .nil).Covers (e.nests ++ single .separator) :=
      h.append Covers.nil.separator_right
    rw [append_nil] at hall
    exact hall.enclosed .needed hf
  · exact h.enclosed .needed hf

theorem Stands.block {t : List (Statement Unit)} {g : Forest}
    (h : (Forest.word .brace (g ++ .single .closer)).Covers (Expr.block t ()).nests) :
    (Forest.word .brace (g ++ .single .closer)).Stands (.block t ()) .primary :=
  .of_covers (Nat.lt_of_lt_of_le Nat.zero_lt_one (Nat.le_add_right _ _))
    (((Solid.single rfl).append g).word .brace) h (Nat.le_refl _) rfl

theorem Covers.caseOf {f g : Forest} {e : Expr Unit} {cs : List (Clause Unit)} (hf : f.Covers e.nests)
    (hg : g.Covers (separated (cs.map Clause.phrase))) :
    (Forest.word .other (f ++ .word .brace (g ++ .single .closer))).Stands (.caseOf e cs ())
      .primary := by
  refine .of_covers (Nat.lt_of_lt_of_le Nat.zero_lt_one (Nat.le_add_right _ _))
    (((((Solid.single rfl).append g).word .brace).append f).word .other) ?_ (Nat.le_refl _) rfl
  rw [Expr.nests, Clause.nestsAll_eq_map]
  have hclauses := hg.terminated
  rw [List.map_map, List.map_congr_left fun c _ => c.nests_eq.symm] at hclauses
  exact (hf.append ((hclauses.append (.single .closer)).word .brace)).word .other

theorem Stands.ifLet {f g h k : Forest} {p : Pattern Unit} {e t l : Expr Unit} {s : Strength}
    (hk : k.Stands l s) (hf : f.Covers (p.nests false)) (hg : g.Covers e.nests)
    (hh : h.Covers t.nests) :
    (Forest.word .other (.word .other (f ++ .word .assign (g ++ (h ++ .word .other k))))).Stands
      (.ifLet p e t l ()) .primary := by
  refine .of_covers (Nat.lt_of_lt_of_le Nat.zero_lt_one (Nat.le_add_right _ _))
    (((((((hk.solid.word .other).append h).append g).word .assign).append f).word .other).word .other)
    ?_ (Nat.le_refl _) rfl
  rw [Expr.nests]
  exact ((hf.append ((hg.append (hh.append (hk.nests.word .other))).word .assign)).word .other).word
    .other

/-- Braces around nothing are the block of a unit. -/
theorem Covers.unitBlock {f : Forest} {ss : List (Statement Unit)}
    (h : f.Covers (separated (ss.map Statement.nests))) :
    (Forest.word .brace (f ++ .single .closer)).Covers (Expr.block ss ()).nests := by
  rw [Expr.nests, Statement.nestsAll_eq_map]
  split
  · rename_i hunit
    rw [Expr.isUnitBlock_eq hunit] at h
    have hweight : 1 ≤ f.weight := h.weight
    have hoperators : f.operators ≤ 0 := h.operators
    have hnil : f.Covers .nil :=
      ⟨h.clean, Nat.zero_le _, hoperators, fun (hw : f.weight = 0) => by omega⟩
    exact (hnil.append (.single .closer)).word .brace
  · exact (h.append (.single .closer)).word .brace

end Forest

namespace Parser

variable {file : String} {b : Bool} {c : Cursor}

/-- What is read stands for the expression where one is asked for that holds together so tightly. -/
def Stands (p : Parser (Expr Span)) (s : Strength) : Prop :=
  ∀ b file c, TokenStream c.remaining → p.Traces b file c fun f e => f.Stands e.bare s

theorem pattern_traces {pat : Parser (Pattern Span)}
    (hp : pat.Sound (.element .pattern) Pattern.bare) (hc : TokenStream c.remaining) :
    pat.Traces b file c fun f p => f.Covers (p.bare.nests false) ∧ 0 < f.weight ∧ f.Solid :=
  .of_drawn ((hp file c hc).mono fun _ _ h => h.drawn)

theorem type_traces {ty : Parser (Ty Span)} (ht : ty.Sound (.element .type) Ty.bare)
    (hc : TokenStream c.remaining) :
    ty.Traces b file c fun f t => f.Covers (t.bare.nests .top) ∧ 0 < f.weight ∧ f.Solid :=
  .of_drawn ((ht file c hc).mono fun _ _ h => h.drawn)

theorem collapse_stands {f : Forest} {es : List (Expr Span)} {trailing : Bool} (s : Span)
    (hne : es ≠ []) (hf : 0 < f.weight) (h : f.Covers (.separated (es.map fun e => e.bare.nests)))
    (hsingle : ∀ e, (es, trailing) = ([e], false) → f.Stands e.bare .top) :
    (Forest.enclosed .needed f).Stands (collapse .expression es trailing s).bare .primary ∧
      (Forest.enclosed .needed f).Loose (collapse .expression es trailing s).bare := by
  have htuple : (Forest.enclosed .needed f).Stands (Family.expression.ofTuple es s).bare .primary := by
    rw [Family.expression_agrees.tuple]
    exact .tuple (by simpa using hne) hf (by rwa [List.map_map])
  rcases es with _ | ⟨e, _ | ⟨e', es⟩⟩
  · contradiction
  · cases trailing with
    | false => exact ⟨(hsingle e rfl).enclosed, .enclosed hf (hsingle e rfl).nests⟩
    | true => exact ⟨htuple, fun h => by cases h⟩
  · exact ⟨htuple, fun h => by cases h⟩

theorem number_traces {cat : Category} {t : Token} (hc : TokenStream c.remaining) :
    (number cat t).Traces b file c fun f _ => f = .nil := by
  intro n c' hrun
  obtain ⟨hs, xs, hxs, rfl, -⟩ := number_ensures (k := .expression) hc n c' hrun
  exact ⟨hs, [], .nil, hxs, .nil _ _, rfl⟩

theorem leaf_traces (hc : TokenStream c.remaining) :
    (leaf Family.expression).Traces b file c fun f l =>
      f = .single .ender ∧ l.nests = .single .ender := by
  unfold leaf
  refine .current ?_
  split
  · rename_i hk
    refine (Traces.advance_symbol hc hk rfl rfl).bind fun f _ d hd hf => .pure hd ?_
    exact ⟨by rw [hf]; rfl, rfl⟩
  · rename_i hk
    refine (Traces.advance_word hc hk (by decide) rfl).bind fun f _ d hd hf => ?_
    refine (number_traces hd).bind fun g n d hd hg => .pure hd ⟨by rw [hf, hg]; rfl, rfl⟩
  · rename_i hk
    refine (Traces.advance_word hc hk (by decide) rfl).bind fun f _ d hd hf => .pure hd ?_
    exact ⟨by rw [hf]; rfl, rfl⟩
  · rename_i hk
    refine (Traces.advance_word hc hk (by decide) rfl).bind fun f _ d hd hf => .pure hd ?_
    exact ⟨by rw [hf]; rfl, rfl⟩
  · rename_i hk
    refine (Traces.advance_word hc hk (by decide) rfl).bind fun f _ d hd hf => .pure hd ?_
    exact ⟨by rw [hf]; rfl, rfl⟩
  · exact .unexpected

section

variable {depth : Nat} (hi : (expression depth).Stands .top) {pat : Parser (Pattern Span)}
  (hp : pat.Sound (.element .pattern) Pattern.bare)

include hi

theorem fieldValue_traces (hc : TokenStream c.remaining) :
    (fieldValue (expression depth)).Traces b file c fun f d =>
      f.Covers d.bare.nests ∧ 0 < f.weight := by
  unfold fieldValue
  refine .located ((Traces.expect_word hc (by decide) rfl).bind fun f _ d hd hf => ?_)
  refine (Traces.expect_symbol hd rfl rfl).bind fun g _ d hd hg => ?_
  refine (hi _ file d hd).bind fun h value d hd hh => .pure hd fun s => ?_
  rw [hf, hg, Forest.append_nil]
  exact ⟨(hh.nests.word .assign).word .ender, Nat.lt_of_lt_of_le Nat.zero_lt_one (Nat.le_add_right _ _)⟩

theorem suffix_traces (hc : TokenStream c.remaining) (hs : startsSuffix c = true) :
    (suffix (expression depth)).Traces b file c Forest.Selected := by
  unfold suffix
  simp only [startsSuffix, Bool.or_eq_true] at hs
  by_cases hk : c.current.kind = .dot
  · refine .step hc hk (by decide) rfl fun hd => ?_
    rw [if_pos hk]
    refine (Traces.expect_word hd (by decide) rfl).bind fun f t d hd hf => .pure hd ?_
    rw [hf, Forest.append_nil]
    exact fun g e hg => ⟨hg.access, rfl⟩
  · obtain ⟨hk', -⟩ :=
      listEnds_advance_of_startsRecord (hs.resolve_left (by simpa [Cursor.isAt] using hk))
    refine .step hc hk' (by decide) rfl fun hd => ?_
    rw [if_neg hk]
    refine (Traces.commas (k := fun d => d.bare.nests) (fun _ _ h => h) hd
      fun b c hc => fieldValue_traces hi hc).bind fun f x d hd hf => ?_
    obtain ⟨fields, trailing⟩ := x
    refine (Traces.expectClosing hd rfl rfl).bind fun f' _ d hd hf' => .pure hd ?_
    rw [hf', Forest.append_nil]
    refine fun g e hg => ⟨hg.record ?_, rfl⟩
    rw [List.map_map]
    exact hf.1

theorem withSuffixes_traces {operand : Parser (Expr Span)} {P : Forest → Expr Unit → Prop}
    (ho : operand.Traces b file c fun f e => f.Stands e.bare .primary ∧ P f e.bare) :
    (withSuffixes (expression depth) operand).Traces b file c fun f e =>
      f.Stands e.bare .primary ∧ (P f e.bare ∨ e.bare.isSelection = true) := by
  unfold withSuffixes
  refine .start (ho.bind fun f e d hd he => ?_)
  refine (Traces.many (B := fun _ => True) hd trivial (fun _ _ _ _ _ => trivial)
    fun b c _ hc hs => (suffix_traces hi hc hs).closing).bind fun g suffixes d hd hg => .pure hd ?_
  obtain ⟨parts, rfl, rfl, hparts⟩ := hg
  have h := he.1.selected (P := P) (parts.map fun p => (p.1, p.2.1))
    (List.forall_mem_map.2 hparts) (.inl he.2)
  rw [Forest.append_nil, bare_foldl_suffix]
  simpa [List.foldl_map, Function.comp_def] using h

theorem atom_traces (hc : TokenStream c.remaining) :
    (atom .expression (expression depth)).Traces b file c fun f e =>
      f.Stands e.bare .primary ∧ f.Loose e.bare := by
  unfold atom
  refine .current ?_
  split
  · rename_i hk
    unfold parenthesised
    refine .located (.enclosed (P := fun f x => f.Covers (.separated (x.1.map fun e => e.bare.nests)) ∧
      (x.1 = [] → f = .nil) ∧ (x.1 ≠ [] → 0 < f.weight) ∧ ∀ e, x = ([e], false) →
        f.Stands e.bare .top) hc hk (fun c hc => ?_) ?_)
    · exact Traces.commas (fun f e h => ⟨h.nests, h.positive⟩) hc fun b c hc => hi b file c hc
    · rintro f ⟨es, trailing⟩ ⟨hcovers, hnil, hpos, hsingle⟩
      cases es with
      | nil =>
        refine .inl ⟨hnil rfl, fun s => ⟨.of_covers (by decide) (fun _ => rfl) ?_ (Nat.le_refl _) rfl,
          fun h => by cases h⟩⟩
        exact Forest.Covers.nil.unit
      | cons e es => exact .inr fun s => collapse_stands s (by simp) (hpos (by simp)) hcovers hsingle
  · refine (leaf_traces hc).bind fun f l d hd hf => .pure hd ?_
    rw [hf.1, Forest.append_nil]
    refine ⟨.of_covers (by decide) (.single rfl) ?_ (Nat.le_refl _) rfl, fun h => by cases h⟩
    show (Forest.single .ender).Covers l.nests
    rw [hf.2]
    exact .single _

theorem argument_traces (hc : TokenStream c.remaining) :
    (argument depth).Traces true file c fun f e => f.Argues e.bare := by
  refine (Traces.place (r := .argument) (by simp) (fun xs rest h _ => ⟨rfl, depth, h⟩)
    (fun f e h => h.1.solid) (withSuffixes_traces hi (atom_traces hi hc))).mono ?_
  rintro f e ⟨g, rfl, hg, hl⟩
  rw [← e.isDetached_bare]
  exact hg.argues hl

theorem lambda_traces (hc : TokenStream c.remaining) (hk : c.current.kind = .pipe) (s : Strength) :
    (lambda (expression depth)).Traces b file c fun f e => f.Stands e.bare s := by
  have hread : (lambda (expression depth)).Traces b file c fun f e => ∃ g n body,
      f = .word .other (.word .ender (.word .other g)) ∧ g.Stands body .top ∧
        e.bare = .lambda n body () := by
    unfold lambda
    refine .located ((Traces.advance_symbol hc hk rfl rfl).bind fun f _ d hd hf => ?_)
    refine (Traces.expect_word hd (by decide) rfl).bind fun f' param d hd hf' => ?_
    refine (Traces.expect_symbol hd rfl rfl).bind fun f'' _ d hd hf'' => ?_
    refine (hi _ file d hd).bind fun g body d hd hg => .pure hd fun s => ?_
    rw [hf, hf', hf'', Forest.append_nil]
    exact ⟨g, param.text, body.bare, rfl, hg, rfl⟩
  refine (Traces.place (r := .lambda) (by simp) (fun xs rest h hlex => ⟨?_, depth, h⟩) ?_ hread).mono ?_
  · rw [hlex]
    exact congrArg some (hc.lexeme_of_isAt hk rfl)
  · rintro f e ⟨g, n, body, rfl, hg, -⟩
    exact ((hg.solid.word .other).word .ender).word .other
  · rintro f e ⟨f, rfl, g, n, body, rfl, hg, he⟩
    rw [← e.isLambda_bare, he]
    exact hg.lambda

section

include hp

theorem clause_traces (hc : TokenStream c.remaining) :
    (clause (expression depth) pat).Traces b file c fun f d => f.Covers d.bare.phrase ∧ 0 < f.weight := by
  unfold clause
  refine .located ((pattern_traces hp hc).bind fun f p d hd hf => ?_)
  refine (Traces.expect_symbol hd rfl rfl).bind fun f' _ d hd hf' => ?_
  refine (hi _ file d hd).bind fun g body d hd hg => .pure hd fun s => ?_
  rw [hf', Forest.append_nil]
  refine ⟨?_, by rw [Forest.weight_append]; omega⟩
  show (f ++ .word .other g).Covers (p.bare.nests false ++ .word .other body.bare.nests)
  exact hf.1.append (hg.nests.word .other)

theorem caseOf_traces (hc : TokenStream c.remaining) (hk : c.current.kind = .kwMatch) :
    (caseOf (expression depth) pat).Traces b file c fun f e => f.Stands e.bare .primary := by
  unfold caseOf
  refine .located ((Traces.advance_symbol hc hk rfl rfl).bind fun f _ d hd hf => ?_)
  refine (hi _ file d hd).bind fun g e d hd hg => ?_
  refine (Traces.expect_symbol hd rfl rfl).bind fun f' _ d hd hf' => ?_
  refine (Traces.commas (k := fun d => d.bare.phrase) (fun _ _ h => h) hd
    fun b c hc => clause_traces hi hp hc).bind fun h x d hd hh => ?_
  obtain ⟨clauses, trailing⟩ := x
  refine (Traces.expectClosing hd rfl rfl).bind fun f'' _ d hd hf'' => .pure hd fun s => ?_
  rw [hf, hf', hf'', Forest.append_nil, Expr.bare, Expr.map, Clause.mapAll_eq_map]
  exact hg.nests.caseOf (by rw [List.map_map]; exact hh.1)

theorem statement_traces (hc : TokenStream c.remaining) :
    (statement (expression depth) pat).Traces b file c fun f t => f.Covers t.bare.nests := by
  unfold statement
  refine .located (.test (fun hk => ?_) (fun _ => ?_))
  · refine (Traces.advance_symbol hc (Cursor.kind_of_isAt hk) rfl rfl).bind fun f _ d hd hf => ?_
    refine (pattern_traces hp hd).bind fun g p d hd hg => ?_
    refine (Traces.expect_symbol hd rfl rfl).bind fun f' _ d hd hf' => ?_
    refine (hi _ file d hd).bind fun h e d hd hh => .pure hd fun s => ?_
    rw [hf, hf', Forest.append_nil]
    show (Forest.word .other (g ++ .word .assign h)).Covers
      (.word .other (p.bare.nests false ++ .word .assign e.bare.nests))
    exact (hg.1.append (hh.nests.word .assign)).word .other
  · refine (hi _ file c hc).bind fun f e d hd hf => .pure hd fun s => ?_
    rw [Forest.append_nil]
    exact hf.nests

theorem statements_traces (hc : TokenStream c.remaining) :
    (statements (expression depth) pat).Traces b file c fun f ts =>
      f.Covers (.separated (ts.map fun t => t.bare.nests)) := by
  suffices hall : ∀ n b c, TokenStream c.remaining →
      (statementsUpTo (expression depth) pat n).Traces b file c fun f ts =>
        f.Covers (.separated (ts.map fun t => t.bare.nests)) from
    hall c.remaining.length b c hc
  intro n
  induction n with
  | zero => exact fun b c hc => .pure hc .nil
  | succ n ih =>
    intro b c hc
    unfold statementsUpTo
    refine (statement_traces hi hp hc).bind fun f t d hd hf => .test (fun hk => ?_) fun _ => .pure hd ?_
    · refine (Traces.advance_symbol hd (Cursor.kind_of_isAt hk) rfl rfl).bind fun f' _ d hd hf' => ?_
      rw [hf']
      refine .test (fun _ => .pure hd ?_) (fun _ => ?_)
      · exact hf.separated_cons .nil
      · refine (ih _ d hd).bind fun g ts d hd hg => .pure hd ?_
        rw [Forest.append_nil]
        exact hf.separated_cons hg
    · rw [Forest.append_nil]
      exact hf

theorem block_stands : (block (expression depth) pat).Stands .primary := by
  intro b file c hc
  unfold block
  refine .located ((Traces.expect_symbol hc rfl rfl).bind fun f _ d hd hf => ?_)
  rw [hf]
  refine .test (fun _ => .reject) (fun _ => .test (fun hk => ?_) (fun _ => ?_))
  · refine (Traces.advance_symbol hd (Cursor.kind_of_isAt hk) rfl rfl).bind fun f' _ d hd hf' => ?_
    refine .pure hd fun s => ?_
    rw [hf', Forest.append_nil]
    exact .block (t := [.expr (.leaf .unit ()) ()]) (g := .nil) ((Forest.Covers.single .closer).word .brace)
  · refine (statements_traces hi hp hd).bind fun g ts d hd hg => ?_
    refine (Traces.expectClosing hd rfl rfl).bind fun f' _ d hd hf' => .pure hd fun s => ?_
    rw [hf', Forest.append_nil, Expr.bare, Expr.map, Statement.mapAll_eq_map]
    exact .block (.unitBlock (by rw [List.map_map]; exact hg))

theorem ifLet_traces (hc : TokenStream c.remaining) (hk : c.current.kind = .kwIf) :
    (ifLet (expression depth) pat).Traces b file c fun f e => f.Stands e.bare .primary := by
  have hblock := block_stands hi hp
  unfold ifLet
  refine .located ((Traces.advance_symbol hc hk rfl rfl).bind fun f₁ _ d hd h₁ => ?_)
  refine (Traces.expect_symbol hd rfl rfl).bind fun f₂ _ d hd h₂ => ?_
  refine (pattern_traces hp hd).bind fun fp p d hd hfp => ?_
  refine (Traces.expect_symbol hd rfl rfl).bind fun f₃ _ d hd h₃ => ?_
  refine (hi _ file d hd).bind fun fe e d hd hfe => ?_
  refine (hblock _ file d hd).bind fun ft t d hd hft => ?_
  refine (Traces.expect_symbol hd rfl rfl).bind fun f₄ _ d hd h₄ => ?_
  refine (hblock _ file d hd).bind fun fl l d hd hfl => .pure hd fun s => ?_
  rw [h₁, h₂, h₃, h₄, Forest.append_nil]
  exact hfl.ifLet hfp.1 hfe.nests hft.nests

theorem primary_traces (hc : TokenStream c.remaining) :
    (primary (expression depth) pat).Traces b file c fun f e => f.Stands e.bare .primary := by
  unfold primary
  refine .current ?_
  split
  · rename_i hk
    exact lambda_traces hi hc hk _
  · rename_i hk
    exact ifLet_traces hi hp hc hk
  · rename_i hk
    exact caseOf_traces hi hp hc hk
  · exact block_stands hi hp b file c hc
  · refine .test (fun _ => ?_) (fun _ => .unexpected)
    exact (atom_traces hi hc).mono fun _ _ h => h.1

theorem application_stands : (application (expression depth) pat).Stands .application := by
  intro b file c hc
  unfold application
  have hcallee : (withSuffixes (expression depth) (primary (expression depth) pat)).Traces b file c
      fun f e => f.Stands e.bare .primary :=
    (withSuffixes_traces hi (P := fun _ _ => True)
      ((primary_traces hi hp hc).mono fun _ _ h => ⟨h, trivial⟩)).mono fun _ _ h => h.1
  refine .start (hcallee.bind fun f e d hd hf => ?_)
  rw [hf.solid]
  refine (Traces.many (B := (· = true)) (P := fun f (x : Expr Span × (Int → Span)) => f.Argues x.1.bare)
    hd rfl (fun f a b h _ => h.solid b) ?_).bind fun g arguments d hd hg => .pure hd ?_
  · rintro _ c rfl hc -
    exact (argument_traces hi hc).closing
  · obtain ⟨parts, rfl, rfl, hparts⟩ := hg
    have hcallee : f.Stands e.bare .application := hf.mono (by decide)
    have h := hcallee.applied
      (parts.map fun p => (p.1, p.2.1.bare)) (List.forall_mem_map.2 hparts)
    rw [Forest.append_nil, bare_foldl_argument]
    simpa [List.foldl_map, Function.comp_def] using h

end

end

theorem operation_traces {operand : Parser (Expr Span)} {t : Strength} (ho : operand.Stands t)
    (hc : TokenStream c.remaining) {o : Operator} (hk : c.current.kind = o.kind) :
    (operation operand).Traces b file c fun f x => x.operator = o ∧ ∃ g, f = .word .operator g ∧
      g.Stands x.operand.bare t := by
  have hne : c.current.kind ≠ .eof := by
    rw [hk]
    cases o <;> decide
  intro x c' hrun
  obtain ⟨hsym, -, -, hrun, -⟩ := operation_eq_done hrun
  have hlex : c.current.lexeme = o.lexeme := by
    rw [hc.lexeme_of_isAt hk (by cases o <;> rfl)]
    cases o <;> rfl
  have hx : x.operator = o := by
    have htext : c.current.text = o.symbol := congrArg Prod.snd hlex
    rw [htext, Operator.ofSymbol?_symbol] at hsym
    exact (Option.some.inj hsym).symm
  obtain ⟨hd, hlexemes⟩ := hc.advance hne
  obtain ⟨hs, xs, f, hxs, hf, hstands⟩ := ho Word.operator.ends file _ hd _ _ hrun
  refine ⟨hs, c.current.lexeme :: xs, .word .operator f, by rw [hlexemes, hxs]; rfl, .word ?_ hf, hx, f,
    rfl, hstands⟩
  rw [hlex]
  cases o <;> rfl

theorem tier_stands {operand : Parser (Expr Span)} {s t : Strength} {binds : TokenKind → Bool}
    (hst : s.rank ≤ t.rank) (hbinds : ∀ k, binds k = true →
      ∃ o : Operator, k = o.kind ∧ o.strength = s ∧ o.rightStrength = t)
    (ho : operand.Stands t) : (tier binds operand).Stands s := by
  intro b file c hc
  unfold tier
  refine .start ((ho b file c hc).bind fun f e d hd hf => ?_)
  refine (Traces.many (B := fun _ => True) (P := fun f (x : Operation) => x.operator.strength = s ∧
    ∃ g, f = .word .operator g ∧ g.Stands x.operand.bare x.operator.rightStrength) hd trivial
    (fun _ _ _ _ _ => trivial) fun b c _ hc hk => ?_).bind fun g operations d hd hg => .pure hd ?_
  · obtain ⟨o, hko, rfl, rfl⟩ := hbinds _ hk
    refine (operation_traces ho hc hko).mono ?_
    rintro f x ⟨rfl, hf⟩
    exact ⟨rfl, hf⟩
  · obtain ⟨parts, rfl, rfl, hparts⟩ := hg
    have h := (hf.mono hst).operated
      (parts.map fun p => (p.1, p.2.operator, p.2.operand.bare)) (List.forall_mem_map.2 hparts)
    rw [Forest.append_nil, bare_foldl_operation]
    simpa [List.foldl_map, Function.comp_def] using h

theorem multiplicative_stands {operand : Parser (Expr Span)} (ho : operand.Stands .application) :
    (tier TokenKind.isMultiplicative operand).Stands .multiplicative := by
  refine tier_stands (by decide) (fun k hk => ?_) ho
  obtain ⟨o, rfl, ho⟩ := operator_of_isMultiplicative k hk
  exact ⟨o, rfl, by cases o <;> first | exact ⟨rfl, rfl⟩ | cases ho⟩

theorem additive_stands {operand : Parser (Expr Span)} (ho : operand.Stands .multiplicative) :
    (tier TokenKind.isAdditive operand).Stands .additive := by
  refine tier_stands (by decide) (fun k hk => ?_) ho
  obtain ⟨o, rfl, ho⟩ := operator_of_isAdditive k hk
  exact ⟨o, rfl, by cases o <;> first | exact ⟨rfl, rfl⟩ | cases ho⟩

theorem expression_stands (depth : Nat) : (expression depth).Stands .top := by
  induction depth with
  | zero => exact fun _ _ _ _ => .reject
  | succ depth ih =>
    have hadditive := additive_stands
      (multiplicative_stands (application_stands ih (pattern_sound (depth + 1))))
    intro b file c hc
    show (expressionWithin _ _ _).Traces b file c _
    unfold expressionWithin
    have hclimb : (climb (application (expression depth) (pattern (depth + 1))) tiers 0).Traces b file c
        fun f e => f.Stands e.bare .additive := by
      intro e c' hrun
      rw [climb_eq_tiers (fun _ hc => application_shortens depth hc) hc.ended] at hrun
      exact hadditive b file c hc e c' hrun
    refine .start (hclimb.bind fun f e d hd hf => .test (fun hk => ?_) (fun _ => .pure hd ?_))
    · refine (Traces.advance_symbol hd (Cursor.kind_of_isAt hk) rfl rfl).bind fun f' _ d hd hf' => ?_
      refine (type_traces (type_sound (depth + 1)) hd).bind fun g t d hd hg => ?_
      refine .spanFrom (.pure hd ?_)
      rw [hf', Forest.append_nil]
      exact hf.ascribe hg.1 hg.2.2
    · rw [Forest.append_nil]
      exact hf.mono (by decide)

/-! Declarations. -/

theorem param_traces {pat : Parser (Pattern Span)} {ty : Parser (Ty Span)}
    (hp : pat.Sound (.element .pattern) Pattern.bare) (ht : ty.Sound (.element .type) Ty.bare)
    (hc : TokenStream c.remaining) (hk : c.current.kind = .lparen) :
    (param pat ty).Traces b file c fun f p => f.Covers p.bare.nests :=
  (Traces.of_drawn ((param_ensures hp ht hc hk).mono fun _ _ h => h.drawn)).mono fun _ _ h => h.1

theorem returnType_traces {ty : Parser (Ty Span)} (ht : ty.Sound (.element .type) Ty.bare)
    (hc : TokenStream c.remaining) :
    (returnType ty).Traces b file c fun f r =>
      f.Covers (r.elim .nil fun t => .word .link (t.bare.nests .top)) := by
  unfold returnType
  refine .test (fun hk => ?_) (fun _ => .pure hc .nil)
  refine (Traces.advance_symbol hc (Cursor.kind_of_isAt hk) rfl rfl).bind fun f _ d hd hf => ?_
  refine (type_traces ht hd).bind fun g t d hd hg => .pure hd ?_
  rw [hf, Forest.append_nil]
  exact hg.1.word .link

theorem fnDecl_traces (depth : Nat) (hc : TokenStream c.remaining) (hk : c.current.kind = .kwFn) :
    (fnDecl (block (expression depth) (pattern depth)) (pattern depth) (type depth)).Traces b file c
      fun f d => f.Covers d.bare.nests := by
  unfold fnDecl
  refine .located ((Traces.advance_symbol hc hk rfl rfl).bind fun f₁ _ d hd h₁ => ?_)
  refine (Traces.expect_word hd (by decide) rfl).bind fun f₂ name d hd h₂ => ?_
  refine (Traces.many (B := fun _ => True) hd trivial (fun _ _ _ _ _ => trivial) fun b c _ hc hs =>
    param_traces (pattern_sound depth) (type_sound depth) hc (Cursor.kind_of_isAt hs)).bind
      fun g params d hd hg => ?_
  refine (returnType_traces (type_sound depth) hd).bind fun h result d hd hh => ?_
  refine (block_stands (expression_stands depth) (pattern_sound depth) _ file d hd).bind
    fun k body d hd hk => .pure hd fun s => ?_
  obtain ⟨parts, rfl, rfl, hparts⟩ := hg
  rw [h₁, h₂, Forest.append_nil]
  have hrow : (Forest.row (parts.map (·.1))).Covers (.row (parts.map fun p => p.2.bare.nests)) :=
    .row (k := fun p : Param Span => p.bare.nests) hparts
  have hnests : (Decl.fn name.text (parts.map (·.2)) result body s).bare.nests =
      .word .other (.word .ender (.row (parts.map fun p => p.2.bare.nests) ++
        (result.elim .nil (fun t => .word .link (t.bare.nests .top)) ++ body.bare.nests))) := by
    cases result <;>
      simp [Decl.bare, Decl.map, Decl.nests, Function.comp_def, Param.bare, Ty.bare, Expr.bare]
  rw [hnests]
  exact ((hrow.append (hh.append hk.nests)).word .ender).word .other

theorem type_of_typeDecl {ty atomic : Parser (Ty Span)} {d : Decl Span} {c' : Cursor}
    (h : typeDecl ty atomic file c = .done d c') : ∃ n ps body s, d = .type n ps body s := by
  obtain ⟨build, hbuild, rfl⟩ := located_eq_done.1 h
  obtain ⟨_, _, -, hname⟩ := bind_eq_done.1 hbuild
  obtain ⟨name, _, -, hparams⟩ := bind_eq_done.1 hname
  obtain ⟨params, _, -, hassign⟩ := bind_eq_done.1 hparams
  obtain ⟨_, _, -, hbody⟩ := bind_eq_done.1 hassign
  obtain ⟨body, _, -, hpure⟩ := bind_eq_done.1 hbody
  obtain ⟨rfl, -⟩ := pure_eq_done.1 hpure
  exact ⟨_, _, _, _, rfl⟩

theorem declaration_traces (depth : Nat) (hc : TokenStream c.remaining) :
    (declaration depth).Traces b file c fun f d => f.Covers d.bare.nests := by
  unfold declaration declarationWithin
  refine .current ?_
  split
  · rename_i hk
    exact fnDecl_traces depth hc hk
  · rename_i hk
    refine (Traces.of_drawn fun d c' hrun => ?_).mono fun _ _ h => h.1
    obtain ⟨hs, xs, hxs, hd⟩ := typeDecl_ensures (type_sound depth)
      (atom_sound Family.type_agrees (type_sound depth)) hc hk d c' hrun
    obtain ⟨n, ps, body, s, rfl⟩ := type_of_typeDecl hrun
    exact ⟨hs, xs, hxs, hd.drawn _ _ _ rfl⟩
  · exact .unexpected

theorem program_traces (depth : Nat) (hc : TokenStream c.remaining) :
    (program depth).Traces b file c fun f p => f.Covers p.bare.nests := by
  unfold program
  refine (Traces.many (B := fun _ => True) hc trivial (fun _ _ _ _ _ => trivial)
    fun b c _ hc _ => declaration_traces depth hc).bind fun f decls d hd hf => .current ?_
  intro p c' hrun
  cases hrun
  obtain ⟨parts, rfl, rfl, hparts⟩ := hf
  refine ⟨hd, [], .nil, rfl, .nil _ _, ?_⟩
  have hrow : (Forest.row (parts.map (·.1))).Covers (.row (parts.map fun p => p.2.bare.nests)) :=
    .row (k := fun d : Decl Span => d.bare.nests) hparts
  simpa [Program.bare, Program.map, Program.nests, Function.comp_def, Decl.bare] using hrow

theorem atEnd_traces {category : Category} {t : Tree Span} {f : Forest} (hc : TokenStream c.remaining)
    (hf : f.Covers t.bare.nests) :
    (tree.atEnd category >>= fun _ => (pure t : Parser (Tree Span))).Traces b file c
      fun g t => (f ++ g).Covers t.bare.nests := by
  intro t' c' hrun
  obtain ⟨_, d, hend, hrun⟩ := bind_eq_done.1 hrun
  obtain ⟨-, rfl⟩ := atEnd_eq_done.1 hend
  obtain ⟨rfl, rfl⟩ := pure_eq_done.1 hrun
  exact ⟨hc, [], .nil, rfl, .nil _ _, by simpa using hf⟩

/-- The words and pairs that the parser of a category goes through have each pair that the layout of
the tree needs, and in the place of the other pairs a lambda or an argument. -/
theorem tree_traces (depth : Nat) (form : Form) (hc : TokenStream c.remaining) :
    (tree depth form).Traces b file c fun f t => f.Covers t.bare.nests := by
  cases form with
  | program =>
    exact (program_traces depth hc).bind fun f p d hd hf => .pure hd (by rwa [Forest.append_nil])
  | expression =>
    exact (expression_stands depth b file c hc).bind fun f e d hd hf => atEnd_traces hd hf.nests
  | pattern =>
    exact (pattern_traces (pattern_sound depth) hc).bind fun f p d hd hf => atEnd_traces hd hf.1
  | type => exact (type_traces (type_sound depth) hc).bind fun f t d hd hf => atEnd_traces hd hf.1

end Parser

/-- A successful run has gone through the words and pairs of all lexemes but the end marker. -/
theorem traced_of_run {depth : Nat} {form : Form} {file? : Option String} {us : List Token} {e : Token}
    {t : Tree Span} (hts : TokenStream (us ++ [e]))
    (hrun : (Parser.tree depth form).run file? (us ++ [e]) = .ok t) :
    ∃ f, Traced false (us.map Token.lexeme) [e.lexeme] f ∧ f.Covers t.bare.nests := by
  obtain ⟨file, c, c', -, hc, -, hdone⟩ := Parser.exists_done_of_run (by simp) hrun
  rw [← hc] at hts
  obtain ⟨hc', xs, f, hxs, hf, hcovers⟩ := Parser.tree_traces depth form hts _ _ hdone
  have hlast := lexemes_of_stops hc' (Parser.tree_stops hts.ended hdone)
  rw [Cursor.lexemes, Cursor.lexemes, hc, hlast, List.map_append] at hxs
  rw [Cursor.lexemes, hlast] at hf
  obtain ⟨rfl, hend⟩ := List.append_inj' hxs rfl
  rw [← hend] at hf
  exact ⟨f, hf, hcovers⟩

end TinyFront
