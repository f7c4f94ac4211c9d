import TinyFront.Proofs.Layout

/-!
The layout of well-formed expressions and declarations. Main statement: parentheses stand wherever
an expression binds more loosely than its context asks, so the marks of every well-formed tree spell
a phrase that stands for it.
-/
namespace TinyFront

open Grammar Mark

namespace Grammar.Derives

variable {u : Lambdas} {xs ys : List Lexeme} {e a : Expr Unit} {f : Expr Unit → Expr Unit}

theorem argument_of_atom (h : Derives u (.atom .expression) xs e) : Derives u .argument xs e := by
  simpa using Derives.argument [] h (by simp)

theorem operand_of_primary (h : Derives u .primary xs e) : Derives u .operand xs e := by
  simpa using Derives.operand [] h (by simp)

theorem application_of_operand (h : Derives u .operand xs e) : Derives u .application xs e := by
  simpa using Derives.application [] h (by simp)

theorem multiplicative_of_application (h : Derives u .application xs e) :
    Derives u .multiplicative xs e := by
  simpa using Derives.multiplicative [] h (by simp) (by simp)

theorem additive_of_multiplicative (h : Derives u .multiplicative xs e) : Derives u .additive xs e := by
  simpa using Derives.additive [] h (by simp) (by simp)

theorem argument_snoc (h : Derives u .argument xs e) (hf : Derives u .suffix ys f) :
    Derives u .argument (xs ++ ys) (f e) := by
  cases h with
  | argument parts he h =>
    simpa using Derives.argument (parts ++ [(ys, f)]) he
      (List.forall_mem_append.2 ⟨h, by simpa using hf⟩)

theorem operand_snoc (h : Derives u .operand xs e) (hf : Derives u .suffix ys f) :
    Derives u .operand (xs ++ ys) (f e) := by
  cases h with
  | operand parts he h =>
    simpa using Derives.operand (parts ++ [(ys, f)]) he
      (List.forall_mem_append.2 ⟨h, by simpa using hf⟩)

theorem application_snoc (h : Derives u .application xs e) (ha : Derives u .argument ys a) :
    Derives u .application (xs ++ ys) (.apply e a ()) := by
  cases h with
  | application parts he h =>
    simpa using Derives.application (parts ++ [(ys, a)]) he
      (List.forall_mem_append.2 ⟨h, by simpa using ha⟩)

theorem multiplicative_snoc {o : Operator} (ho : o.isAdditive = false)
    (h : Derives u .multiplicative xs e) (ha : Derives u .application ys a) :
    Derives u .multiplicative (xs ++ o.lexeme :: ys) (infixed e (o, ys, a)) := by
  cases h with
  | multiplicative parts he hop h =>
    simpa [operation] using Derives.multiplicative (parts ++ [(o, ys, a)]) he
      (List.forall_mem_append.2 ⟨hop, by simpa using ho⟩)
      (List.forall_mem_append.2 ⟨h, by simpa using ha⟩)

theorem additive_snoc {o : Operator} (ho : o.isAdditive = true)
    (h : Derives u .additive xs e) (ha : Derives u .multiplicative ys a) :
    Derives u .additive (xs ++ o.lexeme :: ys) (infixed e (o, ys, a)) := by
  cases h with
  | additive parts he hop h =>
    simpa [operation] using Derives.additive (parts ++ [(o, ys, a)]) he
      (List.forall_mem_append.2 ⟨hop, by simpa using ho⟩)
      (List.forall_mem_append.2 ⟨h, by simpa using ha⟩)

end Grammar.Derives

/-- The phrases that hold together as tightly as the strength says. -/
def Strength.Phrased : Strength → List Mark → Expr Unit → Prop
  | top => TinyFront.Phrased (.element .expression)
  | additive => TinyFront.Phrased .additive
  | multiplicative => TinyFront.Phrased .multiplicative
  | application => TinyFront.Phrased .application
  | primary => TinyFront.Phrased .operand

theorem Strength.Phrased.mono {a b : Strength} {ms : List Mark} {e : Expr Unit} (h : b.Phrased ms e)
    (hab : a.rank ≤ b.rank) : a.Phrased ms e := by
  have htop : additive.Phrased ms e → top.Phrased ms e :=
    Exists.imp fun _ h => ⟨h.1, .plain h.2⟩
  have hadditive : multiplicative.Phrased ms e → additive.Phrased ms e :=
    Exists.imp fun _ h => ⟨h.1, h.2.additive_of_multiplicative⟩
  have hmultiplicative : application.Phrased ms e → multiplicative.Phrased ms e :=
    Exists.imp fun _ h => ⟨h.1, h.2.multiplicative_of_application⟩
  have happlication : primary.Phrased ms e → application.Phrased ms e :=
    Exists.imp fun _ h => ⟨h.1, h.2.application_of_operand⟩
  cases a <;> cases b <;> first
    | exact h | exact absurd hab (by decide)
    | exact htop h | exact hadditive h | exact hmultiplicative h | exact happlication h
    | exact htop (hadditive h) | exact hadditive (hmultiplicative h)
    | exact hmultiplicative (happlication h)
    | exact htop (hadditive (hmultiplicative h)) | exact hadditive (hmultiplicative (happlication h))
    | exact htop (hadditive (hmultiplicative (happlication h)))

namespace Expr

/-- What the layout of an expression is worth wherever the expression stands. -/
structure Laid (e : Expr Unit) : Prop where
  strength : ∀ depth, e.strength.Phrased (e.marks depth) e
  argument : e.isArgument = true → ∀ depth, Phrased .argument (e.marks depth) e
  block : e.isBlock = true → ∀ depth, Phrased .block (e.marks depth) e

namespace Laid

variable {e : Expr Unit}

theorem top (h : e.Laid) (depth : Nat) : Phrased (.element .expression) (e.marks depth) e :=
  show Strength.top.Phrased (e.marks depth) e from (h.strength depth).mono (Nat.zero_le _)

theorem atom (h : e.Laid) (depth : Nat) :
    Phrased (.atom .expression) (Mark.enclosed true (e.marks depth)) e :=
  Phrased.enclosed (k := .expression) (h.top depth)

theorem enclosed (h : e.Laid) (depth : Nat) (b : Strength) :
    b.Phrased (Mark.enclosed (e.strength.weaker b) (e.marks depth)) e := by
  cases hw : e.strength.weaker b with
  | false =>
    refine (h.strength depth).mono ?_
    simpa [Strength.weaker] using hw
  | true =>
    have hoperand : Strength.primary.Phrased (Mark.enclosed true (e.marks depth)) e :=
      (h.atom depth).imp fun _ h => ⟨h.1, (Derives.atomPrimary h.2).operand_of_primary⟩
    exact hoperand.mono (by cases b <;> decide)

theorem enclosed_argument (h : e.Laid) (depth : Nat) :
    Phrased .argument (Mark.enclosed (!e.isArgument) (e.marks depth)) e := by
  cases ha : e.isArgument with
  | true => exact h.argument ha depth
  | false => exact (h.atom depth).imp fun _ h => ⟨h.1, h.2.argument_of_atom⟩

theorem of_atom (hs : e.strength = .primary) (hb : e.isBlock = false)
    (h : ∀ depth, Phrased (.atom .expression) (e.marks depth) e) : e.Laid where
  strength depth := by
    rw [hs]
    exact (h depth).imp fun _ h => ⟨h.1, (Derives.atomPrimary h.2).operand_of_primary⟩
  argument _ depth := (h depth).imp fun _ h => ⟨h.1, h.2.argument_of_atom⟩
  block hb' := by simp [hb] at hb'

theorem of_primary (hs : e.strength = .primary) (ha : e.isArgument = false) (hb : e.isBlock = false)
    (h : ∀ depth, Phrased .primary (e.marks depth) e) : e.Laid where
  strength depth := by
    rw [hs]
    exact (h depth).imp fun _ h => ⟨h.1, h.2.operand_of_primary⟩
  argument ha' := by simp [ha] at ha'
  block hb' := by simp [hb] at hb'

theorem of_strength (ha : e.isArgument = false) (hb : e.isBlock = false)
    (h : ∀ depth, e.strength.Phrased (e.marks depth) e) : e.Laid where
  strength := h
  argument ha' := by simp [ha] at ha'
  block hb' := by simp [hb] at hb'

end Laid

theorem strength_of_isArgument {e : Expr Unit} (h : e.isArgument = true) : e.strength = .primary := by
  cases e <;> first | rfl | cases h

variable {σ : Type}

theorem marksAll_eq_map (depth : Nat) (es : List (Expr σ)) :
    Expr.marksAll depth es = es.map (Expr.marks depth) := by
  induction es with
  | nil => rfl
  | cons e es ih => simp [Expr.marksAll, ih]

end Expr

variable {σ : Type}

def FieldValue.marks (depth : Nat) (d : FieldValue σ) : List Mark :=
  lexeme d.name :: gap :: lexeme "=" :: gap :: d.value.marks depth

theorem FieldValue.marksAll_eq_map (depth : Nat) (fs : List (FieldValue σ)) :
    FieldValue.marksAll depth fs = fs.map (FieldValue.marks depth) := by
  induction fs with
  | nil => rfl
  | cons d fs ih =>
    obtain ⟨n, e, s⟩ := d
    simp [FieldValue.marksAll, FieldValue.marks, ih]

def Statement.marks (depth : Nat) : Statement σ → List Mark
  | .bind p e _ =>
    [lexeme "let", gap] ++ p.marks false ++ [gap, lexeme "=", gap] ++ e.marks depth
  | .expr e _ => e.marks depth

theorem Statement.marksAll_eq_map (depth : Nat) (ss : List (Statement σ)) :
    Statement.marksAll depth ss = ss.map (Statement.marks depth) := by
  induction ss with
  | nil => rfl
  | cons s ss ih => cases s <;> simp [Statement.marksAll, Statement.marks, ih]

def Clause.marks (depth : Nat) (c : Clause σ) : List Mark :=
  line (depth + 1) :: c.pattern.marks false ++ [gap, lexeme "=>", gap] ++ c.body.marks (depth + 1)

theorem Clause.marksAll_eq_flatMap (depth : Nat) (cs : List (Clause σ)) :
    Clause.marksAll depth cs = cs.flatMap fun c => c.marks depth ++ [lexeme ","] := by
  induction cs with
  | nil => rfl
  | cons c cs ih =>
    obtain ⟨p, e, s⟩ := c
    simp [Clause.marksAll, Clause.marks, ih]

theorem Spelled.trailed {α β : Type} {marks : α → List Mark} {as : List α}
    {parts : List (List Lexeme × β)} {k : TokenKind} {s : String} (hs : k.spelling? = some s)
    (hloose : (Mark.lexeme s).isLoose = true)
    (h : List.Forall₂ (fun a p => Spelled (marks a) p.1) as parts) :
    Spelled (as.flatMap fun a => marks a ++ [Mark.lexeme s]) (listed k.lexeme true (parts.map (·.1))) := by
  induction h with
  | nil => exact .nil
  | @cons a p as parts ha h ih =>
    have hall := ha.append (.symbol hs (.inl hloose) ih) (by simpa using hloose)
    cases h with
    | nil => simpa [listed] using hall
    | cons hb h => simpa [listed] using hall

namespace Expr

theorem laid_leaf {l : Leaf} (h : l.Fits .expression) : (Expr.leaf l ()).Laid :=
  .of_atom rfl rfl fun _ => phrased_leaf h

theorem laid_tuple {es : List (Expr Unit)} (hne : es ≠ []) (h : ∀ e ∈ es, e.Laid) :
    (Expr.tuple es ()).Laid := by
  refine .of_atom rfl rfl fun depth => ?_
  rw [Expr.marks, Expr.marksAll_eq_map]
  exact phrased_tuple (k := .expression) hne fun e he => (h e he).top depth

theorem laid_lambda {n : String} {b : Expr Unit} (hn : isLowerName n = true) (hb : b.Laid) :
    (Expr.lambda n b ()).Laid := by
  refine .of_strength rfl rfl fun depth => ?_
  obtain ⟨xs, hxs, hd⟩ := hb.top depth
  have hbody : Spelled (lexeme "|" :: gap :: b.marks depth) (TokenKind.pipe.lexeme :: xs) :=
    .symbol rfl (.inl (by decide)) (.gap hxs)
  have hparam := Spelled.lowerName hn (by simp [isLoose, looseTexts]) hbody
  exact ⟨_, .symbol rfl (.inl (by decide)) hparam, .wholeLambda rfl n hd⟩

theorem laid_ascribe {e : Expr Unit} {t : Ty Unit} (he : e.Laid) (ht : t.WellFormed) :
    (Expr.ascribe e t ()).Laid := by
  refine .of_strength rfl rfl fun depth => ?_
  obtain ⟨xs, hxs, hd⟩ := he.enclosed depth .additive
  obtain ⟨ys, hys, hdt⟩ := phrased_type ht .top
  have htype : Spelled ([gap, lexeme ":", gap] ++ t.marks .top) (TokenKind.colon.lexeme :: ys) :=
    .gap (.symbol rfl (.inr (by simp [isLoose])) (.gap hys))
  have hall := hxs.append htype (by simp [isLoose])
  rw [← List.append_assoc] at hall
  exact ⟨_, hall, .ascribe hd hdt⟩

theorem laid_suffix {e : Expr Unit} {f : Expr Unit → Expr Unit} {ms : Nat → List Mark}
    (he : e.Laid) (hs : (f e).strength = .primary) (ha : (f e).isArgument = e.isArgument)
    (hb : (f e).isBlock = false)
    (hmarks : ∀ depth, (f e).marks depth =
      Mark.enclosed (e.strength.weaker .primary) (e.marks depth) ++ ms depth)
    (hms : ∀ depth, ∀ m ∈ (ms depth).head?, m.isLoose = true)
    (hf : ∀ depth, Phrased .suffix (ms depth) f) : (f e).Laid where
  strength depth := by
    obtain ⟨xs, hxs, hd⟩ := he.enclosed depth .primary
    obtain ⟨ys, hys, hdf⟩ := hf depth
    rw [hs, hmarks]
    exact ⟨_, hxs.append hys (hms depth), hd.operand_snoc hdf⟩
  argument ha' depth := by
    rw [ha] at ha'
    obtain ⟨xs, hxs, hd⟩ := he.argument ha' depth
    obtain ⟨ys, hys, hdf⟩ := hf depth
    rw [hmarks, strength_of_isArgument ha']
    exact ⟨_, hxs.append hys (hms depth), hd.argument_snoc hdf⟩
  block hb' := by simp [hb] at hb'

theorem laid_access {e : Expr Unit} {n : String} (hn : isLowerName n = true) (he : e.Laid) :
    (Expr.access e n ()).Laid :=
  laid_suffix (f := fun e => .access e n ()) he rfl rfl rfl (fun _ => by rw [Expr.marks])
    (by simp [isLoose, looseTexts]) fun _ =>
    ⟨_, .symbol rfl (.inl (by decide)) (.lowerName hn (by simp) .nil), .access n⟩

theorem laid_record {e : Expr Unit} {fs : List (FieldValue Unit)} (he : e.Laid) (hne : fs ≠ [])
    (hn : ∀ d ∈ fs, isLowerName d.name = true) (h : ∀ d ∈ fs, d.value.Laid) :
    (Expr.record e fs ()).Laid := by
  refine laid_suffix (f := fun e => .record e fs ()) he rfl rfl rfl
    (fun _ => by rw [Expr.marks, List.append_assoc, List.append_assoc]) (by simp [isLoose]) fun depth => ?_
  have hfields : ∀ d ∈ fs, Phrased .fieldValue (d.marks depth) d := by
    rintro ⟨n, v, s⟩ hd
    obtain ⟨xs, hxs, hde⟩ := (h _ hd).top depth
    have hvalue : Spelled (gap :: lexeme "=" :: gap :: v.marks depth)
        (TokenKind.assign.lexeme :: xs) :=
      .gap (.symbol rfl (.inr (by simp [isLoose])) (.gap hxs))
    exact ⟨_, .lowerName (hn _ hd) (by simp [isLoose]) hvalue, .fieldValue n hde⟩
  obtain ⟨parts, hnodes, hspelled, hparts⟩ := Phrased.all (s := .fieldValue) hfields
  have hlist := Spelled.separated (k := .comma) rfl (by decide) .gap hspelled
  have hclose : Spelled [gap, lexeme "\x7d"] [TokenKind.rbrace.lexeme] :=
    .gap (.symbol rfl (.inl (by decide)) .nil)
  have hall := Spelled.gap (.symbol (k := .lbrace) rfl (.inl (by decide))
    (.gap (hlist.append hclose (by simp [isLoose]))))
  have hd := Derives.record parts false (by rintro rfl; exact hne hnodes.symm) hparts
  rw [hnodes] at hd
  refine ⟨_, ?_, hd⟩
  rw [FieldValue.marksAll_eq_map]
  simpa [comma] using hall

theorem spelled_clauses {cs : List (Clause Unit)} {parts : List (List Lexeme × Clause Unit)}
    (depth : Nat)
    (h : List.Forall₂ (fun (c : Clause Unit) p => Spelled (c.marks depth) p.1) cs parts) :
    Spelled (gap :: lexeme "\x7b" :: (Clause.marksAll depth cs ++
        (if cs = [] then [] else [line depth]) ++ [lexeme "\x7d"]))
      (TokenKind.lbrace.lexeme :: listed TokenKind.comma.lexeme true (parts.map (·.1)) ++
        [TokenKind.rbrace.lexeme]) := by
  have hclauses := Spelled.trailed (k := .comma) rfl (by decide) h
  have hclose : Spelled ((if cs = [] then [] else [line depth]) ++ [lexeme "\x7d"])
      [TokenKind.rbrace.lexeme] := by
    split
    · exact .symbol rfl (.inl (by decide)) .nil
    · exact .line depth (.symbol rfl (.inl (by decide)) .nil)
  rw [Clause.marksAll_eq_flatMap, List.append_assoc]
  refine .gap (.symbol rfl (.inl (by decide)) (hclauses.append hclose ?_))
  split <;> simp [isLoose, looseTexts]

theorem laid_caseOf {e : Expr Unit} {cs : List (Clause Unit)} (he : e.Laid)
    (hp : ∀ c ∈ cs, c.pattern.WellFormed) (h : ∀ c ∈ cs, c.body.Laid) :
    (Expr.caseOf e cs ()).Laid := by
  refine .of_primary rfl rfl rfl fun depth => ?_
  have hclauses : ∀ c ∈ cs, Phrased .clause (c.marks depth) c := by
    rintro ⟨p, b, s⟩ hc
    obtain ⟨ps, hps, hdp⟩ := (phrased_pattern (hp _ hc)).1
    obtain ⟨xs, hxs, hde⟩ := (h _ hc).top (depth + 1)
    have hbody : Spelled ([gap, lexeme "=>", gap] ++ b.marks (depth + 1))
        (TokenKind.fatArrow.lexeme :: xs) :=
      .gap (.symbol rfl (.inr (by simp [isLoose])) (.gap hxs))
    have hall := Spelled.line (depth + 1) (hps.append hbody (by simp [isLoose]))
    exact ⟨_, by simpa [Clause.marks] using hall, .clause hdp hde⟩
  obtain ⟨parts, hnodes, hspelled, hparts⟩ := Phrased.all (s := .clause) hclauses
  obtain ⟨xs, hxs, hde⟩ := he.top depth
  have hall := Spelled.symbol (k := .kwMatch) rfl (.inr (by simp [isLoose]))
    (.gap (hxs.append (spelled_clauses depth hspelled) (by simp [isLoose])))
  have hd := Derives.caseOf parts true hde hparts
  rw [hnodes] at hd
  refine ⟨_, ?_, hd⟩
  cases cs with
  | nil => simpa [Expr.marks, Clause.marksAll] using hall
  | cons c cs => simpa [Expr.marks] using hall

theorem laid_ifLet {p : Pattern Unit} {e t l : Expr Unit} (hp : p.WellFormed) (he : e.Laid)
    (htb : t.isBlock = true) (ht : t.Laid) (hlb : l.isBlock = true) (hl : l.Laid) :
    (Expr.ifLet p e t l ()).Laid := by
  refine .of_primary rfl rfl rfl fun depth => ?_
  obtain ⟨ps, hps, hdp⟩ := (phrased_pattern hp).1
  obtain ⟨xs, hxs, hde⟩ := he.top depth
  obtain ⟨ys, hys, hdt⟩ := ht.block htb depth
  obtain ⟨zs, hzs, hdl⟩ := hl.block hlb depth
  have helse : Spelled ([gap, lexeme "else", gap] ++ l.marks depth) (TokenKind.kwElse.lexeme :: zs) :=
    .gap (.symbol rfl (.inr (by simp [isLoose])) (.gap hzs))
  have hthen := Spelled.gap (hys.append helse (by simp [isLoose]))
  have hscrutinee : Spelled ([gap, lexeme "=", gap] ++ (e.marks depth ++ _))
      (TokenKind.assign.lexeme :: (xs ++ _)) :=
    .gap (.symbol rfl (.inr (by simp [isLoose])) (.gap (hxs.append hthen (by simp [isLoose]))))
  have hall := Spelled.symbol (k := .kwIf) rfl (.inr (by simp [isLoose])) (.gap (.symbol (k := .kwLet)
    rfl (.inr (by simp [isLoose])) (.gap (hps.append hscrutinee (by simp [isLoose])))))
  refine ⟨_, ?_, .ifLet hdp hde hdt hdl⟩
  simpa [Expr.marks] using hall

theorem phrased_statement {s : Statement Unit} (hp : ∀ p ∈ s.pattern?, p.WellFormed)
    (h : s.value.Laid) (depth : Nat) : Phrased .statement (s.marks depth) s := by
  obtain ⟨xs, hxs, hde⟩ := h.top depth
  cases s with
  | expr e s => exact ⟨xs, hxs, .expr hde⟩
  | bind p e s =>
    obtain ⟨ps, hps, hdp⟩ := (phrased_pattern (hp p rfl)).1
    have hvalue : Spelled ([gap, lexeme "=", gap] ++ e.marks depth) (TokenKind.assign.lexeme :: xs) :=
      .gap (.symbol rfl (.inr (by simp [isLoose])) (.gap hxs))
    have hall := Spelled.symbol (k := .kwLet) rfl (.inr (by simp [isLoose]))
      (.gap (hps.append hvalue (by simp [isLoose])))
    exact ⟨_, by simpa [Statement.marks] using hall, .bind hdp hde⟩

theorem laid_block {ss : List (Statement Unit)} (hne : ss ≠ [])
    (hp : ∀ s ∈ ss, ∀ p ∈ s.pattern?, p.WellFormed) (h : ∀ s ∈ ss, s.value.Laid) :
    (Expr.block ss ()).Laid := by
  have hblock : ∀ depth, Phrased .block ((Expr.block ss ()).marks depth) (.block ss ()) := by
    intro depth
    rw [Expr.marks]
    split
    · rename_i hunit
      obtain ⟨_, _, rfl⟩ : ∃ a b, ss = [.expr (.leaf .unit a) b] := by
        unfold isUnitBlock at hunit
        split at hunit
        · exact ⟨_, _, rfl⟩
        · cases hunit
      exact ⟨_, .symbol rfl (.inl (by decide)) (.symbol rfl (.inl (by decide)) .nil), .emptyBlock⟩
    · obtain ⟨parts, hnodes, hspelled, hparts⟩ := Phrased.all (s := .statement)
        fun s hs => phrased_statement (hp s hs) (h s hs) (depth + 1)
      have hlist := Spelled.separated (k := .semicolon) rfl (by decide) (.line (depth + 1)) hspelled
      have hclose : Spelled [line depth, lexeme "\x7d"] [TokenKind.rbrace.lexeme] :=
        .line depth (.symbol rfl (.inl (by decide)) .nil)
      have hall := Spelled.symbol (k := .lbrace) rfl (.inl (by decide))
        (.line (depth + 1) (hlist.append hclose (by simp [isLoose])))
      have hd := Derives.block parts false (by rintro rfl; exact hne hnodes.symm) hparts
      rw [hnodes] at hd
      refine ⟨_, ?_, hd⟩
      rw [Statement.marksAll_eq_map]
      simpa using hall
  refine ⟨fun depth => ?_, fun ha => by simp [isArgument] at ha, fun _ => hblock⟩
  exact (hblock depth).imp fun _ h => ⟨h.1, (Derives.blockPrimary h.2).operand_of_primary⟩

theorem strength_of_operation? {e : Expr Unit} {o : Operator} {l r : Expr Unit}
    (h : e.operation? = some (o, l, r)) : e.strength = o.strength := by
  simp [strength, h]

/-- An infix operation, whose right operand holds together more tightly than its left one need. -/
theorem laid_operation {o : Operator} {l r : Expr Unit} (hl : l.Laid) (hr : r.Laid) :
    (Expr.apply (.apply (.leaf (.name o.name) ()) l ()) r ()).Laid := by
  refine .of_strength rfl rfl fun depth => ?_
  rw [strength_of_operation? operation?_eq, marks_operation]
  have hspelled : ∀ {ms ms' : List Mark} {xs ys : List Lexeme}, Spelled ms xs → Spelled ms' ys →
      Spelled (ms ++ [gap, lexeme o.symbol, gap] ++ ms') (xs ++ o.lexeme :: ys) := by
    intro ms ms' xs ys h h'
    have hoperator : Spelled ([gap, lexeme o.symbol, gap] ++ ms') (o.lexeme :: ys) :=
      .gap (.lexeme (x := o.lexeme) (by cases o <;> rfl) (by cases o <;> decide)
        (.inr (by simp [isLoose])) (.gap h'))
    rw [List.append_assoc]
    exact h.append hoperator (by simp [isLoose])
  cases ho : o.isAdditive with
  | true =>
    obtain ⟨xs, hxs, hdl⟩ : Phrased .additive _ l := hl.enclosed depth .additive
    obtain ⟨ys, hys, hdr⟩ : Phrased .multiplicative _ r := hr.enclosed depth .multiplicative
    have hd := Derives.additive_snoc ho hdl hdr
    cases o <;> first | exact ⟨_, hspelled hxs hys, hd⟩ | cases ho
  | false =>
    obtain ⟨xs, hxs, hdl⟩ : Phrased .multiplicative _ l := hl.enclosed depth .multiplicative
    obtain ⟨ys, hys, hdr⟩ : Phrased .application _ r := hr.enclosed depth .application
    have hd := Derives.multiplicative_snoc ho hdl hdr
    cases o <;> first | exact ⟨_, hspelled hxs hys, hd⟩ | cases ho

theorem laid_apply {c a : Expr Unit} (hc : c.Laid) (ha : a.Laid)
    (h : (Expr.apply c a ()).operation? = none) : (Expr.apply c a ()).Laid := by
  refine .of_strength rfl rfl fun depth => ?_
  have hs : (Expr.apply c a ()).strength = .application := by simp [strength, h]
  rw [hs, marks_apply h]
  obtain ⟨xs, hxs, hdc⟩ : Phrased .application _ c := hc.enclosed depth .application
  obtain ⟨ys, hys, hda⟩ := ha.enclosed_argument depth
  exact ⟨_, hxs.append (.gap hys) (by simp [isLoose]), hdc.application_snoc hda⟩

/-- Every well-formed expression is laid out as a phrase. An infix operation is one application
within another, so what is known of an application's argument is kept beside. -/
theorem laid_of_wellFormed {e : Expr Unit} (h : e.WellFormed) :
    e.Laid ∧ ∀ c a s, e = .apply c a s → a.Laid := by
  induction h with
  | leaf h => exact ⟨laid_leaf h, by simp⟩
  | tuple hne _ ih => exact ⟨laid_tuple hne fun e he => (ih e he).1, by simp⟩
  | @apply c a s _ _ ihc iha =>
    refine ⟨?_, fun _ _ _ h => by cases h; exact iha.1⟩
    cases h : (Expr.apply c a s).operation? with
    | none => exact laid_apply ihc.1 iha.1 h
    | some p =>
      obtain ⟨o, l, r⟩ := p
      obtain ⟨u, v, s', heq⟩ := eq_of_operation? h
      cases heq
      exact laid_operation (ihc.2 _ _ _ rfl) iha.1
  | lambda hn _ ih => exact ⟨laid_lambda hn ih.1, by simp⟩
  | caseOf _ hp _ ihe ih => exact ⟨laid_caseOf ihe.1 hp fun c hc => (ih c hc).1, by simp⟩
  | ifLet hp _ htb _ hlb _ ihe iht ihl => exact ⟨laid_ifLet hp ihe.1 htb iht.1 hlb ihl.1, by simp⟩
  | access hn _ ih => exact ⟨laid_access hn ih.1, by simp⟩
  | ascribe _ ht ih => exact ⟨laid_ascribe ih.1 ht, by simp⟩
  | record _ hne hn _ ihe ih => exact ⟨laid_record ihe.1 hne hn fun d hd => (ih d hd).1, by simp⟩
  | block hne hp _ ih => exact ⟨laid_block hne hp fun s hs => (ih s hs).1, by simp⟩

theorem phrased_block {e : Expr Unit} (hb : e.isBlock = true) (h : e.WellFormed) (depth : Nat) :
    Phrased .block (e.marks depth) e :=
  (laid_of_wellFormed h).1.block hb depth

end Expr

/-! Declarations. -/

theorem spelled_typed {p : Pattern Unit} {t : Ty Unit} (hp : p.WellFormed) (ht : t.WellFormed) :
    ∃ ps xs, Derives .whole (.element .pattern) ps p ∧ Derives .whole (.element .type) xs t ∧
      Spelled (typedMarks p t) (ps ++ TokenKind.colon.lexeme :: xs) := by
  obtain ⟨ps, hps, hdp⟩ := (phrased_pattern hp).1
  obtain ⟨xs, hxs, hdt⟩ := phrased_type ht .top
  have htype : Spelled ([gap, lexeme ":", gap] ++ t.marks .top) (TokenKind.colon.lexeme :: xs) :=
    .gap (.symbol rfl (.inr (by simp [isLoose])) (.gap hxs))
  refine ⟨ps, xs, hdp, hdt, ?_⟩
  rw [typedMarks, List.append_assoc]
  exact hps.append htype (by simp [isLoose])

theorem phrased_param {p : Param Unit} (h : p.WellFormed) : Phrased .param p.marks p := by
  obtain ⟨ps, xs, hdp, hdt, hspelled⟩ := spelled_typed h.pattern h.type
  have hd := Derives.param hdp hdt
  refine ⟨_, hspelled.enclosed, ?_⟩
  simpa using hd

/-- The marks of a constructor behind its bar. -/
def Variant.inner (v : Variant σ) : List Mark :=
  lexeme v.name :: gapped (v.args.map (Ty.marks .argument))

theorem Variant.marks_eq (v : Variant σ) : v.marks = lexeme "|" :: gap :: v.inner := by
  rw [marks, Ty.marksAll_eq_map]
  rfl

theorem phrased_variant {v : Variant Unit} (h : v.WellFormed) : Phrased .variant v.inner v := by
  obtain ⟨n, ts, s⟩ := v
  obtain ⟨parts, hnodes, hspelled, hparts⟩ := Phrased.all (s := .atom .type)
    fun t ht => phrased_type (h.args t ht) .argument
  have hd := Derives.variant n parts hparts
  rw [hnodes] at hd
  exact ⟨_, .upperName h.name (Spelled.head_gapped _) (.gapped hspelled), hd⟩

theorem phrased_field {d : Field Unit} (h : d.WellFormed) : Phrased .field d.marks d := by
  obtain ⟨n, t, s⟩ := d
  obtain ⟨xs, hxs, hdt⟩ := phrased_type h.type .top
  exact ⟨_, .lowerName h.name (by simp [isLoose])
    (.gap (.symbol rfl (.inr (by simp [isLoose])) (.gap hxs))), .field n hdt⟩

theorem phrased_sum {vs : List (Variant Unit)} (hne : vs ≠ []) (h : ∀ v ∈ vs, v.WellFormed) :
    Phrased .typeBody (TypeBody.sum vs).marks (.sum vs) := by
  obtain ⟨parts, hnodes, hspelled, hparts⟩ := Phrased.all (s := .variant)
    fun v hv => phrased_variant (h v hv)
  have hbars : List.Forall₂ (fun v p => Spelled v.marks (TokenKind.pipe.lexeme :: p.1)) vs parts :=
    hspelled.imp fun v p hv => by
      rw [Variant.marks_eq]
      exact .symbol rfl (.inl (by decide)) (.gap hv)
  have hd := Derives.sum parts (by rintro rfl; exact hne hnodes.symm) hparts
  rw [hnodes] at hd
  exact ⟨_, .spaced [gap] (by simp [isLoose]) (by simp) .gap hbars, hd⟩

theorem phrased_product {ds : List (Field Unit)} (h : ∀ d ∈ ds, d.WellFormed) :
    Phrased .typeBody (TypeBody.product ds).marks (.product ds) := by
  obtain ⟨parts, hnodes, hspelled, hparts⟩ := Phrased.all (s := .field)
    fun d hd => phrased_field (h d hd)
  have hd := Derives.product parts false hparts
  rw [hnodes] at hd
  refine ⟨_, ?_, hd⟩
  cases ds with
  | nil =>
    obtain rfl : parts = [] := by simpa using hnodes
    exact .symbol rfl (.inl (by decide)) (.symbol rfl (.inl (by decide)) .nil)
  | cons d ds =>
    have hlist := Spelled.separated (k := .comma) rfl (by decide) .gap hspelled
    have hclose : Spelled [gap, lexeme "\x7d"] [TokenKind.rbrace.lexeme] :=
      .gap (.symbol rfl (.inl (by decide)) .nil)
    have hall := Spelled.symbol (k := .lbrace) rfl (.inl (by decide))
      (.gap (hlist.append hclose (by simp [isLoose])))
    simpa [TypeBody.marks, comma] using hall

theorem phrased_typeBody {b : TypeBody Unit} : b.WellFormed → Phrased .typeBody b.marks b
  | .sum hne h => phrased_sum hne h
  | .product h => phrased_product h

theorem phrased_fn {n : String} {ps : List (Param Unit)} {r : Option (Ty Unit)} {b : Expr Unit}
    (hn : isLowerName n = true) (hp : ∀ p ∈ ps, p.WellFormed) (hr : ∀ t ∈ r, t.WellFormed)
    (hbb : b.isBlock = true) (hb : b.WellFormed) :
    Phrased .decl (Decl.fn n ps r b ()).marks (.fn n ps r b ()) := by
  obtain ⟨params, hnodes, hspelled, hparams⟩ := Phrased.all (s := .param)
    fun p h => phrased_param (hp p h)
  obtain ⟨xs, hxs, hdb⟩ := Expr.phrased_block hbb hb 0
  have hbody : Spelled (gap :: b.marks 0) xs := .gap hxs
  have hall : ∀ {ms ys}, Spelled ms ys → (∀ m ∈ ms.head?, m.isLoose = true) →
      Spelled ([lexeme "fn", gap, lexeme n] ++ gapped (ps.map Param.marks) ++ ms)
        (TokenKind.kwFn.lexeme :: (.identifier, n) :: params.flatMap (·.1) ++ ys) := by
    intro ms ys h hloose
    refine .symbol rfl (.inr (by simp [isLoose])) (.gap (.lowerName hn ?_ ?_))
    · cases ps with
      | nil => simpa [gapped] using hloose
      | cons p ps => simp [gapped, isLoose]
    · exact (Spelled.gapped hspelled).append h hloose
  cases r with
  | none =>
    have hd := Derives.fn n params none hparams (by simp) hdb
    rw [hnodes] at hd
    refine ⟨_, ?_, hd⟩
    simpa [Decl.marks] using hall hbody (by simp [isLoose])
  | some t =>
    obtain ⟨ys, hys, hdt⟩ := phrased_type (hr t rfl) .top
    have hresult : Spelled ([gap, lexeme ":", gap] ++ (t.marks .top ++ gap :: b.marks 0))
        (TokenKind.colon.lexeme :: (ys ++ xs)) :=
      .gap (.symbol rfl (.inr (by simp [isLoose])) (.gap (hys.append hbody (by simp [isLoose]))))
    have hd := Derives.fn n params (some (ys, t)) hparams (by simpa using hdt) hdb
    rw [hnodes] at hd
    refine ⟨_, ?_, hd⟩
    simpa [Decl.marks] using hall hresult (by simp [isLoose])

theorem phrased_typeDecl {n : String} {ps : List String} {b : TypeBody Unit}
    (hn : isUpperName n = true) (hp : ∀ p ∈ ps, isLowerName p = true) (hb : b.WellFormed) :
    Phrased .decl (Decl.type n ps b ()).marks (.type n ps b ()) := by
  obtain ⟨xs, hxs, hdb⟩ := phrased_typeBody hb
  have hbody : Spelled ([gap, lexeme "=", gap] ++ b.marks) (TokenKind.assign.lexeme :: xs) :=
    .gap (.symbol rfl (.inr (by simp [isLoose])) (.gap hxs))
  have hall := Spelled.symbol (k := .kwType) rfl (.inr (by simp [isLoose])) (.gap (.upperName hn
    (by cases ps <;> simp [gapped, isLoose]) ((Spelled.names hp).append hbody (by simp [isLoose]))))
  refine ⟨_, ?_, .type n ps hdb⟩
  simpa [Decl.marks] using hall

theorem phrased_decl {d : Decl Unit} : d.WellFormed → Phrased .decl d.marks d
  | .fn hn hp hr hbb hb => phrased_fn hn hp hr hbb hb
  | .type hn hp hb => phrased_typeDecl hn hp hb

theorem phrased_program {p : Program Unit} (h : p.WellFormed) : Phrased .program p.marks p := by
  obtain ⟨ds, s⟩ := p
  obtain ⟨parts, hnodes, hspelled, hparts⟩ := Phrased.all (s := .decl) fun d hd => phrased_decl (h d hd)
  have hd := Derives.program parts hparts
  rw [hnodes] at hd
  refine ⟨_, ?_, hd⟩
  cases ds with
  | nil =>
    obtain rfl : parts = [] := by simpa using hnodes
    exact .nil
  | cons d ds =>
    have hdecls := Spelled.spaced [line 0, line 0] (by simp [isLoose]) (by simp)
      (fun h => .line 0 (.line 0 h)) hspelled
    simpa [Program.marks] using hdecls.append (.line 0 .nil) (by simp [isLoose])

/-- The marks of a well-formed tree spell a text that stands for it, in which every lambda is a
whole expression. -/
theorem Tree.spelled_of_wellFormed {t : Tree Unit} (h : t.WellFormed) :
    ∃ xs, Spelled t.marks xs ∧ Reads .whole xs t := by
  cases t with
  | program p => exact phrased_program h
  | expression e => exact (Expr.laid_of_wellFormed h).1.top 0
  | pattern p => exact (phrased_pattern h).1
  | type t => exact phrased_type h .top

end TinyFront
