import Mathlib.Data.List.Forall2
import TinyFront.Proofs.Moves

/-!
What parsers see of tokens. Tokens of two lists are paired that have kind and text in common, and
wherever a parser stands before paired tokens it goes equally far in both lists, or fails there for
the same reason and at paired tokens. Neither the places of tokens nor what was consumed before has
a part in it. One rule for each way in which parsers are built, then one for each parser.
-/
namespace TinyFront

/-- The last token is never lost, not even when it is consumed. -/
theorem Cursor.Ended.step {c : Cursor} (h : c.Ended) : c.advance.Ended := by
  obtain ⟨t, ts, e⟩ := c
  cases ts with
  | nil => exact h
  | cons u us =>
    obtain ⟨vs, last, heq, hlast⟩ := h
    cases vs with
    | nil => exact absurd heq (by simp [Cursor.remaining])
    | cons v vs => exact ⟨vs, last, (List.cons.inj heq).2, hlast⟩

/-- Pairs tokens that differ in their places only. -/
structure Pairing where
  rel : Token → Token → Prop
  lexeme {t u : Token} : rel t u → t.lexeme = u.lexeme

namespace Pairing

variable (P : Pairing)

theorem kind {t u : Token} (h : P.rel t u) : u.kind = t.kind := (congrArg Prod.fst (P.lexeme h)).symm

theorem text {t u : Token} (h : P.rel t u) : u.text = t.text := (congrArg Prod.snd (P.lexeme h)).symm

/-- The cursors have paired tokens ahead, the last of which is an end marker. -/
structure Ahead (c d : Cursor) : Prop where
  paired : List.Forall₂ P.rel c.remaining d.remaining
  ended : c.Ended

variable {P} {c d : Cursor}

theorem Ahead.current (h : P.Ahead c d) : P.rel c.current d.current :=
  (List.forall₂_cons.1 h.paired).1

theorem Ahead.length (h : P.Ahead c d) : d.remaining.length = c.remaining.length :=
  (List.Forall₂.length_eq h.paired).symm

theorem Ahead.advance (h : P.Ahead c d) : P.Ahead c.advance d.advance := by
  refine ⟨?_, h.ended.step⟩
  obtain ⟨t, ts, e⟩ := c
  obtain ⟨u, us, e'⟩ := d
  obtain ⟨hcur, hrest⟩ := List.forall₂_cons.1 h.paired
  cases hrest with
  | nil => exact .cons hcur .nil
  | cons hnext hrest => exact .cons hnext hrest

end Pairing

/-- Failures for the same reason; a rejection is about paired tokens. -/
inductive Failure.Alike (P : Pairing) : Failure → Failure → Prop
  | rejected (cause : Cause) (category : Category) {t u : Token} (h : P.rel t u) :
      Alike P (.rejected ⟨cause, category, t.span⟩) (.rejected ⟨cause, category, u.span⟩)
  | literalTooLong (digits : Nat) : Alike P (.literalTooLong digits) (.literalTooLong digits)
  | unknownOperator (text : String) : Alike P (.unknownOperator text) (.unknownOperator text)
  | noTokens : Alike P .noTokens .noTokens

/-- Both runs stop before paired tokens, and either both succeed with related answers or both fail
alike. -/
inductive Outcome.Alike {α β : Type} (P : Pairing) (R : α → β → Prop) : Outcome α → Outcome β → Prop
  | done {a : α} {b : β} {c d : Cursor} (hR : R a b) (h : P.Ahead c d) : Alike P R (.done a c) (.done b d)
  | failed {e f : Failure} {c d : Cursor} (he : e.Alike P f) (h : P.Ahead c d) :
      Alike P R (.failed e c) (.failed f d)

namespace Parser

variable {α β γ δ : Type} {P : Pairing}

/-- Before paired tokens the second parser does what the first one does. -/
def Echoes (P : Pairing) (R : α → β → Prop) (p : Parser α) (q : Parser β) : Prop :=
  ∀ file file' c d, P.Ahead c d → (p file c).Alike P R (q file' d)

/-- The same where the answers are of no account. -/
abbrev Echo (P : Pairing) (p : Parser α) (q : Parser β) : Prop := Echoes P (fun _ _ => True) p q

/-- The test has one answer before paired tokens. -/
def Blind (P : Pairing) (f : Cursor → Bool) : Prop := ∀ c d, P.Ahead c d → f d = f c

namespace Blind

theorem of_kind {f : Cursor → Bool} (g : TokenKind → Bool) (hf : ∀ c, f c = g c.current.kind) :
    Blind P f := fun c d h => by rw [hf, hf, P.kind h.current]

theorem isAt (k : TokenKind) : Blind P (·.isAt k) := of_kind (· == k) fun _ => rfl

theorem or {f g : Cursor → Bool} (hf : Blind P f) (hg : Blind P g) : Blind P fun c => f c || g c :=
  fun c d h => by simp only [hf c d h, hg c d h]

theorem not {f : Cursor → Bool} (hf : Blind P f) : Blind P fun c => !f c :=
  fun c d h => by simp only [hf c d h]

end Blind

namespace Echoes

variable {p : Parser α} {q : Parser β} {R : α → β → Prop} {S : γ → δ → Prop}

theorem imp {R' : α → β → Prop} (h : Echoes P R p q) (hR : ∀ a b, R a b → R' a b) :
    Echoes P R' p q := by
  intro file file' c d hcd
  have hrun := h file file' c d hcd
  revert hrun
  generalize p file c = x, q file' d = y
  rintro (⟨hab, hnext⟩ | ⟨he, hstop⟩)
  · exact .done (hR _ _ hab) hnext
  · exact .failed he hstop

theorem echo (h : Echoes P R p q) : Echo P p q := h.imp fun _ _ _ => trivial

theorem pure {a : α} {b : β} (h : R a b) : Echoes P R (pure a) (pure b) :=
  fun _ _ _ _ hcd => .done h hcd

theorem bind {k : α → Parser γ} {l : β → Parser δ} (h : Echoes P R p q)
    (hk : ∀ a b, R a b → Echoes P S (k a) (l b)) : Echoes P S (p >>= k) (q >>= l) := by
  intro file file' c d hcd
  have hrun := h file file' c d hcd
  rw [bind_apply, bind_apply]
  revert hrun
  generalize p file c = x, q file' d = y
  rintro (⟨hab, hnext⟩ | ⟨he, hstop⟩)
  · exact hk _ _ hab file file' _ _ hnext
  · exact .failed he hstop

theorem andThen {k : α → Parser γ} {l : β → Parser δ} (h : Echoes P R p q)
    (hk : ∀ a b, Echoes P S (k a) (l b)) : Echoes P S (p >>= k) (q >>= l) :=
  h.bind fun a b _ => hk a b

theorem current : Echoes P P.rel Parser.current Parser.current :=
  fun _ _ _ _ hcd => .done hcd.current hcd

theorem start : Echo P Parser.start Parser.start := fun _ _ _ _ hcd => .done trivial hcd

theorem close : Echo P Parser.close Parser.close := fun _ _ _ _ hcd => .done trivial hcd

theorem spanFrom (s s' : Int) : Echo P (Parser.spanFrom s) (Parser.spanFrom s') :=
  fun _ _ _ _ hcd => .done trivial hcd

theorem advance : Echoes P P.rel Parser.advance Parser.advance :=
  fun _ _ _ _ hcd => .done hcd.current hcd.advance

theorem test {f : Cursor → Bool} (hf : Blind P f) {k : Bool → Parser γ} {l : Bool → Parser δ}
    (hk : ∀ b, Echoes P S (k b) (l b)) : Echoes P S (Parser.test f >>= k) (Parser.test f >>= l) :=
  bind (R := Eq) (fun _ _ c d hcd => .done (hf c d hcd).symm hcd) fun a _ h => h ▸ hk a

theorem ite {b : Prop} [Decidable b] {p p' : Parser α} {q q' : Parser β} (h : Echoes P R p q)
    (h' : Echoes P R p' q') : Echoes P R (if b then p else p') (if b then q else q') := by
  split
  · exact h
  · exact h'

theorem reject (category : Category) (cause : Cause) :
    Echoes P R (Parser.reject category cause) (Parser.reject category cause) :=
  fun _ _ _ _ hcd => .failed (.rejected cause category hcd.current) hcd

theorem unexpected (category : Category) (expected : Expected) :
    Echoes P R (Parser.unexpected category expected) (Parser.unexpected category expected) := by
  intro file file' c d hcd
  rw [Parser.unexpected, Parser.unexpected, P.kind hcd.current, P.text hcd.current]
  exact .failed (.rejected _ category hcd.current) hcd

theorem expect (category : Category) (k : TokenKind) :
    Echoes P P.rel (Parser.expect category k) (Parser.expect category k) :=
  .test (.isAt k) fun _ => .ite .advance (.unexpected category _)

theorem expectClosing (category : Category) (o k : TokenKind) :
    Echoes P P.rel (Parser.expectClosing category o k) (Parser.expectClosing category o k) :=
  .test (.isAt k) fun _ => .ite .advance <|
    .test (.isAt .eof) fun _ => .ite (.reject category _) (.unexpected category _)

theorem located {p : Parser (Span → α)} {q : Parser (Span → β)} (h : Echo P p q) :
    Echo P (located p) (located q) :=
  .andThen .start fun s s' => .andThen h fun _ _ => .andThen (.spanFrom s s') fun _ _ => .pure trivial

theorem closing (h : Echoes P R p q) :
    Echoes P (fun x y => R x.1 y.1) (Parser.closing p) (Parser.closing q) :=
  .bind h fun _ _ hR => .andThen .close fun _ _ => .pure hR

theorem bounded {p : Nat → Parser α} {q : Nat → Parser β} (h : ∀ bound, Echoes P R (p bound) (q bound)) :
    Echoes P R (fun file c => p c.remaining.length file c) fun file c => q c.remaining.length file c := by
  intro file file' c d hcd
  show (p c.remaining.length file c).Alike P R (q d.remaining.length file' d)
  rw [hcd.length]
  exact h _ file file' c d hcd

theorem many {starts : Cursor → Bool} (hs : Blind P starts) (h : Echo P p q) :
    Echo P (many starts p) (many starts q) := by
  refine .bounded fun bound => ?_
  induction bound with
  | zero => exact .pure trivial
  | succ bound ih =>
    exact .test hs fun _ => .ite (.andThen h fun _ _ => .andThen ih fun _ _ => .pure trivial)
      (.pure trivial)

theorem commas (closer : TokenKind) (h : Echo P p q) : Echo P (commas closer p) (commas closer q) := by
  refine .bounded fun bound => ?_
  induction bound with
  | zero => exact .pure trivial
  | succ bound ih =>
    refine .test (.or (.isAt closer) (.isAt .eof)) fun _ => .ite (.pure trivial) ?_
    refine .andThen h fun _ _ => .test (.isAt .comma) fun _ => .ite ?_ (.pure trivial)
    exact .andThen .advance fun _ _ => .andThen ih fun _ _ => .pure trivial

theorem number (category : Category) {t u : Token} (h : P.rel t u) :
    Echo P (number category t) (number category u) := by
  rw [Parser.number, Parser.number, P.text h]
  refine .ite (.ite ?_ (.ite (.pure trivial) ?_)) ?_
  · exact fun _ _ _ _ hcd => .failed (.literalTooLong _) hcd
  · exact fun _ _ _ _ hcd => .failed (.rejected _ category h) hcd
  · exact fun _ _ _ _ hcd => .failed (.rejected _ category h) hcd

end Echoes

/-! The parsers one by one. -/

variable {ε : Type}

theorem leaf_echo (f : Family ε) : Echo P (leaf f) (leaf f) := by
  refine .bind .current fun t u h => ?_
  rw [P.kind h, P.text h]
  split
  · exact .andThen .advance fun _ _ => .pure trivial
  · exact .andThen .advance fun _ _ => .andThen (.number _ h) fun _ _ => .pure trivial
  · exact .andThen .advance fun _ _ => .pure trivial
  · exact .andThen .advance fun _ _ => .pure trivial
  · exact .ite (.andThen .advance fun _ _ => .pure trivial) (.unexpected _ _)
  · exact .unexpected _ _

theorem atom_echo (f : Family ε) {p : Parser ε} (hp : Echo P p p) : Echo P (atom f p) (atom f p) := by
  refine .bind .current fun t u h => ?_
  rw [P.kind h]
  refine .ite (.located ?_) (.andThen (leaf_echo f) fun _ _ => .pure trivial)
  exact .andThen .advance fun _ _ => .andThen (.commas _ hp) fun _ _ =>
    .andThen (.expectClosing _ _ _) fun _ _ => .pure trivial

theorem startsAtom_blind (f : Family ε) : Blind P f.startsAtom :=
  .of_kind (fun k => f.startsAtom ⟨⟨k, "", default⟩, [], 0⟩) fun _ => rfl

theorem patternWithin_echo {p : Parser (Pattern Span)} (hp : Echo P p p) :
    Echo P (patternWithin p) (patternWithin p) := by
  refine .bind .current fun t u h => ?_
  rw [P.kind h]
  refine .ite ?_ (atom_echo _ hp)
  exact .andThen .advance fun _ _ => .andThen (.many (startsAtom_blind _) (atom_echo _ hp)) fun _ _ =>
    .andThen (.spanFrom _ _) fun _ _ => .pure trivial

theorem pattern_echo (depth : Nat) : Echo P (pattern depth) (pattern depth) := by
  induction depth with
  | zero => exact .reject _ _
  | succ depth ih => exact patternWithin_echo ih

theorem typeApplication_echo {p : Parser (Ty Span)} (hp : Echo P p p) :
    Echo P (typeApplication p) (typeApplication p) := by
  refine .bind .current fun t u h => ?_
  rw [P.kind h]
  refine .ite (.andThen .advance fun _ _ => ?_) (atom_echo _ hp)
  refine .andThen (.many (startsAtom_blind _) (atom_echo _ hp)) fun as bs => ?_
  split <;> split <;> exact fun _ _ _ _ hcd => .done trivial hcd

theorem quantified_echo {p : Parser (Ty Span)} (hp : Echo P p p) :
    Echo P (quantified p) (quantified p) := by
  refine .located (.andThen .advance fun _ _ => .andThen (.many (.isAt _) (Echoes.echo .advance)) fun _ _ => ?_)
  exact .andThen (.expect _ _) fun _ _ => .andThen hp fun _ _ => .pure trivial

theorem typeWithin_echo {p : Parser (Ty Span)} (hp : Echo P p p) :
    Echo P (typeWithin p) (typeWithin p) := by
  refine .andThen (.closing (R := fun _ _ => True) (.bounded fun bound => ?_)) fun _ _ => .pure trivial
  induction bound with
  | zero => exact .unexpected _ _
  | succ bound ih =>
    refine .test (.isAt _) fun _ => .ite (.andThen (quantified_echo hp) fun _ _ => .pure trivial) ?_
    refine .andThen .start fun _ _ => .andThen (typeApplication_echo hp) fun _ _ => ?_
    refine .test (.isAt _) fun _ => .ite ?_ (.pure trivial)
    exact .andThen .advance fun _ _ => .andThen ih fun _ _ => .pure trivial

theorem type_echo (depth : Nat) : Echo P (type depth) (type depth) := by
  induction depth with
  | zero => exact .reject _ _
  | succ depth ih => exact typeWithin_echo ih

theorem operator_echo : Echoes P (fun x y => P.rel x.2 y.2) operator operator := by
  refine .bind .advance fun t u h => ?_
  rw [P.text h]
  split
  · exact .pure h
  · exact fun _ _ _ _ hcd => .failed (.unknownOperator _) hcd

theorem climb_echo {operand : Parser (Expr Span)} (h : Echo P operand operand) (climbs power : Nat) :
    Echo P (climb operand climbs power) (climb operand climbs power) := by
  induction climbs generalizing power with
  | zero => exact h
  | succ climbs ih =>
    refine .andThen .start fun _ _ => .andThen h fun _ _ => .andThen (.many ?_ ?_) fun _ _ =>
      .pure trivial
    · exact .of_kind (fun k => bindsAtLeast power ⟨⟨k, "", default⟩, [], 0⟩) fun _ => rfl
    · refine .bind (.closing operator_echo) fun x y hop => ?_
      simp only [P.kind hop]
      exact .andThen (.closing (ih _)) fun _ _ => .pure trivial

theorem startsRecord_blind : Blind P startsRecord := by
  intro c d hcd
  obtain ⟨t, ts, e⟩ := c
  obtain ⟨u, us, e'⟩ := d
  obtain ⟨hcur, hrest⟩ := List.forall₂_cons.1 hcd.paired
  have hkind : (Cursor.mk u us e').isAt .lbrace = (Cursor.mk t ts e).isAt .lbrace :=
    Blind.isAt _ _ _ hcd
  rw [startsRecord, startsRecord, hkind]
  cases hrest with
  | nil => rfl
  | cons hn hrest =>
    cases hrest with
    | nil => rfl
    | cons he _ => simp only [P.kind hn, P.kind he]

section

variable {p : Parser (Expr Span)} {pp : Parser (Pattern Span)} {tp : Parser (Ty Span)}

theorem suffix_echo (hp : Echo P p p) : Echo P (suffix p) (suffix p) := by
  have hfield : Echo P (fieldValue p) (fieldValue p) :=
    .located (.andThen (.expect _ _) fun _ _ => .andThen (.expect _ _) fun _ _ =>
      .andThen hp fun _ _ => .pure trivial)
  refine .bind .advance fun t u h => ?_
  rw [P.kind h]
  refine .ite (.andThen (.expect _ _) fun _ _ => .pure trivial) ?_
  exact .andThen (.commas _ hfield) fun _ _ => .andThen (.expectClosing _ _ _) fun _ _ => .pure trivial

theorem withSuffixes_echo (hp : Echo P p p) {operand : Parser (Expr Span)}
    (h : Echo P operand operand) : Echo P (withSuffixes p operand) (withSuffixes p operand) := by
  refine .andThen .start fun _ _ => .andThen h fun _ _ => .andThen (.many ?_ ?_) fun _ _ =>
    .pure trivial
  · exact .or (.isAt _) startsRecord_blind
  · exact .echo (.closing (suffix_echo hp))

theorem caseOf_echo (hp : Echo P p p) (hpp : Echo P pp pp) : Echo P (caseOf p pp) (caseOf p pp) := by
  have hclause : Echo P (clause p pp) (clause p pp) :=
    .located (.andThen hpp fun _ _ => .andThen (.expect _ _) fun _ _ =>
      .andThen hp fun _ _ => .pure trivial)
  refine .located (.andThen .advance fun _ _ => .andThen hp fun _ _ =>
    .andThen (.expect _ _) fun _ _ => ?_)
  exact .andThen (.commas _ hclause) fun _ _ => .andThen (.expectClosing _ _ _) fun _ _ => .pure trivial

theorem lambda_echo (hp : Echo P p p) : Echo P (lambda p) (lambda p) :=
  .located (.andThen .advance fun _ _ => .andThen (.expect _ _) fun _ _ =>
    .andThen (.expect _ _) fun _ _ => .andThen hp fun _ _ => .pure trivial)

theorem statement_echo (hp : Echo P p p) (hpp : Echo P pp pp) :
    Echo P (statement p pp) (statement p pp) := by
  refine .located (.test (.isAt _) fun _ => .ite ?_ (.andThen hp fun _ _ => .pure trivial))
  exact .andThen .advance fun _ _ => .andThen hpp fun _ _ => .andThen (.expect _ _) fun _ _ =>
    .andThen hp fun _ _ => .pure trivial

theorem block_echo (hp : Echo P p p) (hpp : Echo P pp pp) : Echo P (block p pp) (block p pp) := by
  have hstatements : Echo P (statements p pp) (statements p pp) := by
    refine .bounded fun bound => ?_
    induction bound with
    | zero => exact .pure trivial
    | succ bound ih =>
      refine .andThen (statement_echo hp hpp) fun _ _ => .test (.isAt _) fun _ =>
        .ite (.andThen .advance fun _ _ => ?_) (.pure trivial)
      exact .test (.or (.isAt _) (.isAt _)) fun _ => .ite (.pure trivial)
        (.andThen ih fun _ _ => .pure trivial)
  refine .located (.andThen (.expect _ _) fun _ _ => .test (.isAt _) fun _ => .ite (.reject _ _) ?_)
  refine .test (.isAt _) fun _ => .ite (.andThen .advance fun _ _ => .pure trivial) ?_
  exact .andThen hstatements fun _ _ => .andThen (.expectClosing _ _ _) fun _ _ => .pure trivial

theorem ifLet_echo (hp : Echo P p p) (hpp : Echo P pp pp) : Echo P (ifLet p pp) (ifLet p pp) := by
  have hblock := block_echo hp hpp
  refine .located (.andThen .advance fun _ _ => .andThen (.expect _ _) fun _ _ => ?_)
  refine .andThen hpp fun _ _ => .andThen (.expect _ _) fun _ _ => .andThen hp fun _ _ => ?_
  exact .andThen hblock fun _ _ => .andThen (.expect _ _) fun _ _ => .andThen hblock fun _ _ =>
    .pure trivial

theorem application_echo (hp : Echo P p p) (hpp : Echo P pp pp) :
    Echo P (application p pp) (application p pp) := by
  have hatom : Echo P (atom .expression p) (atom .expression p) := atom_echo _ hp
  have hprimary : Echo P (primary p pp) (primary p pp) := by
    refine .bind .current fun t u h => ?_
    rw [P.kind h]
    split
    · exact lambda_echo hp
    · exact ifLet_echo hp hpp
    · exact caseOf_echo hp hpp
    · exact block_echo hp hpp
    · exact .test (startsAtom_blind _) fun _ => .ite hatom (.unexpected _ _)
  refine .andThen .start fun _ _ => .andThen (withSuffixes_echo hp hprimary) fun _ _ => ?_
  exact .andThen (.many (startsAtom_blind _) (.echo (.closing (withSuffixes_echo hp hatom))))
    fun _ _ => .pure trivial

theorem expressionWithin_echo (hp : Echo P p p) (hpp : Echo P pp pp) (htp : Echo P tp tp) :
    Echo P (expressionWithin p pp tp) (expressionWithin p pp tp) := by
  refine .andThen .start fun _ _ => .andThen (climb_echo (application_echo hp hpp) _ _) fun _ _ => ?_
  refine .test (.isAt _) fun _ => .ite ?_ (.pure trivial)
  exact .andThen .advance fun _ _ => .andThen htp fun _ _ => .andThen (.spanFrom _ _) fun _ _ =>
    .pure trivial

end

theorem expression_echo (depth : Nat) : Echo P (expression depth) (expression depth) := by
  induction depth with
  | zero => exact .reject _ _
  | succ depth ih => exact expressionWithin_echo ih (pattern_echo _) (type_echo _)

section

variable {bp : Parser (Expr Span)} {pp : Parser (Pattern Span)} {tp ap : Parser (Ty Span)}

theorem fnDecl_echo (hbp : Echo P bp bp) (hpp : Echo P pp pp) (htp : Echo P tp tp) :
    Echo P (fnDecl bp pp tp) (fnDecl bp pp tp) := by
  have hparam : Echo P (param pp tp) (param pp tp) :=
    .located (.andThen .advance fun _ _ => .andThen hpp fun _ _ => .andThen (.expect _ _) fun _ _ =>
      .andThen htp fun _ _ => .andThen (.expectClosing _ _ _) fun _ _ => .pure trivial)
  have hreturn : Echo P (returnType tp) (returnType tp) :=
    .test (.isAt _) fun _ => .ite (.andThen .advance fun _ _ => .andThen htp fun _ _ => .pure trivial)
      (.pure trivial)
  refine .located (.andThen .advance fun _ _ => .andThen (.expect _ _) fun _ _ => ?_)
  exact .andThen (.many (.isAt _) hparam) fun _ _ => .andThen hreturn fun _ _ =>
    .andThen hbp fun _ _ => .pure trivial

theorem typeBody_echo (htp : Echo P tp tp) (hap : Echo P ap ap) {name name' : String} 
    (h : name' = name) : Echo P (typeBody tp ap name) (typeBody tp ap name') := by
  have hvariant : Echo P (variant ap) (variant ap) :=
    .located (.andThen (.expect _ _) fun _ _ => .andThen (.many (startsAtom_blind _) hap) fun _ _ =>
      .pure trivial)
  have hfield : Echo P (field tp) (field tp) :=
    .located (.andThen (.expect _ _) fun _ _ => .andThen (.expect _ _) fun _ _ =>
      .andThen htp fun _ _ => .pure trivial)
  rw [h]
  refine .test (.isAt _) fun _ => .ite ?_ (.test (.isAt _) fun _ => .ite ?_ (.reject _ _))
  · exact .andThen (.many (.isAt _) (.andThen .advance fun _ _ => hvariant)) fun _ _ => .pure trivial
  · exact .andThen .advance fun _ _ => .andThen (.commas _ hfield) fun _ _ =>
      .andThen (.expectClosing _ _ _) fun _ _ => .pure trivial

theorem typeDecl_echo (htp : Echo P tp tp) (hap : Echo P ap ap) :
    Echo P (typeDecl tp ap) (typeDecl tp ap) := by
  refine .located (.andThen .advance fun _ _ => .bind (.expect _ _) fun t u h => ?_)
  refine .andThen (.many (.isAt _) (.echo .advance)) fun _ _ => .andThen (.expect _ _) fun _ _ => ?_
  exact .andThen (typeBody_echo htp hap (P.text h)) fun _ _ => .pure trivial

end

theorem declaration_echo (depth : Nat) : Echo P (declaration depth) (declaration depth) := by
  refine .bind .current fun t u h => ?_
  rw [P.kind h]
  split
  · exact fnDecl_echo (block_echo (expression_echo depth) (pattern_echo depth)) (pattern_echo depth)
      (type_echo depth)
  · exact typeDecl_echo (type_echo depth) (atom_echo _ (type_echo depth))
  · exact .unexpected _ _

theorem program_echo (depth : Nat) : Echo P (program depth) (program depth) := by
  refine .andThen (.many (.not (.isAt _)) (declaration_echo depth)) fun _ _ => ?_
  exact .andThen .current fun _ _ => fun _ _ _ _ hcd => .done trivial hcd

theorem tree_echo (depth : Nat) (form : Form) : Echo P (tree depth form) (tree depth form) := by
  have hend : ∀ category, Echo P (tree.atEnd category) (tree.atEnd category) := fun category =>
    .test (.isAt _) fun _ => .ite (.pure trivial) (.unexpected _ _)
  cases form with
  | program => exact .andThen (program_echo depth) fun _ _ => .pure trivial
  | expression =>
    exact .andThen (expression_echo depth) fun _ _ => .andThen (hend _) fun _ _ => .pure trivial
  | pattern =>
    exact .andThen (pattern_echo depth) fun _ _ => .andThen (hend _) fun _ _ => .pure trivial
  | type =>
    exact .andThen (type_echo depth) fun _ _ => .andThen (hend _) fun _ _ => .pure trivial

end Parser
end TinyFront
