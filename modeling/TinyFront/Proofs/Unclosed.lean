import TinyFront.Proofs.Delimiters
import TinyFront.Proofs.Laid
import TinyFront.Proofs.Refusals

/-!
Every parser goes alike over a token list and over the one with a closing delimiter put in before its
end. So an end of input that is refused as unclosed is one at which a delimiter is due, and the
refusal names it.
-/
namespace TinyFront

namespace Parser

variable {α β : Type} {I : Insertion} {n : Nat} {file : String} {c d : Cursor}

/-! Atoms. -/

theorem Refuses.current {f : Token → Parser β} (h : ∀ t, t.kind.isEdge = true → (f t).Refuses) :
    (Parser.current >>= f).Refuses := fun file c hc => h c.current hc file c hc

theorem Strict.current {f : Token → Parser β} (h : ∀ t, (f t).Begins 1)
    (hr : ∀ t, t.kind.isEdge = true → (f t).Refuses) : (Parser.current >>= f).Strict :=
  ⟨.current hr, .current h⟩

section

variable {ε : Type} {f : Family ε} {element : Parser ε}

/-- A number that is refused is refused in front of the delimiter. -/
theorem number_begins (category : Category) :
    (Parser.current >>= fun t => advance >>= fun _ => number category t).Begins 1 := by
  intro I file c d hcd hc
  have hin := hcd.inside hc
  rw [current_bind, current_bind, advance_bind, advance_bind, hin.current]
  obtain ⟨n, hn⟩ | ⟨-, hlong⟩ | hbad := number_cases c.current
  · rw [hn _ _ _ _ rfl, hn _ _ _ _ rfl]
    exact .done hin.advance (by have := hin.length; omega)
  · rw [hlong, hlong]
    exact .early ⟨_, hin.mem, by simp⟩ ⟨_, hin.mem, by simp⟩
  · rw [hbad _ _ _ _ rfl, hbad _ _ _ _ rfl]
    exact .early (Rejection.before hin.mem rfl rfl) (Rejection.before hin.mem rfl rfl)

theorem leaf_strict : (leaf f).Strict := by
  refine ⟨.current fun t ht => ?_, fun I file c d hcd hc => ?_⟩
  · cases hk : t.kind <;> simp only [hk, TokenKind.isEdge] at ht
    all_goals first | exact Strict.unexpected.refuses | cases ht
  · have hword : ∀ l : Leaf, (advance >>= fun _ => pure l : Parser Leaf).Begins 1 := fun l =>
      .bind .advance fun _ => .pure l
    have hnone : (unexpected f.category (.category f.category) : Parser Leaf).Begins 1 :=
      Strict.unexpected.begins
    have hnumber : (Parser.current >>= fun t => advance >>= fun _ => number f.category t >>= fun n =>
        pure (.number n) : Parser Leaf).Begins 1 := by
      simpa only [bind_assoc] using (number_begins f.category).bind fun n => .pure (Leaf.number n)
    have hrun := hnumber I file c d hcd hc
    rw [current_bind, current_bind, (hcd.inside hc).current] at hrun
    rw [leaf, current_bind, current_bind, (hcd.inside hc).current]
    generalize c.current = t at hrun
    obtain ⟨k, text, span⟩ := t
    cases k with
    | underscore | identifier | typeIdentifier => exact hword _ I file c d hcd hc
    | integer => exact hrun
    | boolean =>
      cases hb : f.booleans with
      | true => simpa only [if_true] using hword _ I file c d hcd hc
      | false => simpa only [Bool.false_eq_true, if_false] using hnone I file c d hcd hc
    | _ => exact hnone I file c d hcd hc

theorem parenthesised_begins (he : element.Strict) : (parenthesised f element).Begins 1 :=
  .located (.bind .advance fun _ => (Due.commas f.category .lparen (.inl rfl) he
    fun ⟨_, _⟩ => .expectClosing (.inl rfl) fun _ => .pure _).lenient)

theorem atom_strict (he : element.Strict) : (atom f element).Strict := by
  refine .current (fun t => ?_) fun t ht => ?_
  · split
    · exact parenthesised_begins he
    · exact leaf_strict.begins.bind fun _ => .pure _
  · have hk : t.kind ≠ .lparen := fun hk => by simp [hk, TokenKind.isEdge] at ht
    rw [if_neg hk]
    exact leaf_strict.refuses.bind

theorem startsAtom_spots : Spots f.startsAtom :=
  .of_kind (g := f.startsWith) (fun _ => rfl) fun k hk => by cases k <;> first | rfl | cases hk

theorem atoms_lenient (he : element.Strict) : (many f.startsAtom (atom f element)).Lenient :=
  .many startsAtom_spots (atom_strict he).begins

end

/-! Patterns and types. -/

theorem patternWithin_strict {inner : Parser (Pattern Span)} (h : inner.Strict) :
    (patternWithin inner).Strict := by
  refine .current (fun t => ?_) fun t ht => ?_
  · split
    · exact .bind .advance fun _ => .bind (atoms_lenient h) fun _ => .bind (.spanFrom _) fun _ => .pure _
    · exact (atom_strict h).begins
  · rw [if_neg fun hk => by simp [hk, TokenKind.isEdge] at ht]
    exact (atom_strict h).refuses

theorem pattern_strict : ∀ depth, (pattern depth).Strict
  | 0 => .reject rfl
  | depth + 1 => patternWithin_strict (pattern_strict depth)

section

variable {inner : Parser (Ty Span)}

theorem typeApplication_strict (h : inner.Strict) : (typeApplication inner).Strict := by
  refine .current (fun t => ?_) fun t ht => ?_
  · split
    · refine .bind .advance fun _ => .bind (atoms_lenient h) fun args => ?_
      split
      · exact .pure _
      · exact .bind (.spanFrom _) fun _ => .pure _
    · exact (atom_strict h).begins
  · rw [if_neg fun hk => by simp [hk, TokenKind.isEdge] at ht]
    exact (atom_strict h).refuses

theorem names_lenient : (many (·.isAt .identifier) advance).Lenient := .many (.isAt rfl) .advance

theorem quantified_begins (h : inner.Strict) : (quantified inner).Begins 1 :=
  .located (.bind .advance fun _ => .bind names_lenient fun _ =>
    .bind (Strict.expect rfl).lenient fun _ => .bind h.lenient fun _ => .pure _)

theorem arrowChain_refuses (h : inner.Strict) : ∀ m, (arrowChain inner m).Refuses
  | 0 => Strict.unexpected.refuses
  | _ + 1 => .test (.isAt rfl) (.start fun _ => (typeApplication_strict h).refuses.bind)

theorem arrowChain_mirrors (h : inner.Strict) (m n : Nat) (hcd : I.Ahead c d)
    (hm : c.remaining.length ≤ m) (hn : d.remaining.length ≤ n) :
    (arrowChain inner m file c).Mirrors I (c.remaining.length - 1) (arrowChain inner n file d) := by
  induction m generalizing n c d with
  | zero => exact absurd hm (by simp [Cursor.remaining])
  | succ m ih =>
    cases n with
    | zero => exact absurd hn (by simp [Cursor.remaining])
    | succ n =>
      refine mirrors_of_refuses (arrowChain_refuses h _) (arrowChain_refuses h _) hcd fun hc => ?_
      simp only [arrowChain]
      rw [test_bind, test_bind, (Spots.isAt rfl).same I c d hcd]
      split
      · exact (quantified_begins h).bind (fun _ => .pure _) I file c d hcd hc
      · rw [start_bind, start_bind, (hcd.inside hc).current]
        refine (typeApplication_strict h).mirrors_round rfl (fun _ => .pure _) hcd fun t c' d' hcd' hlt => ?_
        have hlen := hcd.length
        have hlen' := hcd'.length
        exact Lenient.mirrors_bind (fun _ => .pure _) ((ih n hcd' (by omega) (by omega)).mono (Nat.sub_le ..))

theorem arrows_strict (h : inner.Strict) : (arrows inner).Strict :=
  ⟨fun file c => arrowChain_refuses h _ file c, fun _ _ _ _ hcd _ =>
    arrowChain_mirrors h _ _ hcd (Nat.le_refl _) (Nat.le_refl _)⟩

theorem typeWithin_strict (h : inner.Strict) : (typeWithin inner).Strict :=
  .bind (.closing (arrows_strict h)) fun _ => .pure _

end

theorem type_strict : ∀ depth, (type depth).Strict
  | 0 => .reject rfl
  | depth + 1 => typeWithin_strict (type_strict depth)

/-! Expressions. -/

theorem operator_begins : operator.Begins 1 := by
  intro I file c d hcd hc
  have hin := hcd.inside hc
  rw [operator, advance_bind, advance_bind, hin.current]
  cases Operator.ofSymbol? c.current.text with
  | some o => exact .done hin.advance (by have := hin.length; omega)
  | none => exact .early ⟨_, hin.mem, by simp⟩ ⟨_, hin.mem, by simp⟩

theorem bindsAtLeast_spots (power : Nat) : Spots (bindsAtLeast power) := by
  refine .of_kind (g := fun k => k.powers?.elim false (power ≤ ·.1)) (fun c => ?_) fun k hk => ?_
  · rw [bindsAtLeast]
    cases c.current.kind.powers? <;> rfl
  · cases k <;> first | rfl | cases hk

theorem climb_strict {operand : Parser (Expr Span)} (h : operand.Strict) :
    ∀ climbs power, (climb operand climbs power).Strict
  | 0, _ => h
  | climbs + 1, power => .start fun _ => .bind h fun _ => .bind (.many (bindsAtLeast_spots power)
      (.bind (.closing operator_begins) fun ⟨⟨_, _⟩, _⟩ =>
        .bind (Strict.closing (climb_strict h climbs _)).lenient fun ⟨_, _⟩ => .pure _)) fun _ => .pure _

/-- A record is opened by three tokens, and the delimiter is none of them. -/
theorem startsRecord_of_ahead (hcd : I.Ahead c d) : startsRecord d = startsRecord c := by
  have hopens := (Spots.isAt (k := .lbrace) rfl).same I c d hcd
  obtain ⟨ts, -, hc, hd⟩ := hcd.exists_tokens
  have hne : ∀ k : TokenKind, k.isEdge = false → I.closer.kind ≠ k := fun k hk heq => by
    simp [← heq, I.closes.isEdge] at hk
  have hassign : (I.closer.kind == .assign) = false := beq_eq_false_iff_ne.2 (hne .assign rfl)
  have hstop : (TokenKind.eof == .assign) = false := rfl
  rw [startsRecord, startsRecord, hopens]
  obtain ⟨t, rest, stop⟩ := c
  obtain ⟨t', rest', stop'⟩ := d
  rcases ts with _ | ⟨u, _ | ⟨v, _ | ⟨w, ts⟩⟩⟩
  all_goals
    simp only [Cursor.remaining, List.nil_append, List.cons_append, List.cons.injEq] at hc hd
    obtain ⟨rfl, rfl⟩ := hc
    obtain ⟨rfl, rfl⟩ := hd
    simp [hne .identifier rfl, hassign, hstop, I.stop_eof]

theorem startsSuffix_spots : Spots startsSuffix where
  same I c d hcd := by
    have hdot := (Spots.isAt (k := .dot) rfl).same I c d hcd
    rw [startsSuffix, startsSuffix, startsRecord_of_ahead hcd, hdot]
  begins c hc := by
    rw [startsSuffix, startsRecord, Bool.or_eq_true, Bool.and_eq_true] at hc
    obtain hdot | ⟨hbrace, -⟩ := hc
    · rw [Cursor.kind_of_isAt hdot]
      rfl
    · rw [Cursor.kind_of_isAt hbrace]
      rfl

def closingBrace (build : Span → Expr Span) : Parser (Span → Expr Span) := do
  let _ ← expectClosing .expression .lbrace .rbrace
  return build

def bracedStatements (inner : Parser (Expr Span)) (pattern : Parser (Pattern Span)) :
    Parser (Span → Expr Span) := do
  let ss ← statements inner pattern
  closingBrace (.block ss)

section

variable {inner : Parser (Expr Span)} {pattern : Parser (Pattern Span)} {type : Parser (Ty Span)}
  (hi : inner.Strict) (hp : pattern.Strict) (ht : type.Strict)

include hi

theorem fieldValue_strict : (fieldValue inner).Strict :=
  .located (.bind (.expect rfl) fun _ => .bind (Strict.expect rfl).lenient fun _ =>
    .bind hi.lenient fun _ => .pure _)

theorem suffix_begins : (suffix inner).Begins 1 := by
  refine .bind .advance fun t => ?_
  split
  · exact .bind (Strict.expect rfl).lenient fun _ => .pure _
  · exact (Due.commas .expression .lbrace (.inr rfl) (fieldValue_strict hi)
      fun ⟨_, _⟩ => .expectClosing (.inr rfl) fun _ => .pure _).lenient

theorem withSuffixes_strict {operand : Parser (Expr Span)} (h : operand.Strict) :
    (withSuffixes inner operand).Strict :=
  .start fun _ => .bind h fun _ => .bind (.many startsSuffix_spots (.closing (suffix_begins hi))) fun _ => .pure _

theorem lambda_begins : (lambda inner).Begins 1 :=
  .located (.bind .advance fun _ => .bind (Strict.expect rfl).lenient fun _ =>
    .bind (Strict.expect rfl).lenient fun _ => .bind hi.lenient fun _ => .pure _)

include hp

theorem clause_strict : (clause inner pattern).Strict :=
  .located (.bind hp fun _ => .bind (Strict.expect rfl).lenient fun _ => .bind hi.lenient fun _ => .pure _)

theorem caseOf_begins : (caseOf inner pattern).Begins 1 :=
  .located (.bind .advance fun _ => .bind hi.lenient fun _ => .bind (Strict.expect rfl).lenient fun _ =>
    (Due.commas .expression .lbrace (.inr rfl) (clause_strict hi hp)
      fun ⟨_, _⟩ => .expectClosing (.inr rfl) fun _ => .pure _).lenient)

theorem statement_strict : (statement inner pattern).Strict :=
  .located (.test (.isAt rfl)
    (.bind .advance fun _ => .bind hp.lenient fun _ => .bind (Strict.expect rfl).lenient fun _ =>
      .bind hi.lenient fun _ => .pure _)
    (.bind hi fun _ => .pure _))

omit hi hp in
/-- Behind an opening brace stands the closing one, or statements do. -/
theorem braced_eq (file : String) (c : Cursor) : (do
    if ← test (·.isAt .eof) then reject .expression (.unclosed .lbrace .rbrace)
    else if ← test (·.isAt .rbrace) then
      let _ ← advance
      return emptyBlock
    else bracedStatements inner pattern : Parser (Span → Expr Span)) file c =
      if listEnds .rbrace c then closingBrace emptyBlock file c else bracedStatements inner pattern file c := by
  by_cases heof : c.current.kind = .eof
  · rw [test_bind, if_pos (Cursor.isAt_iff.2 heof), if_pos (by simp [listEnds, Cursor.isAt, heof])]
    exact (bind_failed (expectClosing_of_eof (.inr rfl) heof)).symm
  · rw [test_bind, if_neg (by simpa [Cursor.isAt] using heof)]
    by_cases hk : c.current.kind = .rbrace
    · rw [test_bind, if_pos (Cursor.isAt_iff.2 hk), if_pos (by simp [listEnds, Cursor.isAt, hk])]
      exact (bind_done (k := fun _ => pure emptyBlock) (expectClosing_of_kind hk)).symm
    · rw [test_bind, if_neg (by simpa [Cursor.isAt] using hk),
        if_neg (by simp [listEnds, Cursor.isAt, hk, heof])]

theorem block_strict : (block inner pattern).Strict := by
  have hs := statement_strict hi hp
  have hdue : ∀ build, Due .expression .lbrace .rbrace (closingBrace build) := fun _ =>
    .expectClosing (.inr rfl) fun _ => .pure _
  have hfilled : (bracedStatements inner pattern).Lenient := .statements hs fun ss => hdue (.block ss)
  have hrefuses : (bracedStatements inner pattern).Refuses := .statements hs
  refine .located (.bind (.expect rfl) fun _ I file c d hcd => ?_)
  refine Eq.mpr ?_ ((hdue emptyBlock).mirrors_unless (.inr rfl) hcd hrefuses.at_closer fun _ => hfilled I file c d hcd)
  rw [← braced_eq, ← braced_eq]
  rfl

theorem ifLet_begins : (ifLet inner pattern).Begins 1 :=
  .located (.bind .advance fun _ => .bind (Strict.expect rfl).lenient fun _ => .bind hp.lenient fun _ =>
    .bind (Strict.expect rfl).lenient fun _ => .bind hi.lenient fun _ =>
    .bind (block_strict hi hp).lenient fun _ => .bind (Strict.expect rfl).lenient fun _ =>
    .bind (block_strict hi hp).lenient fun _ => .pure _)

theorem primary_strict : (primary inner pattern).Strict := by
  have hatom : (do
      if ← test Family.expression.startsAtom then atom .expression inner
      else unexpected .expression (.category .expression) : Parser (Expr Span)).Strict :=
    .test startsAtom_spots (atom_strict hi).begins .unexpected
  refine .current (fun t => ?_) fun t ht => ?_
  · split
    · exact lambda_begins hi
    · exact ifLet_begins hi hp
    · exact caseOf_begins hi hp
    · exact (block_strict hi hp).begins
    · exact hatom.begins
  · split <;> rename_i hk <;> first | exact hatom.refuses | simp [hk, TokenKind.isEdge] at ht

theorem application_strict : (application inner pattern).Strict :=
  .start fun _ => .bind (withSuffixes_strict hi (primary_strict hi hp)) fun _ =>
    .bind (.many startsAtom_spots (.closing (withSuffixes_strict hi (atom_strict hi)).begins)) fun _ =>
      .pure _

include ht

theorem expressionWithin_strict : (expressionWithin inner pattern type).Strict :=
  .start fun _ => .bind (climb_strict (application_strict hi hp) _ _) fun _ =>
    .test (.isAt rfl) (.bind (.mono .advance (Nat.zero_le 1)) fun _ => .bind ht.lenient fun _ =>
      .bind (.spanFrom _) fun _ => .pure _) (.pure _)

end

theorem expression_strict : ∀ depth, (expression depth).Strict
  | 0 => .reject rfl
  | depth + 1 => expressionWithin_strict (expression_strict depth) (pattern_strict _) (type_strict _)

/-! Declarations. -/

section

variable {block : Parser (Expr Span)} {pattern : Parser (Pattern Span)} {type atomicType : Parser (Ty Span)}
  (hb : block.Strict) (hp : pattern.Strict) (ht : type.Strict) (ha : atomicType.Strict)

include ha

theorem variant_strict : (variant atomicType).Strict :=
  .located (.bind (.expect rfl) fun _ => .bind (.many startsAtom_spots ha.begins) fun _ => .pure _)

theorem sum_lenient : (sum atomicType).Lenient :=
  .bind (.many (.isAt rfl) (.bind .advance fun _ => (variant_strict ha).lenient)) fun _ => .pure _

omit ha
include ht

theorem field_strict : (field type).Strict :=
  .located (.bind (.expect rfl) fun _ => .bind (Strict.expect rfl).lenient fun _ =>
    .bind ht.lenient fun _ => .pure _)

theorem product_begins : (product type).Begins 1 :=
  .bind .advance fun _ => (Due.commas .declaration .lbrace (.inr rfl) (field_strict ht)
    fun ⟨_, _⟩ => .expectClosing (.inr rfl) fun _ => .pure _).lenient

theorem returnType_lenient : (returnType type).Lenient :=
  .test (.isAt rfl) (.bind (.mono .advance (Nat.zero_le 1)) fun _ => .bind ht.lenient fun _ => .pure _)
    (.pure _)

include ha

theorem typeBody_lenient (name : String) : (typeBody type atomicType name).Lenient :=
  .test (.isAt rfl) (sum_lenient ha).begins (.test (.isAt rfl) ((product_begins ht).mono (Nat.zero_le 1))
    (Strict.reject rfl).lenient)

theorem typeDecl_begins : (typeDecl type atomicType).Begins 1 :=
  .located (.bind .advance fun _ => .bind (Strict.expect rfl).lenient fun _ =>
    .bind names_lenient fun _ => .bind (Strict.expect rfl).lenient fun _ =>
    .bind (typeBody_lenient ht ha _) fun _ => .pure _)

omit ha
include hp

theorem param_begins : (param pattern type).Begins 1 :=
  .located (.bind .advance fun _ => .bind hp.lenient fun _ => .bind (Strict.expect rfl).lenient fun _ =>
    .bind ht.lenient fun _ => (Due.expectClosing (.inl rfl) fun _ => .pure _).lenient)

include hb

theorem fnDecl_begins : (fnDecl block pattern type).Begins 1 :=
  .located (.bind .advance fun _ => .bind (Strict.expect rfl).lenient fun _ =>
    .bind (.many (.isAt rfl) (param_begins hp ht)) fun _ => .bind (returnType_lenient ht) fun _ =>
    .bind hb.lenient fun _ => .pure _)

include ha

theorem declarationWithin_strict : (declarationWithin block pattern type atomicType).Strict := by
  refine .current (fun t => ?_) fun t ht' => ?_
  · split
    · exact fnDecl_begins hb hp ht
    · exact typeDecl_begins ht ha
    · exact Strict.unexpected.begins
  · split <;> rename_i hk <;>
      first | exact Strict.unexpected.refuses | simp [hk, TokenKind.isEdge] at ht'

end

theorem declaration_strict (depth : Nat) : (declaration depth).Strict :=
  declarationWithin_strict (block_strict (expression_strict depth) (pattern_strict depth))
    (pattern_strict depth) (type_strict depth) (atom_strict (type_strict depth))

/-! Whole token lists. A run that succeeds may be refused at the delimiter, so only what a refused run
says of the other one is carried on. -/

/-- The two runs go alike if the first one is refused. -/
def Tracks (p : Parser α) : Prop :=
  ∀ I file c d e s, I.Ahead c d → p file c = .failed e s →
    (p file c).Mirrors I c.remaining.length (p file d)

theorem mirrors_bind_quiet {p q : Parser α} {f : α → Parser β} {e : Failure} {s : Cursor}
    (hp : ∀ e s, p file c = .failed e s → (p file c).Mirrors I n (q file d)) (hf : ∀ a, (f a).Quiet)
    (hrun : (p >>= f) file c = .failed e s) :
    ((p >>= f) file c).Mirrors I n ((q >>= f) file d) := by
  cases hx : p file c with
  | done a c' =>
    obtain ⟨b, hb⟩ := hf a file c'
    rw [bind_done hx, hb] at hrun
    cases hrun
  | failed e' s' =>
    refine mirrors_bind (hp e' s' hx) (fun a c' d' hdone => ?_) fun a d' hd' => ?_
    · rw [hx] at hdone
      cases hdone
    · obtain ⟨b, hb⟩ := hf a file d'
      exact .inl ⟨b, d', hb, hd'⟩

theorem Tracks.bind_quiet {p : Parser α} {f : α → Parser β} (hp : p.Tracks) (hf : ∀ a, (f a).Quiet) :
    (p >>= f).Tracks :=
  fun I file c d _ _ hcd hrun => mirrors_bind_quiet (fun e s => hp I file c d e s hcd) hf hrun

theorem Lenient.bind_tracks {p : Parser α} {f : α → Parser β} (hp : p.Lenient) (hf : ∀ a, (f a).Tracks)
    (hlast : ∀ a file d, d.current.kind = .eof → ∃ b, f a file d = .done b d) : (p >>= f).Tracks := by
  intro I file c d e s hcd hrun
  refine Parser.mirrors_bind (hp I file c d hcd) (fun a c' d' hdone hcd' hle => ?_) fun a d' hd' => ?_
  · rw [Parser.bind_done hdone] at hrun
    exact (hf a I file c' d' e s hcd' hrun).mono hle
  · obtain ⟨b, hb⟩ := hlast a file d' (by rw [(Cursor.current_of_remaining hd').1, I.last_eof])
    exact .inl ⟨b, d', hb, hd'⟩

theorem atEnd_of_eof (category : Category) (b : β) {c : Cursor} (hk : c.current.kind = .eof) :
    (tree.atEnd category >>= fun _ => pure b) file c = .done b c := by
  simp [tree.atEnd, Cursor.isAt_iff.2 hk]

theorem atEnd_tracks (category : Category) (b : β) :
    (tree.atEnd category >>= fun _ => pure b).Tracks := by
  intro I file c d e s hcd hrun
  obtain hin | hbehind := hcd.cases
  · have hat : ∀ c : Cursor, c.current.kind ≠ .eof → (tree.atEnd category >>= fun _ => pure b) file c =
        (unexpected category (.kind .eof) : Parser β) file c := fun c hk => by
      have hne : c.isAt .eof = false := by simpa [Cursor.isAt] using hk
      exact bind_failed (by simp [tree.atEnd, hne, unexpected])
    rw [hat c hin.ne_eof, hat d (by rw [hin.current]; exact hin.ne_eof)]
    exact Strict.unexpected.lenient I file c d hcd
  · rw [atEnd_of_eof category b (by rw [hbehind.current, I.stop_eof])] at hrun
    cases hrun

section

variable {item : Parser α}

theorem manyUpTo_of_ne_eof (m : Nat) (hk : c.current.kind ≠ .eof) :
    manyUpTo (fun c => !c.isAt .eof) item (m + 1) file c =
      (item >>= fun a => manyUpTo (fun c => !c.isAt .eof) item m >>= fun as => pure (a :: as)) file c := by
  rw [manyUpTo, test_bind, if_pos (by simpa [Cursor.isAt] using hk)]

theorem manyUpTo_of_eof (m : Nat) (hk : c.current.kind = .eof) :
    manyUpTo (fun c => !c.isAt .eof) item m file c = .done [] c :=
  manyUpTo_of_stop (by simpa [Cursor.isAt] using hk) m

theorem manyUpTo_mirrors (hi : item.Strict) (m n : Nat) {e : Failure} {s : Cursor} (hcd : I.Ahead c d)
    (hm : c.remaining.length ≤ m) (hn : d.remaining.length ≤ n)
    (hrun : manyUpTo (fun c => !c.isAt .eof) item m file c = .failed e s) :
    (manyUpTo (fun c => !c.isAt .eof) item m file c).Mirrors I c.remaining.length
      (manyUpTo (fun c => !c.isAt .eof) item n file d) := by
  induction m generalizing n c d e s with
  | zero => exact absurd hm (by simp [Cursor.remaining])
  | succ m ih =>
    obtain hin | hbehind := hcd.cases
    · obtain ⟨n, rfl⟩ : ∃ n', n = n' + 1 :=
        Nat.exists_eq_add_one.2 (Nat.lt_of_lt_of_le (Nat.zero_lt_succ _) hn)
      rw [manyUpTo_of_ne_eof m hin.ne_eof] at hrun ⊢
      rw [manyUpTo_of_ne_eof n (by rw [hin.current]; exact hin.ne_eof)]
      refine mirrors_bind (hi.mirrors hcd) (fun a c' d' hdone hcd' hle => ?_) fun a d' hd' => ?_
      · rw [bind_done hdone] at hrun
        have hlen := hcd.length
        have hlen' := hcd'.length
        have hpos : 0 < c.remaining.length := Nat.zero_lt_succ _
        exact (mirrors_bind_quiet (fun e s => ih n hcd' (by omega) (by omega)) (fun _ => .pure _) hrun).mono
          (by omega)
      · have hk : d'.current.kind = .eof := by rw [(Cursor.current_of_remaining hd').1, I.last_eof]
        rw [bind_done (manyUpTo_of_eof n hk)]
        exact .inl ⟨_, d', rfl, hd'⟩
    · rw [manyUpTo_of_eof _ (by rw [hbehind.current, I.stop_eof])] at hrun
      cases hrun

end

theorem program_tracks (depth : Nat) : (program depth).Tracks := by
  have hmany : (many (fun c => !c.isAt .eof) (declaration depth)).Tracks := fun _ _ _ _ _ _ hcd =>
    manyUpTo_mirrors (declaration_strict depth) _ _ hcd (Nat.le_refl _) (Nat.le_refl _)
  exact hmany.bind_quiet fun _ => .bind (fun _ c => ⟨c.current, rfl⟩) fun _ =>
    .bind (fun _ _ => ⟨_, rfl⟩) fun _ => .pure _

theorem tree_tracks (depth : Nat) : (form : Form) → (tree depth form).Tracks
  | .program => (program_tracks depth).bind_quiet fun _ => .pure _
  | .expression => (expression_strict depth).lenient.bind_tracks (fun _ => atEnd_tracks _ _)
      fun _ _ _ hk => ⟨_, atEnd_of_eof _ _ hk⟩
  | .pattern => (pattern_strict depth).lenient.bind_tracks (fun _ => atEnd_tracks _ _)
      fun _ _ _ hk => ⟨_, atEnd_of_eof _ _ hk⟩
  | .type => (type_strict depth).lenient.bind_tracks (fun _ => atEnd_tracks _ _)
      fun _ _ _ hk => ⟨_, atEnd_of_eof _ _ hk⟩

/-- Where there is nothing but the end marker, a program is read and everything else is refused. -/
theorem tree_mirrors_behind (depth : Nat) (form : Form) {e : Failure} {s : Cursor} (hbehind : I.Behind c d)
    (hrun : tree depth form file c = .failed e s) :
    (tree depth form file c).Mirrors I n (tree depth form file d) := by
  cases form with
  | program =>
    have hnone : many (fun c => !c.isAt .eof) (declaration depth) file c = .done [] c :=
      manyUpTo_of_eof _ (by rw [hbehind.current, I.stop_eof])
    rw [tree, program, bind_assoc, bind_done hnone] at hrun
    cases hrun
  | expression =>
    have h : (tree depth .expression).Refuses := (expression_strict depth).refuses.bind
    exact mirrors_behind h h hbehind
  | pattern =>
    have h : (tree depth .pattern).Refuses := (pattern_strict depth).refuses.bind
    exact mirrors_behind h h hbehind
  | type =>
    have h : (tree depth .type).Refuses := (type_strict depth).refuses.bind
    exact mirrors_behind h h hbehind

/-- The delimiter is got past: there is a tree, or the end marker behind the delimiter is refused. -/
def Passes (p : Parser α) (file : String) (us : List Token) (z e : Token) : Prop :=
  (∃ a, p.run (some file) (us ++ [z, e]) = .ok a) ∨
    ∃ r, p.run (some file) (us ++ [z, e]) = .error (.rejected r) ∧ r.At (us ++ [z, e]) (us.length + 1)

theorem run_cases (I : Insertion) {depth : Nat} {form : Form} {r : Rejection}
    (h : (tree depth form).run (some file) (I.front ++ [I.stop]) = .error (.rejected r)) :
    (∃ t ∈ I.front, r.span = t.span ∧ r.cause.closer? = none) ∨
      r.span = I.stop.span ∧ (∀ k, r.cause.closer? = some k → k.Closes) ∧
        (r.cause.closer? = some I.closer.kind → (tree depth form).Passes file I.front I.closer I.last) ∧
        (r.cause.closer? ≠ some I.closer.kind → ∃ r', r'.span = I.closer.span ∧
          (tree depth form).run (some file) (I.front ++ [I.closer, I.last]) = .error (.rejected r')) := by
  obtain ⟨file', c, hfile, hc, hend, heq⟩ := run_eq (tree depth form) (some file)
    (show I.front ++ [I.stop] ≠ [] by simp)
  obtain rfl := hfile file rfl
  obtain ⟨file', d, hfile, hd, hend', heq'⟩ := run_eq (tree depth form) (some file)
    (show I.front ++ [I.closer, I.last] ≠ [] by simp)
  obtain rfl := hfile file rfl
  have hmirrors : ∀ e s, tree depth form file c = .failed e s →
      (tree depth form file c).Mirrors I c.remaining.length (tree depth form file d) := by
    intro e s hrun
    rcases hfront : I.front with _ | ⟨t, ts⟩
    · exact tree_mirrors_behind depth form ⟨by rw [hc, hfront]; rfl, by rw [hd, hfront]; rfl⟩ hrun
    · have hcur : d.current = c.current := by
        rw [(Cursor.current_of_remaining (by rw [hd, hfront]; rfl)).1,
          (Cursor.current_of_remaining (by rw [hc, hfront]; rfl)).1]
      exact tree_tracks depth form I file c d e s
        ⟨⟨I.front, List.suffix_refl _, hc, hd⟩, by rw [hend, hend', hcur]⟩ hrun
  generalize tree depth form file c = x at heq hmirrors
  generalize tree depth form file d = y at heq' hmirrors
  cases x with
  | done a s => simp [heq] at h
  | failed f s =>
    obtain rfl : f = .rejected r := by simpa [heq] using h
    cases hmirrors _ _ rfl with
    | early he _ =>
      obtain ⟨t, ht, hr⟩ := he
      exact .inl ⟨t, ht, hr r rfl⟩
    | atEnd hr hcloses hdue hother =>
      refine .inr ⟨hr, hcloses, fun hk => ?_, fun hk => ?_⟩
      · obtain ⟨a, d', rfl, -⟩ | ⟨r', d', rfl, hr'⟩ := hdue hk
        · exact .inl ⟨a, heq'⟩
        · exact .inr ⟨r', heq', by simp [Rejection.At, hr']⟩
      · obtain ⟨r', d', rfl, hr'⟩ := hother hk
        exact ⟨r', hr', heq'⟩

end Parser

/-- A closing delimiter and an end marker that may stand behind some tokens: no two of all of them are in
the same place. -/
structure DelimiterBehind (us : List Token) (z e : Token) : Prop where
  closes : z.kind.Closes
  eof : e.kind = .eof
  apart : ((us ++ [z, e]).map (·.span)).Nodup

theorem Cause.code_eq_unclosed {cause : Cause} :
    cause.code = "E201" ↔ ∃ k, cause.closer? = some k := by
  cases cause <;> simp [code, closer?]

/-- What begins behind the front of a ruled list is in no place of it. -/
theorem Ruled.nodup_spans_append {file : String} {us vs : List Token} {e : Token}
    (h : Ruled file (us ++ [e])) (hvs : (vs.map (·.span)).Nodup)
    (hbehind : ∀ v ∈ vs, e.span.start ≤ v.span.start) : ((us ++ vs).map (·.span)).Nodup := by
  obtain ⟨us', e', hparted, -, hwidth⟩ := h.parted
  obtain ⟨rfl, -⟩ := List.append_inj' hparted rfl
  obtain ⟨hordered, -, hlast⟩ := List.pairwise_append.1 h.ordered
  have hne : ∀ t ∈ us, ∀ u : Token, t.span.stop ≤ u.span.start → t.span ≠ u.span := by
    intro t ht u hle heq
    have := hwidth t ht
    rw [heq] at this hle
    omega
  rw [List.map_append, List.nodup_append]
  refine ⟨List.pairwise_map.2 (hordered.imp_of_mem fun ht _ => hne _ ht _), hvs, ?_⟩
  rintro s hs s' hs'
  obtain ⟨t, ht, rfl⟩ := List.mem_map.1 hs
  obtain ⟨v, hv, rfl⟩ := List.mem_map.1 hs'
  have := hlast t ht e (by simp)
  have := hbehind v hv
  exact hne t ht v (by omega)

/-- Behind the tokens of a text there is room for either delimiter. -/
theorem Ruled.exists_delimiter {file : String} {us : List Token} {e : Token} (h : Ruled file (us ++ [e]))
    {k : TokenKind} (hk : k.Closes) : ∃ z e', DelimiterBehind us z e' ∧ z.kind = k := by
  refine ⟨⟨k, "", ⟨file, e.span.start, e.span.start + 1⟩⟩,
    ⟨.eof, "", ⟨file, e.span.start + 1, e.span.start + 1⟩⟩, ⟨hk, rfl, ?_⟩, rfl⟩
  have hroom : e.span.start < e.span.start + 1 := Int.lt_succ _
  exact h.nodup_spans_append (by simp [Int.ne_of_lt hroom]) (by simp [Int.le_of_lt hroom])

section

variable {depth : Nat} {form : Form} {file source : String} {r : Rejection} {us : List Token} {e : Token}

theorem Rejection.at_last_iff : r.At (us ++ [e]) us.length ↔ r.span = e.span := by
  simp [Rejection.At, eq_comm]

/-- What a refusal at the end marker says of a delimiter put in before it. -/
theorem passes_iff (hus : ∀ u ∈ us, u.kind ≠ .eof) (he : e.kind = .eof)
    (hnodup : ((us ++ [e]).map (·.span)).Nodup)
    (h : (Parser.tree depth form).run (some file) (us ++ [e]) = .error (.rejected r))
    (hr : r.span = e.span) {z e' : Token} (hz : DelimiterBehind us z e') :
    (Parser.tree depth form).Passes file us z e' ↔ r.cause.closer? = some z.kind := by
  obtain ⟨t, ht, hspan, -⟩ | ⟨-, -, hdue, hother⟩ :=
    Parser.run_cases ⟨us, e, z, e', hus, he, hz.closes, hz.eof⟩ h
  · rw [List.map_append, List.nodup_append] at hnodup
    exact absurd (hspan.symm.trans hr) (hnodup.2.2 _ (List.mem_map_of_mem ht) _ (by simp))
  · refine ⟨fun hpasses => ?_, hdue⟩
    by_contra hk
    obtain ⟨r', hr', hrun⟩ := hother hk
    have hne : z.span ≠ e'.span := by
      have hapart := hz.apart
      rw [List.map_append, List.nodup_append] at hapart
      simpa using hapart.2.1
    obtain ⟨a, ha⟩ | ⟨r'', hrun', hat⟩ := hpasses
    · rw [hrun] at ha
      cases ha
    · obtain rfl : r' = r'' := by simpa [hrun] using hrun'
      have hlast : e'.span = r'.span := by simpa [Rejection.At] using hat
      exact hne (hr'.symm.trans hlast.symm)

/-- An end of the input is refused as unclosed if and only if a closing delimiter put in before it is got
past. Of the two delimiters just the one does that which the message names. -/
theorem unclosed_iff_delimiter_due
    (h : (Parser.tree depth form).runSource file source = .error (.unreadable (.rejected r))) :
    ∃ us e, lex file source = .ok (us ++ [e]) ∧ e.kind = .eof ∧
      (r.cause.code = "E201" ↔ r.At (us ++ [e]) us.length ∧
        ∃ z e', DelimiterBehind us z e' ∧ (Parser.tree depth form).Passes file us z e') ∧
      ∀ opener k, r.cause = .unclosed opener k →
        r.cause.message = "unclosed " ++ opener.description ++ ": expected " ++ k.description ++
          " before end of input" ∧ k.Closes ∧
        (∀ j, j.Closes → ∃ z e', DelimiterBehind us z e' ∧ z.kind = j) ∧
        ∀ z e', DelimiterBehind us z e' → ((Parser.tree depth form).Passes file us z e' ↔ z.kind = k) := by
  cases hlex : lex file source with
  | error reports => simp [Parser.runSource, hlex] at h
  | ok ts =>
    obtain ⟨us, e, rfl, hlast, hus⟩ := (stream_of_lex hlex).exists_front
    have he : e.kind = .eof := congrArg Prod.fst hlast
    have hruled := ruled_of_lex hlex
    have hnodup : ((us ++ [e]).map (·.span)).Nodup := hruled.nodup_spans_append (by simp) (by simp)
    have hrun : (Parser.tree depth form).run (some file) (us ++ [e]) = .error (.rejected r) := by
      rw [runSource_of_lex _ hlex] at h
      cases hrun : (Parser.tree depth form).run (some file) (us ++ [e]) <;>
        simp [hrun, Except.mapError] at h
      rw [h]
    have hmissing : ∀ k, r.cause.closer? = some k → r.span = e.span ∧ k.Closes := by
      intro k hk
      obtain ⟨z, e', hz, -⟩ := hruled.exists_delimiter (.inl rfl)
      obtain ⟨-, -, -, hnone⟩ | ⟨hspan, hcloses, -⟩ :=
        Parser.run_cases ⟨us, e, z, e', hus, he, hz.closes, hz.eof⟩ hrun
      · rw [hk] at hnone
        cases hnone
      · exact ⟨hspan, hcloses k hk⟩
    refine ⟨us, e, rfl, he, ?_, fun opener k hcause => ?_⟩
    · rw [Cause.code_eq_unclosed, Rejection.at_last_iff]
      constructor
      · rintro ⟨k, hk⟩
        obtain ⟨hspan, hcloses⟩ := hmissing k hk
        obtain ⟨z, e', hz, rfl⟩ := hruled.exists_delimiter hcloses
        exact ⟨hspan, z, e', hz, (passes_iff hus he hnodup hrun hspan hz).2 hk⟩
      · rintro ⟨hspan, z, e', hz, hpasses⟩
        exact ⟨_, (passes_iff hus he hnodup hrun hspan hz).1 hpasses⟩
    · have hk : r.cause.closer? = some k := by rw [hcause]; rfl
      obtain ⟨hspan, hcloses⟩ := hmissing k hk
      refine ⟨by rw [hcause]; rfl, hcloses, fun j hj => hruled.exists_delimiter hj, fun z e' hz => ?_⟩
      rw [passes_iff hus he hnodup hrun hspan hz, hk, Option.some_inj, eq_comm]

end

def rejection? {α : Type} : Except SourceFailure α → Option Rejection
  | .error (.unreadable (.rejected r)) => some r
  | _ => none

theorem eq_of_rejection? {α : Type} {result : Except SourceFailure α} {r : Rejection}
    (h : rejection? result = some r) : result = .error (.unreadable (.rejected r)) := by
  unfold rejection? at h
  split at h
  · rw [Option.some.inj h]
  · cases h

/-- A tuple without its closing parenthesis. -/
theorem unclosed_iff_of_tuple :
    let r : Rejection := ⟨.unclosed .lparen .rparen, .expression, ⟨"a", 7, 7⟩⟩
    (Parser.tree 3 .expression).runSource "a" "f (x, y" = .error (.unreadable (.rejected r)) ∧
      ∃ us e, lex "a" "f (x, y" = .ok (us ++ [e]) ∧ e.kind = .eof ∧
        (r.cause.code = "E201" ↔ r.At (us ++ [e]) us.length ∧
          ∃ z e', DelimiterBehind us z e' ∧ (Parser.tree 3 .expression).Passes "a" us z e') ∧
        ∀ opener k, r.cause = .unclosed opener k →
          r.cause.message = "unclosed " ++ opener.description ++ ": expected " ++ k.description ++
            " before end of input" ∧ k.Closes ∧
          (∀ j, j.Closes → ∃ z e', DelimiterBehind us z e' ∧ z.kind = j) ∧
          ∀ z e', DelimiterBehind us z e' →
            ((Parser.tree 3 .expression).Passes "a" us z e' ↔ z.kind = k) := by
  have h := eq_of_rejection? (show rejection? ((Parser.tree 3 .expression).runSource "a" "f (x, y") =
    some ⟨.unclosed .lparen .rparen, .expression, ⟨"a", 7, 7⟩⟩ by decide +kernel)
  exact ⟨h, unclosed_iff_delimiter_due h⟩

end TinyFront
