import TinyFront.Proofs.MendsLoops

/-!
Atoms, patterns and types in the logic of refusals. Each of their parsers mends wherever it is run,
and can be filled in with a wildcard. The depths follow one from the other, since a parser with no
room is refused for no other reason.
-/
namespace TinyFront

open Grammar

namespace Parser

variable {ε ι α β : Type} {n : Nat} {s s₁ : Sym} {w : List TokenKind} {file : String} {c : Cursor}

/-- The parsers mend wherever they are run, and never stop where they began. -/
structure Mended (n : Nat) (s : Sym) (w : List TokenKind) (P : Nat → Parser α) : Prop where
  run : ∀ file c, TokenStream c.remaining → Mends n 1 s w (P n) (fun m (_ : Unit) => P m) file c
  shortens : ∀ m file c, c.Ended → (P m).Shortens file c

namespace Mended

variable {P : Nat → Parser α}

theorem mends (h : Mended n s w P) (hc : TokenStream c.remaining) :
    Mends n 1 s w (P n) (fun m (_ : ι) => P m) file c := (h.run file c hc).reindex fun _ => ()

/-- Parsers without room stop for that reason, and the others mend over those with less room. -/
theorem of_depth {cat : Category} (hzero : P 0 = tooDeep cat)
    (hfill : ∀ n, Fills n s w fun m (_ : Unit) => P m) (hshort : ∀ m file c, c.Ended → (P m).Shortens file c)
    (hstep : ∀ n, Mended n s w P → ∀ file c, TokenStream c.remaining →
      Viable n 1 s (P (n + 1)) (fun m (_ : Unit) => P (m + 1)) file c) (n : Nat) : Mended n s w P := by
  induction n with
  | zero =>
    refine ⟨fun file c _ => ⟨hfill 0, ?_⟩, hshort⟩
    refine .excuse (e := .rejected ⟨.nestingTooDeep, cat, c.current.span⟩) (b := c) ?_ rfl
    rw [hzero]
    rfl
  | succ n ih => exact ⟨fun file c hc => ⟨hfill _, (hstep n ih file c hc).succ⟩, hshort⟩

theorem pred (h : Mended (n + 1) s w P) : Mended n s w fun m => P (m + 1) where
  run file c hc := ⟨⟨(h.run file c hc).fills.fair, fun m hm =>
    (h.run file c hc).fills.takes (m + 1) (Nat.succ_lt_succ hm)⟩, (h.run file c hc).viable.pred⟩
  shortens m := h.shortens (m + 1)

end Mended

/-! Each parser of a tree consumes what it repeats. -/

theorem pattern_self (m : Nat) :
    Follows (.shift 0) False (pattern m) (pattern m) (Pattern.map (Placing.shift 0).span) :=
  pattern_follows m m (Nat.lt_irrefl m)

theorem type_self (m : Nat) :
    Follows (.shift 0) False (type m) (type m) (Ty.map (Placing.shift 0).span) :=
  type_follows m m (Nat.lt_irrefl m)

theorem expression_self (m : Nat) :
    Follows (.shift 0) False (expression m) (expression m) (Expr.map (Placing.shift 0).span) :=
  expression_follows m m (Nat.lt_irrefl m)

/-! Atoms. -/

/-- What a text denotes as a number hangs on the text alone. -/
theorem number_cases (t : Token) :
    (∃ v, ∀ cat u file c, u.text = t.text → number cat u file c = .done v c) ∨
    (digitLimit < t.text.toList.length ∧
      ∀ cat file c, number cat t file c = .failed (.literalTooLong t.text.toList.length) c) ∨
    ∀ cat (u : Token) file c, u.text = t.text →
      number cat u file c = .failed (.rejected ⟨.malformedLiteral t.text, cat, u.span⟩) c := by
  by_cases hd : isDecimal t.text.toList = true
  · by_cases hl : digitLimit < t.text.toList.length
    · exact .inr (.inl ⟨hl, fun cat file c => by simp [number, hd, hl, fail]⟩)
    · by_cases hv : decimalValue t.text.toList ≤ maxNumber
      · exact .inl ⟨decimalValue t.text.toList, fun cat u file c hu => by
          simp [number, hu, hd, hl, hv]⟩
      · exact .inr (.inr fun cat u file c hu => by simp [number, hu, hd, hl, hv, fail])
  · exact .inr (.inr fun cat u file c hu => by simp [number, hu, hd, fail])

section

variable {f : Family ε}

theorem leaf_of_integer {d : Cursor} (hk : d.current.kind = .integer) :
    leaf f file d = (number f.category d.current >>= fun v => pure (.number v)) file d.advance := by
  rw [leaf, current_bind]
  simp only [hk]
  rfl

theorem leaf_viable_of_integer (hc : TokenStream c.remaining) (hk : c.current.kind = .integer) :
    Viable n 1 s (leaf f) (fun _ (_ : ι) => leaf f) file c := by
  have htext : ∀ {d : Cursor}, d.current.lexeme = c.current.lexeme →
      d.current.kind = .integer ∧ d.current.text = c.current.text := fun h =>
    ⟨(congrArg Prod.fst h).trans hk, congrArg Prod.snd h⟩
  obtain ⟨v, hv⟩ | ⟨hlong, hrun⟩ | hbad := number_cases c.current
  · refine .token (a := .number v) hc (by simp [hk]) ?_ fun m _ _ file d hd => ⟨.number v, ?_⟩
    · rw [leaf_of_integer hk, bind_done (hv _ _ _ _ rfl), pure_apply]
    · rw [leaf_of_integer (htext hd).1, bind_done (hv _ _ _ _ (htext hd).2), pure_apply]
  · refine .excuse (b := c.advance) (e := .literalTooLong c.current.text.toList.length) ?_
      ⟨hlong, c.current, by simp [Cursor.remaining], hk, rfl⟩
    rw [leaf_of_integer hk, bind_failed (hrun _ _ _)]
  · refine .refuse (r := ⟨.malformedLiteral c.current.text, f.category, c.current.span⟩) (b := c.advance)
      ?_ rfl fun m _ _ file d _ ha =>
        ⟨⟨.malformedLiteral c.current.text, f.category, d.current.span⟩, d.advance, ?_, rfl, rfl⟩
    · rw [leaf_of_integer hk, bind_failed (hbad _ _ _ _ rfl)]
    · have hd := htext (lexeme_of_agree ha (by decide) (by simp [hk]))
      rw [leaf_of_integer hd.1, bind_failed (hbad _ _ _ _ hd.2)]

theorem leaf_viable (hc : TokenStream c.remaining) :
    Viable n 1 s (leaf f) (fun _ (_ : ι) => leaf f) file c := by
  have hword : ∀ l : String → Leaf, c.current.kind ≠ .eof →
      (∀ file d, d.current.kind = c.current.kind → leaf f file d = .done (l d.current.text) d.advance) →
      Viable n 1 s (leaf f) (fun _ (_ : ι) => leaf f) file c := fun l hk h =>
    .token hc hk (h file c rfl) fun m _ _ file d hd => ⟨_, h file d (congrArg Prod.fst hd)⟩
  have hnone : (∀ file d, d.current.kind = c.current.kind →
      leaf f file d = unexpected f.category (.category f.category) file d) →
      Viable n 1 s (leaf f) (fun _ (_ : ι) => leaf f) file c := fun h =>
    .unexpected (h file c rfl) fun m _ _ file d _ hd _ => h file d hd
  cases hk : c.current.kind with
  | integer => exact leaf_viable_of_integer hc hk
  | underscore =>
    refine hword (fun _ => .wildcard) (by simp [hk]) fun file d hd => ?_
    rw [leaf, current_bind, hd, hk]
    rfl
  | identifier =>
    refine hword .name (by simp [hk]) fun file d hd => ?_
    rw [leaf, current_bind, hd, hk]
    rfl
  | typeIdentifier =>
    refine hword .name (by simp [hk]) fun file d hd => ?_
    rw [leaf, current_bind, hd, hk]
    rfl
  | boolean =>
    cases hb : f.booleans with
    | true =>
      refine hword (fun t => .boolean (t == "true")) (by simp [hk]) fun file d hd => ?_
      rw [leaf, current_bind, hd, hk]
      simp only [hb]
      rfl
    | false =>
      refine hnone fun file d hd => ?_
      rw [leaf, current_bind, hd, hk]
      simp only [hb]
      rfl
  | _ =>
    refine hnone fun file d hd => ?_
    rw [leaf, current_bind, hd, hk]

variable {inner : Nat → Parser ε}

theorem atom_of_lparen {p : Parser ε} {d : Cursor} (hk : d.current.kind = .lparen) :
    atom f p file d = located (advance >>= fun _ => closedList f.category .lparen .rparen p
      fun x _ => pure (collapse f x.1 x.2)) file d := by
  rw [atom, current_bind, if_pos hk]
  rfl

theorem atom_of_ne_lparen {p : Parser ε} {d : Cursor} (hk : d.current.kind ≠ .lparen) :
    atom f p file d = (leaf f >>= fun l => pure (f.ofLeaf l d.current.span)) file d := by
  rw [atom, current_bind, if_neg hk]

theorem atom_of_underscore {p : Parser ε} {d : Cursor} (hk : d.current.kind = .underscore) :
    atom f p file d = .done (f.ofLeaf .wildcard d.current.span) d.advance := by
  have hleaf : leaf f file d = .done .wildcard d.advance := by
    rw [leaf, current_bind]
    simp only [hk]
    rfl
  rw [atom_of_ne_lparen (by simp [hk]), bind_done hleaf, pure_apply]

/-- Parsers that read a wildcard as an atom can be filled in with one. -/
theorem fills_of_atom {P : Nat → ι → Parser ε} (h : ∀ m, n < m → ∀ x file (d : Cursor),
    d.current.kind = .underscore → ∃ p, P m x file d = atom f p file d) :
    Fills n s [.underscore] P := by
  have hnone : Fills n s [] fun _ (t : Token) => (pure (f.ofLeaf .wildcard t.span) : Parser ε) :=
    .quiet fun _ _ => .pure _
  refine hnone.step (by decide) fun m hm x file d _ hd => ⟨d.current, ?_⟩
  have hk : d.current.kind = .underscore := congrArg Prod.fst hd
  obtain ⟨p, hp⟩ := h m hm x file d hk
  rw [hp, atom_of_underscore hk, pure_apply]

theorem atom_mends (hcl : Closes s₁ .rparen) (h : Mended n s₁ w inner) (hc : TokenStream c.remaining) :
    Mends n 1 s [.underscore] (atom f (inner n)) (fun m (_ : ι) => atom f (inner m)) file c := by
  refine ⟨fills_of_atom fun m _ _ file d _ => ⟨_, rfl⟩, ?_⟩
  by_cases hk : c.current.kind = .lparen
  · have hlist : Mends n 1 s [.lparen, .rparen]
        (located (advance >>= fun _ => closedList f.category .lparen .rparen (inner n)
          fun x _ => pure (collapse f x.1 x.2)))
        (fun m (_ : ι) => located (advance >>= fun _ => closedList f.category .lparen .rparen (inner m)
          fun x _ => pure (collapse f x.1 x.2))) file c :=
      .located (.advance hc (by decide) hk fun _ _ c' hc' => closedList_mends hcl
        (fun file c hc => (h.run file c hc).viable) h.shortens (fun _ _ => .pure _)
        (fun _ _ _ => .pure _) hc')
    exact hlist.viable.at_kind (atom_of_lparen hk) fun m x _ _ hd => ⟨x, atom_of_lparen (hd.trans hk)⟩
  · have hleaf : Viable n 1 s (leaf f >>= fun l => pure (f.ofLeaf l c.current.span))
        (fun _ (t : Token) => leaf f >>= fun l => pure (f.ofLeaf l t.span)) file c :=
      (leaf_viable hc).last (fun _ => .pure _) fun _ _ _ => .pure _
    exact hleaf.at_kind (atom_of_ne_lparen hk) fun m _ _ d hd =>
      ⟨d.current, atom_of_ne_lparen (by rwa [hd])⟩

theorem atom_items (hcl : Closes s₁ .rparen) (h : Mended n s₁ w inner)
    (hshort : ∀ m file c, c.Ended → (atom f (inner m)).Shortens file c) :
    Items n s f.startsAtom fun m => atom f (inner m) :=
  items_of_kind (f := f.startsWith) (fun _ => rfl)
    (fun _ _ hc _ => (atom_mends hcl h hc).viable) fun m file c hc _ => hshort m file c hc

theorem startsAtom_scouts (hs : ∀ k, f.startsWith k = true → s.goesOn k = true) :
    Scouts s f.startsAtom := scouts_of_kind (f := f.startsWith) (fun _ => rfl) hs

theorem ne_lbrace_of_startsAtom {d : Cursor} (h : f.startsAtom d = true) : d.current.kind ≠ .lbrace := by
  intro hk
  simp [Family.startsAtom, hk] at h

theorem atoms_mends (hcl : Closes s₁ .rparen) (h : Mended n s₁ w inner)
    (hshort : ∀ m file c, c.Ended → (atom f (inner m)).Shortens file c)
    (hs : ∀ k, f.startsWith k = true → s.goesOn k = true) (hc : TokenStream c.remaining) :
    Mends n 0 s [] (many f.startsAtom (atom f (inner n)))
      (fun m (_ : ι) => many f.startsAtom (atom f (inner m))) file c :=
  many_mends (startsAtom_scouts hs) (atom_items hcl h hshort) (fun _ hk => hk)
    (fun _ _ h hk => absurd hk (ne_lbrace_of_startsAtom h)) hc

end

/-! Patterns. -/

/-- Whatever has room takes a wildcard. -/
theorem element_fills (k : Kin) (n : Nat) :
    Fills n (.element k) [.underscore] fun m (_ : Unit) => k.element m := by
  have hw : ∃ t, Derives .none (.element k) [TokenKind.underscore.lexeme] t := by
    cases k with
    | pattern => exact ⟨_, .atomicPattern (.wildcard .pattern)⟩
    | type => exact ⟨_, .plainType (.atomicType (.wildcard .type))⟩
    | expression =>
      have hatom : Derives .none (.atom .expression) [TokenKind.underscore.lexeme] (Kin.expression.ofLeaf .wildcard) :=
        .wildcard .expression
      have happ := Derives.application [] (.operand [] (.atomPrimary hatom) (by simp)) (by simp)
      exact ⟨_, .plain (.additive [] (.multiplicative [] happ (by simp) (by simp)) (by simp) (by simp))⟩
  have hmoves : ∀ m file c a c', c.Ended → k.element m file c = .done a c' → ∃ ts, c.Consumes ts c' := by
    intro m file c a c' hc hrun
    cases k with
    | pattern => exact ((pattern_self m file c hc).consumes hrun).imp fun _ h => h.2
    | type => exact ((type_self m file c hc).consumes hrun).imp fun _ h => h.2
    | expression =>
      exact ((expression_self m file c hc).consumes hrun).imp fun _ h => h.2
  obtain ⟨t, ht⟩ := hw
  refine ⟨by simp, fun m hm _ R hR => .of_accepts (Q := fun a => k.bare a = t) ?_ (hmoves m)⟩
  exact (complete_of_derives (by decide) ht m R hR).mono fun h => by
    rw [List.length_singleton] at h
    omega

/-! No closing delimiter goes on with what stands inside. -/

theorem closes_rparen : (k : Kin) → Closes (.element k) .rparen
  | .expression | .pattern | .type => ⟨by decide, by decide, by decide, rfl, rfl⟩

theorem closes_rbrace : (k : Kin) → Closes (.element k) .rbrace
  | .expression | .pattern | .type => ⟨by decide, by decide, by decide, rfl, rfl⟩

theorem pattern_shortens (m : Nat) (hc : c.Ended) : (pattern m).Shortens file c :=
  (pattern_self m).shortens hc

theorem patternAtom_shortens (m : Nat) (hc : c.Ended) : (atom .pattern (pattern m)).Shortens file c :=
  (atom_follows (Family.pattern_natural _) (pattern_self m)).shortens hc

def constructed (inner : Parser (Pattern Span)) (t : Token) : Parser (Pattern Span) := do
  let _ ← advance
  let args ← many Family.pattern.startsAtom (atom .pattern inner)
  return .constructor t.text args (← spanFrom t.span.start)

theorem patternWithin_viable (h : Mended n (.element .pattern) [.underscore] pattern)
    (hc : TokenStream c.remaining) :
    Viable n 1 (.element .pattern) (patternWithin (pattern n))
      (fun m (_ : Unit) => patternWithin (pattern m)) file c := by
  have hcl := closes_rparen .pattern
  have heq : ∀ {p : Parser (Pattern Span)} {file : String} {d : Cursor},
      d.current.kind = .typeIdentifier → patternWithin p file d = constructed p d.current file d := by
    intro p file d hd
    rw [patternWithin, current_bind, if_pos hd, constructed]
  have hne : ∀ {p : Parser (Pattern Span)} {file : String} {d : Cursor},
      d.current.kind ≠ .typeIdentifier → patternWithin p file d = atom .pattern p file d := by
    intro p file d hd
    rw [patternWithin, current_bind, if_neg hd]
  by_cases hk : c.current.kind = .typeIdentifier
  · have hargs : Mends n 1 (.element .pattern) [.typeIdentifier] (constructed (pattern n) c.current)
        (fun m (t : Token) => constructed (pattern m) t) file c := by
      refine .advance (l := 0) hc (by decide) hk fun _ _ c' hc' => ?_
      refine (atoms_mends hcl h (fun m _ _ => patternAtom_shortens m) ?_ hc').last
        (fun _ => .bind (.spanFrom _) fun _ => .pure _) fun _ _ _ => .bind (.spanFrom _) fun _ => .pure _
      intro k hk
      cases k <;> first | rfl | cases hk
    exact hargs.viable.at_kind (heq hk) fun m _ _ d hd => ⟨d.current, heq (hd.trans hk)⟩
  · exact (atom_mends hcl h hc).viable.at_kind (hne hk) fun m x _ _ hd => ⟨x, hne (by rwa [hd])⟩

theorem pattern_mended : ∀ n, Mended n (.element .pattern) [.underscore] pattern :=
  .of_depth rfl (element_fills .pattern) (fun m _ _ => pattern_shortens m)
    fun _ h _ _ hc => patternWithin_viable h hc

/-! Types. -/

theorem type_shortens (m : Nat) (hc : c.Ended) : (type m).Shortens file c :=
  (type_self m).shortens hc

theorem typeAtom_shortens (m : Nat) (hc : c.Ended) : (atom .type (type m)).Shortens file c :=
  (atom_follows (Family.type_natural _) (type_self m)).shortens hc

def applied (inner : Parser (Ty Span)) (t : Token) : Parser (Ty Span) := do
  let _ ← advance
  let args ← many Family.type.startsAtom (atom .type inner)
  if args.isEmpty then return .var t.text t.span
  else return .app t.text args (← spanFrom t.span.start)

theorem applied_quiet (t : Token) (args : List (Ty Span)) : Quiet (do
    if args.isEmpty then return .var t.text t.span
    else return .app t.text args (← spanFrom t.span.start) : Parser (Ty Span)) := by
  split
  · exact .pure _
  · exact .bind (.spanFrom _) fun _ => .pure _

theorem typeAtoms_mends (h : Mended n (.element .type) [.underscore] type)
    (hs : ∀ k, Kin.type.startsAtom k = true → s.goesOn k = true) (hc : TokenStream c.remaining) :
    Mends n 0 s [] (many Family.type.startsAtom (atom .type (type n)))
      (fun m (_ : ι) => many Family.type.startsAtom (atom .type (type m))) file c := by
  refine atoms_mends (closes_rparen .type) h (fun m _ _ => typeAtom_shortens m) (fun k hk => hs k ?_) hc
  cases k <;> first | rfl | cases hk

theorem typeApplication_mends (h : Mended n (.element .type) [.underscore] type)
    (hc : TokenStream c.remaining) :
    Mends n 1 .typeApplication [.underscore] (typeApplication (type n))
      (fun m (_ : ι) => typeApplication (type m)) file c := by
  have heq : ∀ {p : Parser (Ty Span)} {file : String} {d : Cursor},
      d.current.kind = .typeIdentifier → typeApplication p file d = applied p d.current file d := by
    intro p file d hd
    rw [typeApplication, current_bind, if_pos hd, applied]
  have hne : ∀ {p : Parser (Ty Span)} {file : String} {d : Cursor},
      d.current.kind ≠ .typeIdentifier → typeApplication p file d = atom .type p file d := by
    intro p file d hd
    rw [typeApplication, current_bind, if_neg hd]
  refine ⟨fills_of_atom (f := .type) fun m _ _ file d hd => ⟨_, hne (by simp [hd])⟩, ?_⟩
  by_cases hk : c.current.kind = .typeIdentifier
  · have hargs : Mends n 1 .typeApplication [.typeIdentifier] (applied (type n) c.current)
        (fun m (t : Token) => applied (type m) t) file c :=
      .advance (l := 0) hc (by decide) hk fun _ _ c' hc' =>
        (typeAtoms_mends (s := .typeApplication) h (fun _ hk => hk) hc').last (applied_quiet _)
          fun _ _ => applied_quiet _
    exact hargs.viable.at_kind (heq hk) fun m _ _ d hd => ⟨d.current, heq (hd.trans hk)⟩
  · exact (atom_mends (closes_rparen .type) h hc).viable.at_kind (hne hk) fun m x _ _ hd =>
      ⟨x, hne (by rwa [hd])⟩

theorem names_mends (hc : TokenStream c.remaining) :
    Mends n 0 .typeApplication [] (many (·.isAt .identifier) advance)
      (fun _ (_ : ι) => many (·.isAt .identifier) advance) file c := by
  have hne : ∀ c : Cursor, c.isAt .identifier = true → c.current.kind ≠ .eof := fun c h => by
    simp [Cursor.kind_of_isAt h]
  have hitems : Items n (.atom .type) (·.isAt .identifier) fun _ => advance := by
    refine items_of_kind (f := (· == .identifier)) (fun _ => rfl) (fun file c hc hs => ?_)
      fun _ file c hc hs t c' hrun => ?_
    · exact .token hc (hne c hs) rfl fun _ _ _ _ d _ => ⟨d.current, rfl⟩
    · obtain ⟨-, rfl⟩ := advance_eq_done.1 hrun
      exact hc.advance_of_isAt hs (by decide)
  have hscouts : Scouts .typeApplication (·.isAt .identifier) := by
    refine scouts_of_kind (f := (· == .identifier)) (fun _ => rfl) fun k hk => ?_
    cases k <;> first | rfl | cases hk
  exact many_mends hscouts hitems (fun _ hk => nomatch hk) (fun hk => nomatch hk) hc

theorem quantified_mends (h : Mended n (.element .type) [.underscore] type)
    (hc : TokenStream c.remaining) (hk : c.current.kind = .kwForall) :
    Mends n 1 (.element .type) [.kwForall, .dot, .underscore] (quantified (type n))
      (fun m (_ : ι) => quantified (type m)) file c := by
  refine .located (.advance (l := 0) hc (by decide) hk fun _ _ c' hc' => ?_)
  refine .bind (v := []) (t := .typeApplication) (i := 1) hc' ?_ (fun _ c' hc' => ?_) (.inl (Nat.le_refl 1))
    (fun R _ => .cons rfl (by decide)) fun hk => nomatch hk
  · exact names_mends hc'
  · exact .expect hc' (by decide) fun _ _ _ hc' =>
      (h.mends hc').last (fun _ => .pure _) fun _ _ _ => .pure _

/-- What may stand behind the first part of a type: an arrow and another type. -/
def codomain (inner : Parser (Ty Span)) (start : Int) (t : Ty Span) : Parser (Ty Span) := do
  if ← test (·.isAt .arrow) then
    let _ ← advance
    let rest ← typeWithin inner
    return .arrow t rest (← spanFrom start)
  else return t

theorem typeWithin_of_forall {d : Nat} (hc : c.Ended) (hk : c.current.kind = .kwForall) :
    typeWithin (type d) file c = quantified (type d) file c := by
  rw [typeWithin_eq (fun _ hc => typeApplication_shortens d hc) hc, test_bind,
    if_pos (Cursor.isAt_iff.2 hk)]

theorem typeWithin_of_ne_forall {d : Nat} (hc : c.Ended) (hk : c.current.kind ≠ .kwForall) :
    typeWithin (type d) file c =
      (typeApplication (type d) >>= codomain (type d) c.current.span.start) file c := by
  rw [typeWithin_eq (fun _ hc => typeApplication_shortens d hc) hc, test_bind,
    if_neg (by simpa [Cursor.isAt] using hk)]
  rfl

theorem typeWithin_viable (h : Mended n (.element .type) [.underscore] type)
    (hc : TokenStream c.remaining) :
    Viable n 1 (.element .type) (typeWithin (type n)) (fun m (_ : Unit) => typeWithin (type m)) file c := by
  induction hlen : c.remaining.length using Nat.strongRecOn generalizing c with
  | ind len ih =>
    by_cases hk : c.current.kind = .kwForall
    · exact (quantified_mends h hc hk).viable.branch (by decide) (by decide) (typeWithin_of_forall hc.ended' hk)
        fun m _ x file d hd ha => ⟨x, typeWithin_of_forall hd ((kind_of_agree ha (by decide)).trans hk)⟩
    · have hfill : ∀ κ : Type, Fills n (.element .type) [.underscore] fun m (_ : κ) => typeWithin (type m) :=
        fun κ => ⟨by simp, fun m hm _ => (element_fills .type n).takes (m + 1) (Nat.lt_succ_of_lt hm) ()⟩
      have hrest : ∀ t c', typeApplication (type n) file c = .done t c' → TokenStream c'.remaining →
          Mends n 0 (.element .type) [] (codomain (type n) c.current.span.start t)
            (fun m (x : Int × Ty Span) => codomain (type m) x.1 x.2) file c' := by
        intro t c' hrun hc'
        have hlt := (typeApplication_shortens n hc.ended' t c' hrun).2
        refine .perhaps (w := [.underscore]) (l := 1) hc' (by decide) rfl (fun c'' hc'' hlt' => ?_)
          ⟨by simp, fun m hm x R hR => .bind_quiet ((hfill (Int × Ty Span)).takes m hm x R hR) fun _ => ?_⟩
        · exact Mends.last ⟨hfill _, (ih _ (by omega) hc'' rfl).reindex fun _ => ()⟩
            (fun _ => .bind (.spanFrom _) fun _ => .pure _) fun _ _ _ => .bind (.spanFrom _) fun _ => .pure _
        · exact .bind (.spanFrom _) fun _ => .pure _
      have hnone : Fills n (.element .type) [] fun m (x : Int × Ty Span) => codomain (type m) x.1 x.2 :=
        .perhaps rfl
      have hgoes : ∀ j, Sym.typeApplication.goesOn j = true → (Sym.element .type).goesOn j = true :=
        fun j hj => Bool.or_eq_true_iff.2 (.inr hj)
      have hmore : Viable n 1 (.element .type)
          (typeApplication (type n) >>= codomain (type n) c.current.span.start)
          (fun m (x : Int) => typeApplication (type m) >>= codomain (type m) x) file c :=
        (typeApplication_mends h hc).viable.bind hc hnone (fun t c' hrun hc' => (hrest t c' hrun hc').viable)
          (.inr hgoes) (fun R hR => hR.mono hgoes) fun hk => nomatch hk
      exact hmore.branch (by decide) (by decide) (typeWithin_of_ne_forall hc.ended' hk)
        fun m _ _ file d hd ha => ⟨d.current.span.start,
          typeWithin_of_ne_forall hd (by rwa [kind_of_agree ha (by decide)])⟩

theorem type_mended : ∀ n, Mended n (.element .type) [.underscore] type :=
  .of_depth rfl (element_fills .type) (fun m _ _ => type_shortens m)
    fun _ h _ _ hc => typeWithin_viable h hc

end Parser
end TinyFront
