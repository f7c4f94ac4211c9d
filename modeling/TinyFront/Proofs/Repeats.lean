import TinyFront.Proofs.Steady

/-!
Steadiness of the parsers. What a parser of patterns, types, expressions or declarations has read, it
reads again where the same tokens stand at other places before a token that continues nothing; a
parser with less room for nesting does so too, unless it stops for that reason.
-/
namespace TinyFront

/-- A family builds its nodes in the same way at every place. -/
structure Family.Natural {ε : Type} (f : Family ε) (ρ : Placing) (place : ε → ε) : Prop where
  ofLeaf : ∀ l s, f.ofLeaf l (ρ.span s) = place (f.ofLeaf l s)
  ofTuple : ∀ es s, f.ofTuple (es.map place) (ρ.span s) = place (f.ofTuple es s)

namespace Family

def startsWith {ε : Type} (f : Family ε) : TokenKind → Bool
  | .underscore | .integer | .identifier | .typeIdentifier | .lparen => true
  | .boolean => f.booleans
  | _ => false

theorem expression_natural (ρ : Placing) : expression.Natural ρ (Expr.map ρ.span) where
  ofLeaf _ _ := rfl
  ofTuple es s := by
    show Expr.tuple _ _ = Expr.map ρ.span (Expr.tuple es s)
    rw [Expr.map, Expr.mapAll_eq_map]

theorem pattern_natural (ρ : Placing) : pattern.Natural ρ (Pattern.map ρ.span) where
  ofLeaf l s := by
    cases l with
    | name n =>
      simp only [pattern, patternOfLeaf]
      split <;> rfl
    | _ => rfl
  ofTuple ps s := by
    show Pattern.tuple _ _ = Pattern.map ρ.span (Pattern.tuple ps s)
    rw [Pattern.map, Pattern.mapAll_eq_map]

theorem type_natural (ρ : Placing) : type.Natural ρ (Ty.map ρ.span) where
  ofLeaf l s := by cases l <;> rfl
  ofTuple ts s := by
    show Ty.tuple _ _ = Ty.map ρ.span (Ty.tuple ts s)
    rw [Ty.map, Ty.mapAll_eq_map]

end Family

namespace Parser

/-- Each run of the first parser consumes something and is repeated by the second one, which answers
with the tree at its new place. -/
def Follows {α : Type} (ρ : Placing) (deep : Prop) (p q : Parser α) (place : α → α) : Prop :=
  ∀ file c, c.Ended → Steady ρ deep 1 p q (fun a b => b = place a) file c

variable {ε : Type} {ρ : Placing} {deep : Prop} {file : String} {c : Cursor}

theorem Follows.shortens {α : Type} {p q : Parser α} {place : α → α} (h : Follows ρ deep p q place)
    (hc : c.Ended) : p.Shortens file c := SteadyUpTo.shortens hc (h file c hc)

theorem number_steady (cat : Category) (t : Token) :
    Steady ρ deep 0 (number cat t) (number cat (ρ.token t)) Eq file c := by
  intro n c' hrun
  obtain ⟨ht, rfl, rfl⟩ := number_eq_done.1 hrun
  exact ⟨⟨_, rfl⟩, [], Nat.zero_le _, .refl _, fun _ _ _ _ d _ _ =>
    .inl ⟨_, d, number_eq_done.2 ⟨ht, rfl, rfl⟩, .refl _, rfl⟩⟩

theorem leaf_steady (f : Family ε) (hc : c.Ended) :
    Steady ρ deep 1 (leaf f) (leaf f) Eq file c := by
  unfold leaf
  refine .current (Nat.le_refl 1) ?_
  simp only [Placing.token_kind, Placing.token_text]
  split
  · rename_i hk
    exact .bind hc (.advance hc (by simp [hk])) fun _ _ _ _ _ _ => .pure fun _ => rfl
  · rename_i hk
    refine .bind hc (.advance hc (by simp [hk])) fun _ _ d _ hd _ => ?_
    exact .bind hd (number_steady f.category c.current) fun m n _ _ _ hmn => .pure fun _ => by rw [hmn]
  · rename_i hk
    exact .bind hc (.advance hc (by simp [hk])) fun _ _ _ _ _ _ => .pure fun _ => rfl
  · rename_i hk
    exact .bind hc (.advance hc (by simp [hk])) fun _ _ _ _ _ _ => .pure fun _ => rfl
  · rename_i hk
    split
    · exact .bind hc (.advance hc (by simp [hk])) fun _ _ _ _ _ _ => .pure fun _ => rfl
    · exact .unexpected
  · exact .unexpected

theorem collapse_natural {f : Family ε} {place : ε → ε} (hf : f.Natural ρ place) (es : List ε)
    (trailing : Bool) (s : Span) :
    collapse f (es.map place) trailing (ρ.span s) = place (collapse f es trailing s) := by
  rcases es with _ | ⟨e, _ | ⟨e', es⟩⟩
  · exact hf.ofLeaf _ _
  · cases trailing with
    | false => rfl
    | true => exact hf.ofTuple [e] s
  · exact hf.ofTuple (e :: e' :: es) s

theorem parenthesised_steady {f : Family ε} {place : ε → ε} (hf : f.Natural ρ place)
    {p q : Parser ε} (hp : Follows ρ deep p q place) (hc : c.Ended)
    (hk : c.current.kind ≠ .eof) :
    Steady ρ deep 1 (parenthesised f p) (parenthesised f q) (fun a b => b = place a) file c := by
  unfold parenthesised
  refine .located (Nat.le_refl 1) (.bind hc (.advance hc hk) fun _ _ d _ hd _ => ?_)
  refine (SteadyUpTo.commas_bind (fun c hc _ => hp file c hc) (fun as bs t c hc hR => ?_) hd).mono
    (Nat.zero_le 1)
  refine .bind hc (.expectClosing hc (by decide)) fun _ _ _ _ _ _ => .pure fun _ s => ?_
  rw [SteadyUpTo.forall₂_eq_map.1 hR]
  exact collapse_natural hf as t s

theorem atom_follows {f : Family ε} {place : ε → ε} (hf : f.Natural ρ place) {p q : Parser ε}
    (hp : Follows ρ deep p q place) : Follows ρ deep (atom f p) (atom f q) place := by
  intro file c hc
  unfold atom
  refine .current (Nat.le_refl 1) (.ite Iff.rfl (fun hk => ?_) (fun _ => ?_))
  · exact parenthesised_steady hf hp hc (by simp [hk])
  · refine .bind hc (leaf_steady f hc) fun l l' _ _ _ hl => .pure fun _ => ?_
    rw [← hl, Placing.token_span, hf.ofLeaf]

/-! Patterns and types. -/

theorem startsAtom_looks {f : Family ε} {α β : Type} {p : Parser α} {q : Parser β}
    {R : α → β → Prop} (hitem : ∀ c, c.Ended → Steady ρ deep 1 p q R file c) :
    SteadyUpTo.Looks ρ f.startsAtom p file := by
  refine .of_kind (f := f.startsWith) (fun c => rfl) ?_ (fun c hc _ => hitem c hc)
  intro k hk
  cases k <;> first | rfl | cases hk

theorem startsAtom_steady {f : Family ε} {α β : Type} {p : Parser α} {q : Parser β}
    {R : α → β → Prop} (hitem : ∀ c, c.Ended → Steady ρ deep 1 p q R file c) (hc : c.Ended) :
    Steady ρ deep 0 (many f.startsAtom p) (many f.startsAtom q) (List.Forall₂ R) file c :=
  .many (startsAtom_looks hitem) (fun c hc _ => hitem c hc) hc

theorem patternWithin_follows {p q : Parser (Pattern Span)}
    (hp : Follows ρ deep p q (Pattern.map ρ.span)) :
    Follows ρ deep (patternWithin p) (patternWithin q) (Pattern.map ρ.span) := by
  have hatom := atom_follows (Family.pattern_natural ρ) hp
  intro file c hc
  unfold patternWithin
  refine .current (Nat.le_refl 1) (.ite Iff.rfl (fun hk => ?_) (fun _ => ?_))
  · refine .bind hc (.advance hc (by simp [hk])) fun _ _ d _ hd _ => ?_
    refine .bind hd (startsAtom_steady (fun c hc => hatom file c hc) hd) fun as bs d _ _ hR => ?_
    refine .spanFrom (.pure fun _ => ?_)
    rw [SteadyUpTo.forall₂_eq_map.1 hR, Pattern.map, Pattern.mapAll_eq_map]
    rfl
  · exact hatom file c hc

theorem tooDeep_overflows {α : Type} (cat : Category) (file : String) (c : Cursor) :
    (tooDeep cat : Parser α).Overflows file c := ⟨_, _, rfl, rfl⟩

theorem pattern_follows (d d' : Nat) (hdeep : d' < d → deep) :
    Follows ρ deep (pattern d) (pattern d') (Pattern.map ρ.span) := by
  induction d generalizing d' deep with
  | zero => exact fun _ _ _ => .reject
  | succ d ih =>
    cases d' with
    | zero =>
      intro file c hc
      exact (patternWithin_follows (ih d fun h => absurd h (Nat.lt_irrefl d)) file c hc).escape
        (hdeep (Nat.succ_pos d)) fun _ _ => tooDeep_overflows _ _ _
    | succ d' => exact patternWithin_follows (ih d' fun h => hdeep (Nat.succ_lt_succ h))

theorem typeApplication_follows {p q : Parser (Ty Span)} (hp : Follows ρ deep p q (Ty.map ρ.span)) :
    Follows ρ deep (typeApplication p) (typeApplication q) (Ty.map ρ.span) := by
  have hatom := atom_follows (Family.type_natural ρ) hp
  intro file c hc
  unfold typeApplication
  refine .current (Nat.le_refl 1) (.ite Iff.rfl (fun hk => ?_) (fun _ => ?_))
  · refine .bind hc (.advance hc (by simp [hk])) fun _ _ d _ hd _ => ?_
    refine .bind hd (startsAtom_steady (fun c hc => hatom file c hc) hd) fun as bs d _ _ hR => ?_
    obtain rfl := SteadyUpTo.forall₂_eq_map.1 hR
    refine .ite (by simp) (fun _ => .pure fun _ => rfl) (fun _ => .spanFrom (.pure fun _ => ?_))
    rw [Ty.map, Ty.mapAll_eq_map]
    rfl
  · exact hatom file c hc

theorem names_steady (hc : c.Ended) :
    Steady ρ deep 0 (many (·.isAt .identifier) advance) (many (·.isAt .identifier) advance)
      (fun ts us => us.map (·.text) = ts.map (·.text)) file c := by
  refine SteadyUpTo.imp (.many_kind (f := (· == .identifier)) (fun _ => rfl) ?_
    (fun c hc h => .advance hc (by simp [Cursor.kind_of_isAt h])) hc) fun ts us h => ?_
  · intro k hk
    cases k <;> first | rfl | cases hk
  · rw [SteadyUpTo.forall₂_eq_map.1 h, List.map_map]
    rfl

theorem quantified_steady {p q : Parser (Ty Span)} (hp : Follows ρ deep p q (Ty.map ρ.span))
    (hc : c.Ended) (hk : c.current.kind ≠ .eof) :
    Steady ρ deep 1 (quantified p) (quantified q) (fun a b => b = a.map ρ.span) file c := by
  unfold quantified
  refine .located (Nat.le_refl 1) (.bind hc (.advance hc hk) fun _ _ d _ hd _ => ?_)
  refine .bind hd (names_steady hd) fun ts us d _ hd hnames => ?_
  refine .bind hd (.mono (.expect hd (by decide)) (Nat.zero_le 1)) fun _ _ d _ hd _ => ?_
  refine .bind hd ((hp file d hd).mono (Nat.zero_le 1)) fun t u d _ hd ht => .pure fun _ s => ?_
  rw [hnames, ht]
  rfl

/-- A chain of arrows at its new place. -/
def placeChain (ρ : Placing) (x : List (Int × Ty Span) × Ty Span) :
    List (Int × Ty Span) × Ty Span :=
  (x.1.map fun p => (ρ.offset p.1, p.2.map ρ.span), x.2.map ρ.span)

theorem arrowChain_steady {p q : Parser (Ty Span)} (hp : Follows ρ deep p q (Ty.map ρ.span))
    (m : Nat) (hc : c.Ended) (hm : c.remaining.length ≤ m) :
    SteadyUpTo ρ deep 1 (arrowChain p m) (fun m => arrowChain q (m + 1))
      (fun x y => y = placeChain ρ x) file c := by
  induction m generalizing c with
  | zero => exact absurd (List.length_eq_zero_iff.1 (Nat.le_zero.1 hm)) c.remaining_ne_nil
  | succ m ih =>
    simp only [arrowChain]
    refine .test (f := (· == .kwForall)) (fun _ => rfl) (Nat.le_refl 1) (by simp) (fun hk => ?_)
      (fun _ => .start (Nat.le_refl 1) ?_)
    · refine .bind hc (quantified_steady hp hc (by simp [Cursor.kind_of_isAt hk])) fun t u d _ _ h =>
        .pure fun _ => ?_
      rw [h]
      rfl
    · have happ := typeApplication_follows hp file c hc
      refine .bind hc happ fun t u d hd hended h => ?_
      obtain ⟨-, hlt⟩ := happ.shortens hc t d hd
      refine .test (f := (· == .arrow)) (fun _ => rfl) (Nat.zero_le 1) (fun _ k hk => ?_)
        (fun harrow => ?_) (fun _ => .pure fun _ => by rw [h]; rfl)
      · cases k <;> first | rfl | cases hk
      · have hadv : Steady ρ deep 1 advance advance _ file d :=
          .advance hended (by simp [Cursor.kind_of_isAt harrow])
        refine .bind hended hadv fun _ _ d' hd' hended' _ => ?_
        obtain ⟨-, hlt'⟩ := hadv.shortens hended _ _ hd'
        refine .bind hended' (((ih hended' (by omega)).mono (Nat.zero_le 1)).roomier 1)
          fun x y _ _ _ hxy => .pure fun _ => ?_
        rw [h, hxy]
        rfl

theorem foldr_arrow_natural {f g : Int → Span} (hfg : SteadyUpTo.Closes ρ f g)
    (domains : List (Int × Ty Span)) (codomain : Ty Span) :
    (domains.map fun p => (ρ.offset p.1, p.2.map ρ.span)).foldr
        (fun (s, t) rest => Ty.arrow t rest (g s)) (codomain.map ρ.span) =
      (domains.foldr (fun (s, t) rest => Ty.arrow t rest (f s)) codomain).map ρ.span := by
  induction domains with
  | nil => rfl
  | cons p ps ih => simp [ih, Ty.map, hfg p.1]

theorem typeWithin_follows {p q : Parser (Ty Span)} (hp : Follows ρ deep p q (Ty.map ρ.span)) :
    Follows ρ deep (typeWithin p) (typeWithin q) (Ty.map ρ.span) := by
  intro file c hc
  unfold typeWithin
  have harrows : Steady ρ deep 1 (arrows p) (arrows q) (fun x y => y = placeChain ρ x) file c :=
    .bounded (arrowChain p) (arrowChain q)
      (arrowChain_steady hp _ hc (Nat.le_refl _))
  refine .bind hc harrows.closing fun x y _ _ _ hxy => .pure fun _ => ?_
  obtain ⟨⟨domains, codomain⟩, f⟩ := x
  obtain ⟨z, g⟩ := y
  obtain ⟨rfl, hfg⟩ := hxy
  exact foldr_arrow_natural hfg domains codomain

theorem type_follows (d d' : Nat) (hdeep : d' < d → deep) :
    Follows ρ deep (type d) (type d') (Ty.map ρ.span) := by
  induction d generalizing d' deep with
  | zero => exact fun _ _ _ => .reject
  | succ d ih =>
    cases d' with
    | zero =>
      intro file c hc
      exact (typeWithin_follows (ih d fun h => absurd h (Nat.lt_irrefl d)) file c hc).escape
        (hdeep (Nat.succ_pos d)) fun _ _ => tooDeep_overflows _ _ _
    | succ d' => exact typeWithin_follows (ih d' fun h => hdeep (Nat.succ_lt_succ h))

theorem typeApplication_shortens (d : Nat) (hc : c.Ended) :
    (typeApplication (type d)).Shortens file c := by
  have hself : Follows (.shift 0) False (typeApplication (type d)) (typeApplication (type d))
      (Ty.map (Placing.shift 0).span) :=
    typeApplication_follows (type_follows d d fun h => absurd h (Nat.lt_irrefl _))
  exact hself.shortens hc

/-! Expressions. -/

theorem foldl_natural {α β : Type} {R : α → β → Prop} {f : Expr Span → α → Expr Span}
    {g : Expr Span → β → Expr Span} {place : Expr Span → Expr Span}
    (h : ∀ e a b, R a b → g (place e) b = place (f e a)) {as : List α} {bs : List β}
    (hR : List.Forall₂ R as bs) (e : Expr Span) : bs.foldl g (place e) = place (as.foldl f e) := by
  induction hR generalizing e with
  | nil => rfl
  | cons hab _ ih => rw [List.foldl_cons, List.foldl_cons, h _ _ _ hab, ih]

section

variable {p q : Parser (Expr Span)} {pp pq : Parser (Pattern Span)} {tp tq : Parser (Ty Span)}

def chain {β : Type} (operand : Parser (Expr Span)) (starts : Cursor → Bool) (item : Parser β)
    (build : Int → Expr Span → β → Expr Span) : Parser (Expr Span) := do
  let s ← start
  let e ← operand
  let xs ← many starts item
  return xs.foldl (build s) e

/-- The links of a chain are repeated, and what they build goes to its new place with them. -/
structure Links {β : Type} (ρ : Placing) (deep : Prop) (starts : Cursor → Bool) (item item' : Parser β)
    (build : Int → Expr Span → β → Expr Span) (R : β → β → Prop) (file : String) : Prop where
  looks : SteadyUpTo.Looks ρ starts item file
  steady : ∀ c, c.Ended → starts c = true → Steady ρ deep 1 item item' R file c
  build : ∀ s e x y, R x y → build (ρ.offset s) (e.map ρ.span) y = (build s e x).map ρ.span

theorem chain_follows {β : Type} {starts : Cursor → Bool} {item item' : Parser β}
    {build : Int → Expr Span → β → Expr Span} {R : β → β → Prop}
    (ho : Follows ρ deep p q (Expr.map ρ.span))
    (h : ∀ file, Links ρ deep starts item item' build R file) :
    Follows ρ deep (chain p starts item build) (chain q starts item' build) (Expr.map ρ.span) := by
  intro file c hc
  unfold chain
  refine .start (Nat.le_refl 1) (.bind hc (ho file c hc) fun e e' d _ hd he => ?_)
  refine .bind hd (.many (h file).looks (h file).steady hd) fun xs ys _ _ _ hR => .pure fun _ => ?_
  rw [he]
  exact foldl_natural (fun e x y hxy => (h file).build _ e x y hxy) hR e

theorem operator_steady (hc : c.Ended) (hk : c.current.kind ≠ .eof) :
    Steady ρ deep 1 operator operator (fun x y => y = (x.1, ρ.token x.2)) file c := by
  unfold operator
  refine .bind hc (.advance hc hk) fun t u d _ _ htu => ?_
  rw [htu, Placing.token_text]
  split
  · exact .pure fun _ => rfl
  · exact .fail

/-- Operations with the same operator whose other parts go with each other. -/
structure Operation.Goes (ρ : Placing) (o o' : Operation) : Prop where
  operator : o'.operator = o.operator
  operatorSpan : o'.operatorSpan = ρ.span o.operatorSpan
  operatorEnd : SteadyUpTo.Closes ρ o.operatorEnd o'.operatorEnd
  operand : o'.operand = o.operand.map ρ.span
  operandEnd : SteadyUpTo.Closes ρ o.operandEnd o'.operandEnd

theorem Operation.Goes.apply {o o' : Operation} (h : o.Goes ρ o') (s : Int) (e : Expr Span) :
    Operation.apply (ρ.offset s) (e.map ρ.span) o' = (Operation.apply s e o).map ρ.span := by
  simp only [Operation.apply, Expr.map, h.operator, h.operatorSpan, h.operand, h.operatorEnd s,
    h.operandEnd s]

theorem bindsAtLeast_stop (power : Nat) (k : TokenKind) (hk : k.isStop = true) :
    (match k.powers? with
      | some (left, _) => decide (power ≤ left)
      | none => false) = false := by
  cases k <;> first | rfl | cases hk

theorem operation_steady (file : String) {right right' : TokenKind → Parser (Expr Span)}
    (hright : ∀ k, Follows ρ deep (right k) (right' k) (Expr.map ρ.span)) (hc : c.Ended)
    (hk : c.current.kind ≠ .eof) :
    Steady ρ deep 1
      (do
        let ((o, t), operatorEnd) ← closing operator
        let (operand, operandEnd) ← closing (right t.kind)
        return (⟨o, t.span, operatorEnd, operand, operandEnd⟩ : Operation))
      (do
        let ((o, t), operatorEnd) ← closing operator
        let (operand, operandEnd) ← closing (right' t.kind)
        return (⟨o, t.span, operatorEnd, operand, operandEnd⟩ : Operation))
      (Operation.Goes ρ) file c := by
  refine .bind hc (operator_steady hc hk).closing fun x y d _ hd hxy => ?_
  obtain ⟨⟨o, t⟩, f⟩ := x
  obtain ⟨z, g⟩ := y
  obtain ⟨rfl, hfg⟩ := hxy
  refine .bind hd ((hright t.kind file d hd).mono (Nat.zero_le 1)).closing
    fun x y _ _ _ hxy => .pure fun _ => ?_
  exact ⟨rfl, rfl, hfg, hxy.1, hxy.2⟩

theorem operation_links {starts : Cursor → Bool} {f : TokenKind → Bool}
    {right right' : TokenKind → Parser (Expr Span)} (hs : ∀ c, starts c = f c.current.kind)
    (hstop : ∀ k, k.isStop = true → f k = false)
    (hright : ∀ k, Follows ρ deep (right k) (right' k) (Expr.map ρ.span)) (file : String) :
    Links ρ deep starts
      (do
        let ((o, t), operatorEnd) ← closing operator
        let (operand, operandEnd) ← closing (right t.kind)
        return (⟨o, t.span, operatorEnd, operand, operandEnd⟩ : Operation))
      (do
        let ((o, t), operatorEnd) ← closing operator
        let (operand, operandEnd) ← closing (right' t.kind)
        return (⟨o, t.span, operatorEnd, operand, operandEnd⟩ : Operation))
      Operation.apply (Operation.Goes ρ) file := by
  have hsteady := fun (c : Cursor) (hc : c.Ended) (h : starts c = true) =>
    operation_steady file hright hc fun hk => by
      rw [hs, hk, hstop _ rfl] at h
      cases h
  exact ⟨.of_kind hs hstop hsteady, hsteady, fun s e _ _ h => h.apply s e⟩

theorem climb_follows (hp : Follows ρ deep p q (Expr.map ρ.span)) (climbs power : Nat) :
    Follows ρ deep (climb p climbs power) (climb q climbs power) (Expr.map ρ.span) := by
  induction climbs generalizing power with
  | zero => exact hp
  | succ climbs ih =>
    exact chain_follows hp (operation_links (fun _ => rfl) (bindsAtLeast_stop power)
      fun k => ih (rightPower k))

theorem fieldValue_steady (hp : Follows ρ deep p q (Expr.map ρ.span)) (hc : c.Ended) :
    Steady ρ deep 2 (fieldValue p) (fieldValue q) (fun a b => b = a.map ρ.span) file c := by
  unfold fieldValue
  refine .located (by omega) (.bind_add (n := 1) (m := 1) hc (.expect hc (by decide)) (by simp)
    fun t u d _ hd htu => ?_)
  refine .bind hd (.expect hd (by decide)) fun _ _ d _ hd _ => ?_
  refine .bind hd ((hp file d hd).mono (Nat.zero_le 1)) fun e e' _ _ _ he => .pure fun _ s => ?_
  rw [htu, he]
  rfl

def Suffix.place (ρ : Placing) : Suffix → Suffix
  | .field n => .field n
  | .record fs => .record (fs.map (FieldValue.map ρ.span))

theorem Suffix.apply_natural {x y : Suffix × (Int → Span)} (h : y.1 = x.1.place ρ)
    (hc : SteadyUpTo.Closes ρ x.2 y.2) (s : Int) (e : Expr Span) :
    Suffix.apply (ρ.offset s) (e.map ρ.span) y = (Suffix.apply s e x).map ρ.span := by
  obtain ⟨x, f⟩ := x
  obtain ⟨y, g⟩ := y
  obtain rfl : y = x.place ρ := h
  have hs : g (ρ.offset s) = ρ.span (f s) := hc s
  cases x with
  | field n => simp only [Suffix.place, Suffix.apply, Expr.map, hs]
  | record fs => simp only [Suffix.place, Suffix.apply, Expr.map, hs, FieldValue.mapAll_eq_map]

/-- A record is at least three tokens long, and these are the ones that its test looks at. -/
theorem record_steady (hp : Follows ρ deep p q (Expr.map ρ.span)) (hc : c.Ended)
    (hs : startsRecord c = true) :
    Steady ρ deep 3 (suffix p) (suffix q) (fun a b => b = a.place ρ) file c := by
  obtain ⟨hk, hends⟩ := listEnds_advance_of_startsRecord hs
  unfold suffix
  have hne : c.current.kind ≠ .dot := by simp [hk]
  refine .bind_add (n := 1) (m := 2) hc (.advance hc (by simp [hk])) (by simp)
    fun t u d hd hended htu => ?_
  obtain ⟨rfl, rfl⟩ := advance_eq_done.1 hd
  refine .ite (by rw [htu]; rfl) (fun h => absurd h hne) (fun _ => ?_)
  refine .commas_bind_of_not_listEnds (by omega) (fun c hc _ => fieldValue_steady hp hc)
    (fun as bs t c hc hR => ?_) hended hends
  refine .bind hc (.expectClosing hc (by decide)) fun _ _ _ _ _ _ => .pure fun _ => ?_
  rw [SteadyUpTo.forall₂_eq_map.1 hR]
  rfl

theorem suffix_steady (hp : Follows ρ deep p q (Expr.map ρ.span)) (hc : c.Ended)
    (hs : startsSuffix c = true) :
    Steady ρ deep 1 (suffix p) (suffix q) (fun a b => b = a.place ρ) file c := by
  simp only [startsSuffix, Bool.or_eq_true] at hs
  by_cases hk : c.current.kind = .dot
  · unfold suffix
    refine .bind hc (.advance hc (by simp [hk])) fun t u d hd hended htu => ?_
    obtain ⟨rfl, rfl⟩ := advance_eq_done.1 hd
    refine .ite (by rw [htu]; rfl) (fun _ => ?_) (fun h => absurd hk h)
    refine .bind hended (.mono (.expect hended (by decide)) (Nat.zero_le 1))
      fun t u _ _ _ htu => .pure fun _ => ?_
    rw [htu]
    rfl
  · exact (record_steady hp hc (hs.resolve_left (by simpa [Cursor.isAt] using hk))).mono (by omega)

theorem startsRecord_of_same {c d : Cursor} {ts us rest : List Token}
    (hc : c.remaining = ts ++ us) (hd : d.remaining = ts.map ρ.token ++ rest) (hts : 3 ≤ ts.length)
    (hs : startsRecord c = true) : startsRecord d = true := by
  obtain ⟨t, u, v, ts, rfl⟩ : ∃ t u v ts', ts = t :: u :: v :: ts' := by
    match ts, hts with
    | t :: u :: v :: ts, _ => exact ⟨t, u, v, ts, rfl⟩
  have hc' : c.remaining = t :: u :: v :: (ts ++ us) := hc
  have hd' : d.remaining = ρ.token t :: ρ.token u :: ρ.token v :: (ts.map ρ.token ++ rest) := hd
  obtain ⟨hct, hcr⟩ := Cursor.current_of_remaining hc'
  obtain ⟨hdt, hdr⟩ := Cursor.current_of_remaining hd'
  simp only [startsRecord, Cursor.isAt, hct, hcr] at hs
  simpa only [startsRecord, Cursor.isAt, hdt, hdr, Placing.token_kind] using hs

/-- What stands behind the brace does not become a field by being cut off. -/
theorem startsRecord_of_cut {c d : Cursor} (hs : startsRecord c = false)
    (hcut : Cut ρ c.remaining d.remaining) : startsRecord d = false := by
  obtain ⟨t, ts, e⟩ := c
  obtain ⟨u, us, e'⟩ := d
  simp only [Cursor.remaining] at hcut
  have hstop : ∀ {k : TokenKind}, k.isStop = true → k ≠ .lbrace ∧ k ≠ .identifier ∧ k ≠ .assign := by
    intro k hk
    cases k <;> simp_all [TokenKind.isStop]
  cases hcut with
  | here hu => simp [startsRecord, Cursor.isAt, hstop hu]
  | step h =>
    cases h with
    | here hu =>
      simp only [startsRecord]
      split <;> simp_all
    | step h =>
      cases h with
      | here hu => simp [startsRecord, hstop hu]
      | step h => exact hs

theorem startsSuffix_of_cut {c d : Cursor} (hs : startsSuffix c = false)
    (hcut : Cut ρ c.remaining d.remaining) : startsSuffix d = false := by
  simp only [startsSuffix, Bool.or_eq_false_iff] at hs ⊢
  refine ⟨hcut.kind_eq_false (f := (· == .dot)) (fun k hk => ?_) hs.1, startsRecord_of_cut hs.2 hcut⟩
  cases k <;> first | rfl | cases hk

theorem suffix_looks (hp : Follows ρ deep p q (Expr.map ρ.span)) :
    SteadyUpTo.Looks ρ startsSuffix (suffix p) file where
  same c a c' ts d rest hc hs hrun hcons hd := by
    simp only [startsSuffix, Bool.or_eq_true] at hs ⊢
    by_cases hk : c.isAt .dot = true
    · obtain ⟨us, hus, hcons'⟩ := (suffix_steady hp hc (by simp [startsSuffix, hk])).consumes hrun
      have hts : ts = us := List.append_cancel_right (hcons.remaining.symm.trans hcons'.remaining)
      rw [Cursor.isAt, SteadyUpTo.current_eq hcons.remaining hd (by rw [hts]; exact hus)]
      exact .inl hk
    · have hrec := hs.resolve_left hk
      obtain ⟨us, hus, hcons'⟩ := (record_steady hp hc hrec).consumes hrun
      have hts : ts = us := List.append_cancel_right (hcons.remaining.symm.trans hcons'.remaining)
      exact .inr (startsRecord_of_same hcons.remaining hd (by rw [hts]; exact hus) hrec)
  cut c d hs hcut := startsSuffix_of_cut hs hcut

theorem suffix_links (hp : Follows ρ deep p q (Expr.map ρ.span)) (file : String) :
    Links ρ deep startsSuffix (closing (suffix p)) (closing (suffix q)) Suffix.apply
      (fun x y => y.1 = x.1.place ρ ∧ SteadyUpTo.Closes ρ x.2 y.2) file where
  looks := by
    have hlooks : SteadyUpTo.Looks ρ startsSuffix (suffix p) file := suffix_looks hp
    refine ⟨fun c a c' ts d rest hc hs hrun => ?_, hlooks.cut⟩
    exact hlooks.same c a.1 c' ts d rest hc hs (closing_eq_done.1 hrun).1
  steady c hc hs := (suffix_steady hp hc hs).closing
  build s e _ _ h := Suffix.apply_natural h.1 h.2 s e

theorem withSuffixes_follows {o o' : Parser (Expr Span)} (hp : Follows ρ deep p q (Expr.map ρ.span))
    (ho : Follows ρ deep o o' (Expr.map ρ.span)) :
    Follows ρ deep (withSuffixes p o) (withSuffixes q o') (Expr.map ρ.span) :=
  chain_follows ho (suffix_links hp)

theorem clause_steady (hp : Follows ρ deep p q (Expr.map ρ.span))
    (hpat : Follows ρ deep pp pq (Pattern.map ρ.span)) :
    Follows ρ deep (clause p pp) (clause q pq) (Clause.map ρ.span) := by
  intro file c hc
  unfold clause
  refine .located (Nat.le_refl 1) (.bind hc (hpat file c hc) fun a a' d _ hd ha => ?_)
  refine .bind hd (.mono (.expect hd (by decide)) (Nat.zero_le 1)) fun _ _ d _ hd _ => ?_
  refine .bind hd ((hp file d hd).mono (Nat.zero_le 1)) fun e e' _ _ _ he => .pure fun _ s => ?_
  rw [ha, he]
  rfl

theorem caseOf_steady (hp : Follows ρ deep p q (Expr.map ρ.span))
    (hpat : Follows ρ deep pp pq (Pattern.map ρ.span)) (hc : c.Ended) (hk : c.current.kind ≠ .eof) :
    Steady ρ deep 1 (caseOf p pp) (caseOf q pq) (fun a b => b = a.map ρ.span) file c := by
  have hclause := clause_steady hp hpat
  unfold caseOf
  refine .located (Nat.le_refl 1) (.bind hc (.advance hc hk) fun _ _ d _ hd _ => ?_)
  refine .bind hd ((hp file d hd).mono (Nat.zero_le 1)) fun e e' d _ hd he => ?_
  refine .bind hd (.mono (.expect hd (by decide)) (Nat.zero_le 1)) fun _ _ d _ hd _ => ?_
  refine (SteadyUpTo.commas_bind (fun c hc _ => hclause file c hc)
    (fun as bs t c hc hR => ?_) hd).mono (Nat.zero_le 1)
  refine .bind hc (.expectClosing hc (by decide)) fun _ _ _ _ _ _ => .pure fun _ s => ?_
  rw [SteadyUpTo.forall₂_eq_map.1 hR, he, Expr.map, Clause.mapAll_eq_map]

theorem lambda_steady (hp : Follows ρ deep p q (Expr.map ρ.span)) (hc : c.Ended)
    (hk : c.current.kind ≠ .eof) :
    Steady ρ deep 1 (lambda p) (lambda q) (fun a b => b = a.map ρ.span) file c := by
  unfold lambda
  refine .located (Nat.le_refl 1) (.bind hc (.advance hc hk) fun _ _ d _ hd _ => ?_)
  refine .bind hd (.mono (.expect hd (by decide)) (Nat.zero_le 1)) fun t u d _ hd htu => ?_
  refine .bind hd (.mono (.expect hd (by decide)) (Nat.zero_le 1)) fun _ _ d _ hd _ => ?_
  refine .bind hd ((hp file d hd).mono (Nat.zero_le 1)) fun e e' _ _ _ he => .pure fun _ s => ?_
  rw [htu, he]
  rfl

theorem statement_follows (hp : Follows ρ deep p q (Expr.map ρ.span))
    (hpat : Follows ρ deep pp pq (Pattern.map ρ.span)) :
    Follows ρ deep (statement p pp) (statement q pq) (Statement.map ρ.span) := by
  intro file c hc
  unfold statement
  refine .located (Nat.le_refl 1) (.test (f := (· == .kwLet)) (fun _ => rfl) (Nat.le_refl 1) (by simp)
    (fun hk => ?_) (fun _ => ?_))
  · refine .bind hc (.advance hc (by simp [Cursor.kind_of_isAt hk])) fun _ _ d _ hd _ => ?_
    refine .bind hd ((hpat file d hd).mono (Nat.zero_le 1)) fun a a' d _ hd ha => ?_
    refine .bind hd (.mono (.expect hd (by decide)) (Nat.zero_le 1)) fun _ _ d _ hd _ => ?_
    refine .bind hd ((hp file d hd).mono (Nat.zero_le 1)) fun e e' _ _ _ he => .pure fun _ s => ?_
    rw [ha, he]
    rfl
  · refine .bind hc (hp file c hc) fun e e' _ _ _ he => .pure fun _ s => ?_
    rw [he]
    rfl

theorem statementsUpTo_bind {γ : Type} (m : Nat) (k : List (Statement Span) → Parser γ) :
    (statementsUpTo p pp (m + 1) >>= k) =
      (do
        let s ← statement p pp
        if ← test (·.isAt .semicolon) then
          let _ ← advance
          if ← test fun c => c.isAt .rbrace || c.isAt .eof then k [s]
          else
            let ss ← statementsUpTo p pp m
            k (s :: ss)
        else k [s]) := by
  simp only [statementsUpTo, bind_assoc, ite_bind, pure_bind]

theorem statements_bind {γ : Type} {S : γ → γ → Prop} (hp : Follows ρ deep p q (Expr.map ρ.span))
    (hpat : Follows ρ deep pp pq (Pattern.map ρ.span)) {k l : List (Statement Span) → Parser γ}
    (hk : ∀ ss c, c.Ended →
      Steady ρ deep 1 (k ss) (l (ss.map (Statement.map ρ.span))) S file c) (hc : c.Ended) :
    Steady ρ deep 1 (statements p pp >>= k) (statements q pq >>= l) S file c := by
  have hitem := statement_follows hp hpat
  suffices hall : ∀ m, ∀ (k l : List (Statement Span) → Parser γ) (c : Cursor),
      (∀ ss c, c.Ended → Steady ρ deep 1 (k ss) (l (ss.map (Statement.map ρ.span))) S file c) →
      c.Ended → c.remaining.length ≤ m →
      SteadyUpTo ρ deep 1 (statementsUpTo p pp m >>= k) (fun m => statementsUpTo q pq (m + 1) >>= l)
        S file c from
    .bounded (fun m => statementsUpTo p pp m >>= k) (fun m => statementsUpTo q pq m >>= l) (hall _ k l c hk hc (Nat.le_refl _))
  intro m
  induction m with
  | zero =>
    intro k l c _ _ hm
    exact absurd (List.length_eq_zero_iff.1 (Nat.le_zero.1 hm)) c.remaining_ne_nil
  | succ m ih =>
    intro k l c hk hc hm
    simp only [statementsUpTo_bind]
    refine .bind hc (hitem file c hc) fun s s' d hd hended hs => ?_
    obtain ⟨-, hlt⟩ := (hitem.shortens hc) s d hd
    rw [hs]
    refine SteadyUpTo.mono (n := 1) (.test (f := (· == .semicolon)) (fun _ => rfl) (Nat.le_refl 1)
      (by simp) (fun hsemi => ?_) (fun _ => hk [s] d hended)) (Nat.zero_le 1)
    have hadv : Steady ρ deep 1 advance advance _ file d :=
      .advance hended (by simp [Cursor.kind_of_isAt hsemi])
    refine .bind hended hadv fun _ _ d' hd' hended' _ => ?_
    obtain ⟨-, hlt'⟩ := hadv.shortens hended _ _ hd'
    refine SteadyUpTo.mono (n := 1) (.test (f := fun k => k == .rbrace || k == .eof) (fun _ => rfl)
      (Nat.le_refl 1) (by simp) (fun _ => hk [s] d' hended') (fun _ => ?_)) (Nat.zero_le 1)
    exact (ih (fun ss => k (s :: ss)) (fun ss => l (s.map ρ.span :: ss)) d'
      (fun ss c hc => hk (s :: ss) c hc) hended' (by omega)).roomier 1

theorem emptyBlock_natural (s : Span) : emptyBlock (ρ.span s) = (emptyBlock s).map ρ.span := rfl

theorem block_follows (hp : Follows ρ deep p q (Expr.map ρ.span))
    (hpat : Follows ρ deep pp pq (Pattern.map ρ.span)) :
    Follows ρ deep (block p pp) (block q pq) (Expr.map ρ.span) := by
  intro file c hc
  unfold block
  refine .located (Nat.le_refl 1) (.bind hc (.expect hc (by decide)) fun _ _ d _ hd _ => ?_)
  refine SteadyUpTo.mono (n := 1) (.test (f := (· == .eof)) (fun _ => rfl) (Nat.le_refl 1) (by simp)
    (fun _ => .reject) (fun _ => .test (f := (· == .rbrace)) (fun _ => rfl) (Nat.le_refl 1) (by simp)
      (fun hk => ?_) (fun _ => ?_))) (Nat.zero_le 1)
  · exact .bind hd (.advance hd (by simp [Cursor.kind_of_isAt hk])) fun _ _ _ _ _ _ =>
      .pure fun _ s => emptyBlock_natural s
  · refine statements_bind hp hpat (fun ss c hc => ?_) hd
    refine .bind hc (.expectClosing hc (by decide)) fun _ _ _ _ _ _ => .pure fun _ s => ?_
    rw [Expr.map, Statement.mapAll_eq_map]

theorem ifLet_steady (hp : Follows ρ deep p q (Expr.map ρ.span))
    (hpat : Follows ρ deep pp pq (Pattern.map ρ.span)) (hc : c.Ended) (hk : c.current.kind ≠ .eof) :
    Steady ρ deep 1 (ifLet p pp) (ifLet q pq) (fun a b => b = a.map ρ.span) file c := by
  have hblock := block_follows hp hpat
  unfold ifLet
  refine .located (Nat.le_refl 1) (.bind hc (.advance hc hk) fun _ _ d _ hd _ => ?_)
  refine .bind hd (.mono (.expect hd (by decide)) (Nat.zero_le 1)) fun _ _ d _ hd _ => ?_
  refine .bind hd ((hpat file d hd).mono (Nat.zero_le 1)) fun a a' d _ hd ha => ?_
  refine .bind hd (.mono (.expect hd (by decide)) (Nat.zero_le 1)) fun _ _ d _ hd _ => ?_
  refine .bind hd ((hp file d hd).mono (Nat.zero_le 1)) fun e e' d _ hd he => ?_
  refine .bind hd ((hblock file d hd).mono (Nat.zero_le 1)) fun t t' d _ hd ht => ?_
  refine .bind hd (.mono (.expect hd (by decide)) (Nat.zero_le 1)) fun _ _ d _ hd _ => ?_
  refine .bind hd ((hblock file d hd).mono (Nat.zero_le 1)) fun l l' _ _ _ hl => .pure fun _ s => ?_
  rw [ha, he, ht, hl]
  rfl

theorem primary_follows (hp : Follows ρ deep p q (Expr.map ρ.span))
    (hpat : Follows ρ deep pp pq (Pattern.map ρ.span)) :
    Follows ρ deep (primary p pp) (primary q pq) (Expr.map ρ.span) := by
  intro file c hc
  unfold primary
  refine .current (Nat.le_refl 1) ?_
  simp only [Placing.token_kind]
  split
  · rename_i hk
    exact lambda_steady hp hc (by simp [hk])
  · rename_i hk
    exact ifLet_steady hp hpat hc (by simp [hk])
  · rename_i hk
    exact caseOf_steady hp hpat hc (by simp [hk])
  · exact block_follows hp hpat file c hc
  · refine .test (f := Family.expression.startsWith) (fun _ => rfl) (Nat.le_refl 1) (by simp) (fun _ => ?_) (fun _ => .unexpected)
    exact atom_follows (Family.expression_natural ρ) hp file c hc

def Argument.apply (s : Int) (callee : Expr Span) (x : Expr Span × (Int → Span)) : Expr Span :=
  .apply callee x.1 (x.2 s)

theorem argument_links (hp : Follows ρ deep p q (Expr.map ρ.span)) (file : String) :
    Links ρ deep Family.expression.startsAtom (closing (withSuffixes p (atom .expression p)))
      (closing (withSuffixes q (atom .expression q))) Argument.apply
      (fun x y => y.1 = x.1.map ρ.span ∧ SteadyUpTo.Closes ρ x.2 y.2) file where
  looks := startsAtom_looks fun c hc => (withSuffixes_follows hp
    (atom_follows (Family.expression_natural ρ) hp) file c hc).closing
  steady c hc _ := (withSuffixes_follows hp (atom_follows (Family.expression_natural ρ) hp)
    file c hc).closing
  build s e x y h := by simp only [Argument.apply, Expr.map, h.1, h.2 s]

theorem application_follows (hp : Follows ρ deep p q (Expr.map ρ.span))
    (hpat : Follows ρ deep pp pq (Pattern.map ρ.span)) :
    Follows ρ deep (application p pp) (application q pq) (Expr.map ρ.span) :=
  chain_follows (withSuffixes_follows hp (primary_follows hp hpat)) (argument_links hp)

theorem expressionWithin_follows (hp : Follows ρ deep p q (Expr.map ρ.span))
    (hpat : Follows ρ deep pp pq (Pattern.map ρ.span)) (hty : Follows ρ deep tp tq (Ty.map ρ.span)) :
    Follows ρ deep (expressionWithin p pp tp) (expressionWithin q pq tq) (Expr.map ρ.span) := by
  have hclimb := climb_follows (application_follows hp hpat) tiers 0
  intro file c hc
  unfold expressionWithin
  refine .start (Nat.le_refl 1) (.bind hc (hclimb file c hc) fun e e' d _ hd he => ?_)
  refine .test (f := (· == .colon)) (fun _ => rfl) (Nat.zero_le 1) (fun _ k hk => ?_)
    (fun hcolon => ?_) (fun _ => .pure fun _ => he)
  · cases k <;> first | rfl | cases hk
  · refine .bind hd (.advance hd (by simp [Cursor.kind_of_isAt hcolon])) fun _ _ d _ hd _ => ?_
    refine .bind hd ((hty file d hd).mono (Nat.zero_le 1)) fun t t' d _ hd ht => ?_
    refine .spanFrom (.pure fun _ => ?_)
    rw [he, ht]
    rfl

end

theorem expression_follows (d d' : Nat) (hdeep : d' < d → deep) :
    Follows ρ deep (expression d) (expression d') (Expr.map ρ.span) := by
  induction d generalizing d' deep with
  | zero => exact fun _ _ _ => .reject
  | succ d ih =>
    cases d' with
    | zero =>
      intro file c hc
      have hself : Follows ρ deep (expression (d + 1)) (expression (d + 1)) (Expr.map ρ.span) :=
        expressionWithin_follows (ih d fun h => absurd h (Nat.lt_irrefl d))
          (pattern_follows (d + 1) (d + 1) fun h => absurd h (Nat.lt_irrefl _))
          (type_follows (d + 1) (d + 1) fun h => absurd h (Nat.lt_irrefl _))
      exact (hself file c hc).escape (hdeep (Nat.succ_pos d)) fun _ _ => tooDeep_overflows _ _ _
    | succ d' =>
      exact expressionWithin_follows (ih d' fun h => hdeep (Nat.succ_lt_succ h))
        (pattern_follows (d + 1) (d' + 1) hdeep) (type_follows (d + 1) (d' + 1) hdeep)

/-! Declarations. -/

section

variable {bp bq : Parser (Expr Span)} {pp pq : Parser (Pattern Span)} {tp tq ap aq : Parser (Ty Span)}

theorem param_steady (hpat : Follows ρ deep pp pq (Pattern.map ρ.span))
    (hty : Follows ρ deep tp tq (Ty.map ρ.span)) (hc : c.Ended) (hk : c.current.kind ≠ .eof) :
    Steady ρ deep 1 (param pp tp) (param pq tq) (fun a b => b = a.map ρ.span) file c := by
  unfold param
  refine .located (Nat.le_refl 1) (.bind hc (.advance hc hk) fun _ _ d _ hd _ => ?_)
  refine .bind hd ((hpat file d hd).mono (Nat.zero_le 1)) fun a a' d _ hd ha => ?_
  refine .bind hd (.mono (.expect hd (by decide)) (Nat.zero_le 1)) fun _ _ d _ hd _ => ?_
  refine .bind hd ((hty file d hd).mono (Nat.zero_le 1)) fun t t' d _ hd ht => ?_
  refine .bind hd (.mono (.expectClosing hd (by decide)) (Nat.zero_le 1)) fun _ _ _ _ _ _ =>
    .pure fun _ s => ?_
  rw [ha, ht]
  rfl

theorem returnType_steady (hty : Follows ρ deep tp tq (Ty.map ρ.span)) (hc : c.Ended) :
    Steady ρ deep 0 (returnType tp) (returnType tq) (fun a b => b = a.map (Ty.map ρ.span)) file c := by
  unfold returnType
  refine .test (f := (· == .colon)) (fun _ => rfl) (Nat.zero_le 1) (fun _ k hk => ?_) (fun hk => ?_)
    (fun _ => .pure fun _ => rfl)
  · cases k <;> first | rfl | cases hk
  · refine .bind hc (.advance hc (by simp [Cursor.kind_of_isAt hk])) fun _ _ d _ hd _ => ?_
    refine .bind hd ((hty file d hd).mono (Nat.zero_le 1)) fun t t' _ _ _ ht => .pure fun _ => ?_
    rw [ht]
    rfl

theorem fnDecl_steady (hblock : Follows ρ deep bp bq (Expr.map ρ.span))
    (hpat : Follows ρ deep pp pq (Pattern.map ρ.span)) (hty : Follows ρ deep tp tq (Ty.map ρ.span))
    (hc : c.Ended) (hk : c.current.kind ≠ .eof) :
    Steady ρ deep 1 (fnDecl bp pp tp) (fnDecl bq pq tq) (fun a b => b = a.map ρ.span) file c := by
  unfold fnDecl
  refine .located (Nat.le_refl 1) (.bind hc (.advance hc hk) fun _ _ d _ hd _ => ?_)
  refine .bind hd (.mono (.expect hd (by decide)) (Nat.zero_le 1)) fun n n' d _ hd hn => ?_
  refine .bind hd (.many_kind (f := (· == .lparen)) (fun _ => rfl) (fun k hk => ?_)
    (fun c hc hs => param_steady hpat hty hc (by simp [Cursor.kind_of_isAt hs])) hd)
    fun as bs d _ hd hR => ?_
  · cases k <;> first | rfl | cases hk
  refine .bind hd (returnType_steady hty hd) fun r r' d _ hd hr => ?_
  refine .bind hd ((hblock file d hd).mono (Nat.zero_le 1)) fun e e' _ _ _ he => .pure fun _ s => ?_
  rw [hn, SteadyUpTo.forall₂_eq_map.1 hR, hr, he]
  rfl

theorem variant_follows (hatom : Follows ρ deep ap aq (Ty.map ρ.span)) :
    Follows ρ deep (variant ap) (variant aq) (Variant.map ρ.span) := by
  intro file c hc
  unfold variant
  refine .located (Nat.le_refl 1) (.bind hc (.expect hc (by decide)) fun n n' d _ hd hn => ?_)
  refine .bind hd (startsAtom_steady (fun c hc => hatom file c hc) hd) fun as bs _ _ _ hR =>
    .pure fun _ s => ?_
  rw [hn, SteadyUpTo.forall₂_eq_map.1 hR]
  rfl

theorem sum_steady (hatom : Follows ρ deep ap aq (Ty.map ρ.span)) (hc : c.Ended)
    (hs : c.isAt .pipe = true) :
    Steady ρ deep 1 (sum ap) (sum aq) (fun a b => b = a.map ρ.span) file c := by
  have hitem : ∀ c : Cursor, c.Ended → c.isAt .pipe = true →
      Steady ρ deep 1 (do let _ ← advance; variant ap) (do let _ ← advance; variant aq)
        (fun a b => b = a.map ρ.span) file c := by
    intro c hc hk
    refine .bind hc (.advance hc (by simp [Cursor.kind_of_isAt hk])) fun _ _ d _ hd _ => ?_
    exact (variant_follows hatom file d hd).mono (Nat.zero_le 1)
  unfold sum
  refine .bind hc (.many_of_starts (.of_kind (f := (· == .pipe)) (fun _ => rfl) (fun k hk => ?_)
    hitem) hitem hc hs) fun as bs _ _ _ hR => .pure fun _ => ?_
  · cases k <;> first | rfl | cases hk
  · rw [SteadyUpTo.forall₂_eq_map.1 hR]
    rfl

theorem field_follows (hty : Follows ρ deep tp tq (Ty.map ρ.span)) :
    Follows ρ deep (field tp) (field tq) (Field.map ρ.span) := by
  intro file c hc
  unfold field
  refine .located (Nat.le_refl 1) (.bind hc (.expect hc (by decide)) fun n n' d _ hd hn => ?_)
  refine .bind hd (.mono (.expect hd (by decide)) (Nat.zero_le 1)) fun _ _ d _ hd _ => ?_
  refine .bind hd ((hty file d hd).mono (Nat.zero_le 1)) fun t t' _ _ _ ht => .pure fun _ s => ?_
  rw [hn, ht]
  rfl

theorem product_steady (hty : Follows ρ deep tp tq (Ty.map ρ.span)) (hc : c.Ended)
    (hk : c.current.kind ≠ .eof) :
    Steady ρ deep 1 (product tp) (product tq) (fun a b => b = a.map ρ.span) file c := by
  have hfield := field_follows hty
  unfold product
  refine .bind hc (.advance hc hk) fun _ _ d _ hd _ => ?_
  refine (SteadyUpTo.commas_bind (fun c hc _ => hfield file c hc)
    (fun as bs t c hc hR => ?_) hd).mono (Nat.zero_le 1)
  refine .bind hc (.expectClosing hc (by decide)) fun _ _ _ _ _ _ => .pure fun _ => ?_
  rw [SteadyUpTo.forall₂_eq_map.1 hR]
  rfl

theorem typeBody_steady (hty : Follows ρ deep tp tq (Ty.map ρ.span))
    (hatom : Follows ρ deep ap aq (Ty.map ρ.span)) (name : String) (hc : c.Ended) :
    Steady ρ deep 1 (typeBody tp ap name) (typeBody tq aq name) (fun a b => b = a.map ρ.span)
      file c := by
  unfold typeBody
  refine .test (f := (· == .pipe)) (fun _ => rfl) (Nat.le_refl 1) (by simp)
    (fun hk => sum_steady hatom hc hk) (fun _ => ?_)
  refine .test (f := (· == .lbrace)) (fun _ => rfl) (Nat.le_refl 1) (by simp) (fun hk => ?_)
    (fun _ => .reject)
  exact product_steady hty hc (by simp [Cursor.kind_of_isAt hk])

theorem typeDecl_steady (hty : Follows ρ deep tp tq (Ty.map ρ.span))
    (hatom : Follows ρ deep ap aq (Ty.map ρ.span)) (hc : c.Ended) (hk : c.current.kind ≠ .eof) :
    Steady ρ deep 1 (typeDecl tp ap) (typeDecl tq aq) (fun a b => b = a.map ρ.span) file c := by
  unfold typeDecl
  refine .located (Nat.le_refl 1) (.bind hc (.advance hc hk) fun _ _ d _ hd _ => ?_)
  refine .bind hd (.mono (.expect hd (by decide)) (Nat.zero_le 1)) fun n n' d _ hd hn => ?_
  refine .bind hd (names_steady hd) fun ts us d _ hd hnames => ?_
  refine .bind hd (.mono (.expect hd (by decide)) (Nat.zero_le 1)) fun _ _ d _ hd _ => ?_
  rw [hn]
  refine .bind hd ((typeBody_steady hty hatom n.text hd).mono (Nat.zero_le 1)) fun b b' _ _ _ hb =>
    .pure fun _ s => ?_
  rw [hnames, hb]
  rfl

theorem declarationWithin_follows (hblock : Follows ρ deep bp bq (Expr.map ρ.span))
    (hpat : Follows ρ deep pp pq (Pattern.map ρ.span)) (hty : Follows ρ deep tp tq (Ty.map ρ.span))
    (hatom : Follows ρ deep ap aq (Ty.map ρ.span)) :
    Follows ρ deep (declarationWithin bp pp tp ap) (declarationWithin bq pq tq aq)
      (Decl.map ρ.span) := by
  intro file c hc
  unfold declarationWithin
  refine .current (Nat.le_refl 1) ?_
  simp only [Placing.token_kind]
  split
  · rename_i hk
    exact fnDecl_steady hblock hpat hty hc (by simp [hk])
  · rename_i hk
    exact typeDecl_steady hty hatom hc (by simp [hk])
  · exact .unexpected

end

theorem declaration_follows (d d' : Nat) (hdeep : d' < d → deep) :
    Follows ρ deep (declaration d) (declaration d') (Decl.map ρ.span) := by
  have hty : Follows ρ deep (type d) (type d') (Ty.map ρ.span) := type_follows d d' hdeep
  have hpat : Follows ρ deep (pattern d) (pattern d') (Pattern.map ρ.span) := pattern_follows d d' hdeep
  exact declarationWithin_follows (block_follows (expression_follows d d' hdeep) hpat) hpat hty
    (atom_follows (Family.type_natural ρ) hty)

theorem declaration_follows_self (ρ : Placing) (depth : Nat) :
    Follows ρ False (declaration depth) (declaration depth) (Decl.map ρ.span) :=
  declaration_follows depth depth fun h => absurd h (Nat.lt_irrefl _)

end Parser
end TinyFront
