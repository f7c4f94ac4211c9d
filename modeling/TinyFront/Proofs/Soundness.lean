import TinyFront.Proofs.Ensures
import TinyFront.Proofs.Repeats
import TinyFront.Proofs.Tiers

/-!
Soundness: what a parser accepts is a phrase of the grammar, and its tree, with the places
forgotten, is what the phrase stands for. The parsers are taken in the order in which they call each
other, each over sound readers of what nests in it; the depth comes last.
-/
namespace TinyFront

open Grammar

theorem any_isCapital_of_isName {n : String} (h : isName n = true) :
    n.toList.head?.any Text.isCapital = n.toList.head?.any Char.isUpper := by
  unfold isName at h
  split at h
  · contradiction
  · rename_i c cs hn
    simp only [Bool.and_eq_true] at h
    simp [hn, Text.isCapital_of_ascii (Nat.lt_of_le_of_lt (toNat_of_startsWord h.1.1.1).2 (by decide))]

/-- A family builds its nodes as the grammar says, up to places. -/
structure Family.Agrees {ε : Type} (f : Family ε) (k : Kin) (bare : ε → k.Node) : Prop where
  leaf : ∀ l s, (∀ n, l ≠ .name n) → bare (f.ofLeaf l s) = k.ofLeaf l
  lowerName : ∀ n s, isLowerName n = true → bare (f.ofLeaf (.name n) s) = k.ofLowerName n
  upperName : ∀ n s, isUpperName n = true → bare (f.ofLeaf (.name n) s) = k.ofUpperName n
  tuple : ∀ es s, bare (f.ofTuple es s) = k.ofTuple (es.map bare)
  booleans : f.booleans = true ↔ k ≠ .type

namespace Family

theorem expression_agrees : expression.Agrees .expression Expr.bare where
  leaf _ _ _ := rfl
  lowerName _ _ _ := rfl
  upperName _ _ _ := rfl
  tuple es s := by
    show Expr.tuple (Expr.mapAll (fun _ => ()) es) () = _
    rw [Expr.mapAll_eq_map]
    rfl
  booleans := by simp [expression]

theorem pattern_agrees : pattern.Agrees .pattern Pattern.bare where
  leaf l s h := by cases l <;> simp_all [pattern, patternOfLeaf, Pattern.bare, Pattern.map, Kin.ofLeaf]
  lowerName n s h := by
    have hn := any_isCapital_of_isName (isName_of_isLowerName h)
    simp only [isLowerName, Bool.and_eq_true, Bool.not_eq_true'] at h
    simp [pattern, patternOfLeaf, hn, h.2, Pattern.bare, Pattern.map, Kin.ofLowerName]
  upperName n s h := by
    have hn := any_isCapital_of_isName (isName_of_isUpperName h)
    simp only [isUpperName, Bool.and_eq_true] at h
    simp [pattern, patternOfLeaf, hn, h.2, Pattern.bare, Pattern.map, Pattern.mapAll,
      Kin.ofUpperName]
  tuple ps s := by
    show Pattern.tuple (Pattern.mapAll (fun _ => ()) ps) () = _
    rw [Pattern.mapAll_eq_map]
    rfl
  booleans := by simp [pattern]

theorem type_agrees : type.Agrees .type Ty.bare where
  leaf l s h := by cases l <;> simp_all [type, typeOfLeaf, Ty.bare, Ty.map, Kin.ofLeaf]
  lowerName _ _ _ := rfl
  upperName _ _ _ := rfl
  tuple ts s := by
    show Ty.tuple (Ty.mapAll (fun _ => ()) ts) () = _
    rw [Ty.mapAll_eq_map]
    rfl
  booleans := by simp [type]

end Family

namespace Parser

/-- What the parser accepts is a phrase of the sort. -/
def Sound {α : Type} (p : Parser α) (s : Sym) (bare : α → s.Node) : Prop :=
  ∀ file c, TokenStream c.remaining →
    p.Ensures file c fun xs a => Derives .anywhere s xs (bare a)

variable {ε : Type} {file : String} {c : Cursor}

theorem number_ensures {k : Kin} {cat : Category} {t : Token}
    (hc : TokenStream c.remaining) :
    (number cat t).Ensures file c fun xs n => xs = [] ∧
      Derives .anywhere (.atom k) [(.integer, t.text)] (k.ofLeaf (.number n)) := by
  simp only [number]
  split
  · rename_i hd
    split
    · exact .fail
    · rename_i hl
      split
      · rename_i hv
        exact .pure hc ⟨rfl, .number k t.text hd (Nat.le_of_not_lt hl) hv⟩
      · exact .fail
  · exact .fail

theorem leaf_ensures {f : Family ε} {k : Kin} {bare : ε → k.Node} (hf : f.Agrees k bare)
    (hc : TokenStream c.remaining) :
    (leaf f).Ensures file c fun xs l => ∀ s, Derives .anywhere (.atom k) xs (bare (f.ofLeaf l s)) := by
  unfold leaf
  refine .current ?_
  split
  · rename_i hk
    refine (Ensures.advance_symbol hc hk rfl).bind fun xs _ d hd hx => .pure hd fun s => ?_
    rw [hx, hf.leaf _ _ (by simp)]
    exact .wildcard k
  · rename_i hk
    refine (Ensures.advance_word hc hk (by decide)).bind fun xs t d hd ⟨hx, _, ht⟩ => ?_
    refine (number_ensures (k := k) hd).bind fun ys n d hd ⟨hy, hn⟩ => .pure hd fun s => ?_
    rw [hx, hy, hf.leaf _ _ (by simp), ht]
    exact hn
  · rename_i hk
    refine (Ensures.advance_word hc hk (by decide)).bind fun xs t d hd ⟨hx, hp, ht⟩ => .pure hd ?_
    intro s
    rw [hx, ← ht, hf.lowerName _ _ hp]
    exact .lowerName k _ hp
  · rename_i hk
    refine (Ensures.advance_word hc hk (by decide)).bind fun xs t d hd ⟨hx, hp, ht⟩ => .pure hd ?_
    intro s
    rw [hx, ← ht, hf.upperName _ _ hp]
    exact .upperName k _ hp
  · rename_i hk
    split
    · rename_i hb
      refine (Ensures.advance_word hc hk (by decide)).bind fun xs t d hd ⟨hx, hp, ht⟩ => .pure hd ?_
      intro s
      rw [hx, ← ht, hf.leaf _ _ (by simp)]
      have hd := Derives.boolean (u := .anywhere) k (hf.booleans.1 hb) (t.text == "true")
      rcases hp with h | h <;> simp_all
    · exact .unexpected
  · exact .unexpected

theorem collapse_derives {f : Family ε} {k : Kin} {bare : ε → k.Node} (hf : f.Agrees k bare)
    (parts : List (List Lexeme × ε)) (trailing : Bool) (s : Span)
    (h : ∀ p ∈ parts, Derives .anywhere (.element k) p.1 (bare p.2)) :
    Derives .anywhere (.atom k)
      (TokenKind.lparen.lexeme :: listed TokenKind.comma.lexeme trailing (parts.map (·.1)) ++
        [TokenKind.rparen.lexeme])
      (bare (collapse f (parts.map (·.2)) trailing s)) := by
  have htuple : 2 ≤ parts.length ∨ parts.length = 1 ∧ trailing = true →
      Derives .anywhere (.atom k)
        (TokenKind.lparen.lexeme :: listed TokenKind.comma.lexeme trailing (parts.map (·.1)) ++
          [TokenKind.rparen.lexeme])
        (bare (f.ofTuple (parts.map (·.2)) s)) := by
    intro hp
    have hd := Derives.tuple (u := .anywhere) k (parts.map fun p => (p.1, bare p.2)) trailing
      (by simpa using hp) (List.forall_mem_map.2 h)
    rw [hf.tuple]
    simpa [Function.comp_def] using hd
  rcases parts with _ | ⟨p, _ | ⟨q, ps⟩⟩
  · show Derives .anywhere (.atom k) _ (bare (f.ofLeaf .unit s))
    rw [hf.leaf _ _ (by simp)]
    exact .unit k
  · cases trailing with
    | false => simpa [listed, collapse] using Derives.group k (h p (by simp))
    | true => exact htuple (by simp)
  · exact htuple (by simp)

theorem parenthesised_ensures {f : Family ε} {k : Kin} {bare : ε → k.Node} (hf : f.Agrees k bare)
    {element : Parser ε} (he : element.Sound (.element k) bare) (hc : TokenStream c.remaining)
    (hk : c.current.kind = .lparen) :
    (parenthesised f element).Ensures file c fun xs a => Derives .anywhere (.atom k) xs (bare a) := by
  unfold parenthesised
  refine .located ((Ensures.advance_symbol hc hk rfl).bind fun xs _ d hd hx => ?_)
  refine (Ensures.commas hd fun c hc => he file c hc).bind fun ys ⟨elements, trailing⟩ d hd hy => ?_
  refine (Ensures.expectClosing hd rfl).bind fun zs _ d hd hz => .pure hd fun s => ?_
  obtain ⟨parts, rfl, rfl, hparts, -⟩ := hy
  rw [hx, hz]
  exact collapse_derives hf parts trailing s hparts

theorem atom_sound {f : Family ε} {k : Kin} {bare : ε → k.Node} (hf : f.Agrees k bare)
    {element : Parser ε} (he : element.Sound (.element k) bare) :
    (atom f element).Sound (.atom k) bare := by
  intro file c hc
  unfold atom
  refine .current ?_
  split
  · rename_i hk
    exact parenthesised_ensures hf he hc hk
  · refine (leaf_ensures hf hc).bind fun xs l d hd hl => .pure hd ?_
    rw [List.append_nil]
    exact hl _

/-! Patterns and types. -/

theorem patternWithin_sound {inner : Parser (Pattern Span)}
    (hi : inner.Sound (.element .pattern) Pattern.bare) :
    (patternWithin inner).Sound (.element .pattern) Pattern.bare := by
  have hatom := atom_sound Family.pattern_agrees hi
  intro file c hc
  unfold patternWithin
  refine .current ?_
  split
  · rename_i hk
    refine (Ensures.advance_word hc hk (by decide)).bind fun xs t d hd ⟨hx, hp, ht⟩ => ?_
    refine (Ensures.many hd fun c hc _ => hatom file c hc).bind fun ys args d hd hy => ?_
    refine .spanFrom (.pure hd ?_)
    obtain ⟨parts, rfl, rfl, hparts, -⟩ := hy
    have h := Derives.construct (u := .anywhere) t.text (parts.map fun p => (p.1, p.2.bare))
      (List.forall_mem_map.2 hparts)
    rw [hx, ← ht, Pattern.bare, Pattern.map, Pattern.mapAll_eq_map]
    simpa [List.flatMap_map, Function.comp_def, Pattern.bare] using h
  · exact (hatom file c hc).mono fun _ _ h => .atomicPattern h

theorem pattern_sound (depth : Nat) : (pattern depth).Sound (.element .pattern) Pattern.bare := by
  induction depth with
  | zero => exact fun _ _ _ => .reject
  | succ depth ih => exact patternWithin_sound ih

theorem typeApplication_sound {inner : Parser (Ty Span)}
    (hi : inner.Sound (.element .type) Ty.bare) :
    (typeApplication inner).Sound .typeApplication Ty.bare := by
  have hatom := atom_sound Family.type_agrees hi
  intro file c hc
  unfold typeApplication
  refine .current ?_
  split
  · rename_i hk
    refine (Ensures.advance_word hc hk (by decide)).bind fun xs t d hd ⟨hx, hp, ht⟩ => ?_
    refine (Ensures.many hd fun c hc _ => hatom file c hc).bind fun ys args d hd hy => ?_
    obtain ⟨parts, rfl, rfl, hparts, -⟩ := hy
    rw [hx, ← ht]
    cases parts with
    | nil => exact .pure hd (.atomicType (.upperName .type _ hp))
    | cons p ps =>
      refine .spanFrom (.pure hd ?_)
      have h := Derives.applyType (u := .anywhere) t.text
        ((p :: ps).map fun p => (p.1, p.2.bare)) (by simp) (List.forall_mem_map.2 hparts)
      rw [Ty.bare, Ty.map, Ty.mapAll_eq_map]
      simpa [List.flatMap_map, Function.comp_def, Ty.bare] using h
  · exact (hatom file c hc).mono fun _ _ h => .atomicType h

theorem names_ensures (hc : TokenStream c.remaining) :
    (many (·.isAt .identifier) advance).Ensures file c fun xs ts =>
      xs = (ts.map (·.text)).map (TokenKind.identifier, ·) := by
  refine (Ensures.many hc (P := fun xs t => xs = [(TokenKind.identifier, t.text)])
    fun c hc h => ?_).mono ?_
  · exact (Ensures.advance_word hc (Cursor.kind_of_isAt h) (by decide)).mono fun _ _ h => h.1
  · rintro xs ts ⟨parts, rfl, rfl, hparts, -⟩
    induction parts with
    | nil => rfl
    | cons p ps ih =>
      simp only [List.mem_cons, forall_eq_or_imp] at hparts
      simp [hparts.1, ih hparts.2]

theorem quantified_ensures {inner : Parser (Ty Span)} (hi : inner.Sound (.element .type) Ty.bare)
    (hc : TokenStream c.remaining) (hk : c.current.kind = .kwForall) :
    (quantified inner).Ensures file c fun xs t => Derives .anywhere (.element .type) xs t.bare := by
  unfold quantified
  refine .located ((Ensures.advance_symbol hc hk rfl).bind fun xs _ d hd hx => ?_)
  refine (names_ensures hd).bind fun ys binders d hd hy => ?_
  refine (Ensures.expect_symbol hd rfl).bind fun zs _ d hd hz => ?_
  refine (hi file d hd).bind fun ws body d hd hw => .pure hd fun s => ?_
  rw [hx, hy, hz]
  simpa [Ty.bare, Ty.map] using Derives.quantified (binders.map (·.text)) hw

theorem arrowChain_ensures {inner : Parser (Ty Span)} (hi : inner.Sound (.element .type) Ty.bare)
    (bound : Nat) (hc : TokenStream c.remaining) :
    (arrowChain inner bound).Ensures file c fun xs x => ∀ spanAt : Int → Span,
      Derives .anywhere (.element .type) xs
        (x.1.foldr (fun (s, t) rest => .arrow t rest (spanAt s)) x.2).bare := by
  induction bound generalizing c with
  | zero => exact .unexpected
  | succ bound ih =>
    unfold arrowChain
    refine .test (fun hk => ?_) (fun _ => ?_)
    · refine (quantified_ensures hi hc (Cursor.kind_of_isAt hk)).bind fun xs t d hd h => .pure hd ?_
      intro spanAt
      rw [List.append_nil]
      exact h
    · refine .start ((typeApplication_sound hi file c hc).bind fun xs t d hd ht => ?_)
      refine .test (fun hk => ?_) (fun _ => .pure hd fun spanAt => ?_)
      · refine (Ensures.advance_symbol hd (Cursor.kind_of_isAt hk) rfl).bind fun ys _ d hd hy => ?_
        refine (ih hd).bind fun zs x d hd hz => .pure hd fun spanAt => ?_
        rw [hy, List.append_nil]
        exact .arrow ht (hz spanAt)
      · rw [List.append_nil]
        exact .plainType ht

theorem typeWithin_sound {inner : Parser (Ty Span)} (hi : inner.Sound (.element .type) Ty.bare) :
    (typeWithin inner).Sound (.element .type) Ty.bare := by
  intro file c hc
  unfold typeWithin
  have hchain : (arrows inner).Ensures file c _ := arrowChain_ensures hi c.remaining.length hc
  refine (Ensures.closing hchain).bind fun xs ⟨x, spanAt⟩ d hd h => .pure hd ?_
  rw [List.append_nil]
  exact h spanAt

theorem type_sound (depth : Nat) : (type depth).Sound (.element .type) Ty.bare := by
  induction depth with
  | zero => exact fun _ _ _ => .reject
  | succ depth ih => exact typeWithin_sound ih

/-! Expressions. -/

/-- What a suffix makes of a bare expression. -/
def Suffix.bare : Suffix → Expr Unit → Expr Unit
  | .field n => (.access · n ())
  | .record fs => (.record · (fs.map FieldValue.bare) ())

theorem bare_foldl {α β : Type} {f : Expr Span → α → Expr Span} (g : Expr Unit → β → Expr Unit)
    (view : α → β) (hfg : ∀ e a, (f e a).bare = g e.bare (view a)) (as : List α) (e : Expr Span) :
    (as.foldl f e).bare = (as.map view).foldl g e.bare := by
  rw [List.foldl_map]
  exact (List.foldl_hom Expr.bare fun e a => (hfg e a).symm).symm

theorem bare_foldl_suffix (s : Int) (xs : List (Suffix × (Int → Span))) (e : Expr Span) :
    (xs.foldl (Suffix.apply s) e).bare = (xs.map (·.1.bare)).foldl (fun e f => f e) e.bare := by
  refine bare_foldl _ _ (fun e x => ?_) xs e
  obtain ⟨n | fs, f⟩ := x
  · rfl
  · show Expr.record (e.map _) (FieldValue.mapAll _ fs) () = _
    rw [FieldValue.mapAll_eq_map]
    rfl

theorem bare_foldl_argument (s : Int) (xs : List (Expr Span × (Int → Span))) (e : Expr Span) :
    (xs.foldl (fun callee (argument, spanAt) => .apply callee argument (spanAt s)) e).bare =
      (xs.map (·.1.bare)).foldl (.apply · · ()) e.bare :=
  bare_foldl _ _ (fun _ _ => rfl) xs e

theorem bare_foldl_operation (s : Int) (os : List Operation) (e : Expr Span) :
    (os.foldl (Operation.apply s) e).bare =
      (os.map fun o => (o.operator, o.operand.bare)).foldl (fun e o => infixed e (o.1, [], o.2))
        e.bare :=
  bare_foldl _ _ (fun _ _ => rfl) os e

section

variable {inner : Parser (Expr Span)} {pat : Parser (Pattern Span)} {ty : Parser (Ty Span)}

theorem fieldValue_sound (hi : inner.Sound (.element .expression) Expr.bare) :
    (fieldValue inner).Sound .fieldValue FieldValue.bare := by
  intro file c hc
  unfold fieldValue
  refine .located ((Ensures.expect_word hc (by decide)).bind fun xs name d hd ⟨hx, _⟩ => ?_)
  refine (Ensures.expect_symbol hd rfl).bind fun ys _ d hd hy => ?_
  refine (hi file d hd).bind fun zs value d hd hz => .pure hd fun s => ?_
  rw [hx, hy, List.append_nil]
  exact .fieldValue name.text hz

theorem record_ensures (hi : inner.Sound (.element .expression) Expr.bare)
    (hc : TokenStream c.remaining) (hends : listEnds .rbrace c = false) :
    Ensures (do
      let (fields, _) ← commas .rbrace (fieldValue inner)
      let _ ← expectClosing .expression .lbrace .rbrace
      return Suffix.record fields) file c fun xs x =>
        Derives .anywhere .suffix (TokenKind.lbrace.lexeme :: xs) x.bare := by
  have hitem := fieldValue_sound hi
  refine (Ensures.commas hc fun c hc => hitem file c hc).bind fun xs ⟨fields, t⟩ d hd h => ?_
  refine (Ensures.expectClosing hd rfl).bind fun ys _ d hd hy => .pure hd ?_
  obtain ⟨parts, rfl, rfl, hparts, hne⟩ := h
  have h := Derives.record (u := .anywhere) (parts.map fun p => (p.1, p.2.bare)) t
    (by simpa using hne hends) (List.forall_mem_map.2 hparts)
  rw [hy, List.append_nil]
  simpa [Suffix.bare, Function.comp_def] using h

theorem suffix_ensures (hi : inner.Sound (.element .expression) Expr.bare)
    (hc : TokenStream c.remaining) (hs : startsSuffix c = true) :
    (suffix inner).Ensures file c fun xs x => Derives .anywhere .suffix xs x.bare := by
  unfold suffix
  simp only [startsSuffix, Bool.or_eq_true] at hs
  by_cases hk : c.current.kind = .dot
  · refine .step hc (by simp [hk]) fun hd => ?_
    rw [if_pos hk, hc.lexeme_of_isAt hk rfl]
    refine (Ensures.expect_word hd (by decide)).bind fun xs t d hd hx => .pure hd ?_
    rw [hx.1]
    exact .access t.text
  · obtain ⟨hk', hends⟩ :=
      listEnds_advance_of_startsRecord (hs.resolve_left (by simpa [Cursor.isAt] using hk))
    refine .step hc (by simp [hk']) fun hd => ?_
    rw [if_neg hk, hc.lexeme_of_isAt hk' rfl]
    exact record_ensures hi hd hends

theorem withSuffixes_ensures (hi : inner.Sound (.element .expression) Expr.bare)
    {operand : Parser (Expr Span)} {P : List Lexeme → Expr Span → Prop}
    (ho : operand.Ensures file c P) :
    (withSuffixes inner operand).Ensures file c fun xs e =>
      ∃ ys a, ∃ parts : List (List Lexeme × (Expr Unit → Expr Unit)),
        P ys a ∧ xs = ys ++ parts.flatMap (·.1) ∧
          e.bare = parts.foldl (fun e p => p.2 e) a.bare ∧
          ∀ p ∈ parts, Derives .anywhere .suffix p.1 p.2 := by
  unfold withSuffixes
  refine .start (ho.bind fun xs e d hd he => ?_)
  refine (Ensures.many hd fun c hc hs => (suffix_ensures hi hc hs).closing).bind
    fun ys suffixes d hd hy => .pure hd ?_
  obtain ⟨parts, rfl, rfl, hparts, -⟩ := hy
  refine ⟨xs, e, parts.map fun p => (p.1, p.2.1.bare), he, ?_, ?_, List.forall_mem_map.2 hparts⟩
  · simp [List.flatMap_map]
  · rw [bare_foldl_suffix, List.foldl_map, List.foldl_map, List.foldl_map]

theorem clause_sound (hi : inner.Sound (.element .expression) Expr.bare)
    (hp : pat.Sound (.element .pattern) Pattern.bare) :
    (clause inner pat).Sound .clause Clause.bare := by
  intro file c hc
  unfold clause
  refine .located ((hp file c hc).bind fun xs p d hd hx => ?_)
  refine (Ensures.expect_symbol hd rfl).bind fun ys _ d hd hy => ?_
  refine (hi file d hd).bind fun zs body d hd hz => .pure hd fun s => ?_
  rw [hy, List.append_nil]
  exact .clause hx hz

theorem caseOf_ensures (hi : inner.Sound (.element .expression) Expr.bare)
    (hp : pat.Sound (.element .pattern) Pattern.bare) (hc : TokenStream c.remaining)
    (hk : c.current.kind = .kwMatch) :
    (caseOf inner pat).Ensures file c fun xs e => Derives .anywhere .primary xs e.bare := by
  have hitem := clause_sound hi hp
  unfold caseOf
  refine .located ((Ensures.advance_symbol hc hk rfl).bind fun xs _ d hd hx => ?_)
  refine (hi file d hd).bind fun ys scrutinee d hd hy => ?_
  refine (Ensures.expect_symbol hd rfl).bind fun zs _ d hd hz => ?_
  refine (Ensures.commas hd fun c hc => hitem file c hc).bind fun ws ⟨clauses, t⟩ d hd hw => ?_
  refine (Ensures.expectClosing hd rfl).bind fun vs _ d hd hv => .pure hd fun s => ?_
  obtain ⟨parts, rfl, rfl, hparts, -⟩ := hw
  have h := Derives.caseOf (u := .anywhere) (parts.map fun p => (p.1, p.2.bare)) t hy
    (List.forall_mem_map.2 hparts)
  rw [hx, hz, hv, Expr.bare, Expr.map, Clause.mapAll_eq_map]
  simpa [Function.comp_def, Clause.bare, Expr.bare] using h

theorem lambda_ensures (hi : inner.Sound (.element .expression) Expr.bare)
    (hc : TokenStream c.remaining) (hk : c.current.kind = .pipe) :
    (lambda inner).Ensures file c fun xs e => Derives .anywhere .primary xs e.bare := by
  unfold lambda
  refine .located ((Ensures.advance_symbol hc hk rfl).bind fun xs _ d hd hx => ?_)
  refine (Ensures.expect_word hd (by decide)).bind fun ys param d hd ⟨hy, _⟩ => ?_
  refine (Ensures.expect_symbol hd rfl).bind fun zs _ d hd hz => ?_
  refine (hi file d hd).bind fun ws body d hd hw => .pure hd fun s => ?_
  rw [hx, hy, hz, List.append_nil]
  exact .lambda rfl param.text hw

theorem statement_sound (hi : inner.Sound (.element .expression) Expr.bare)
    (hp : pat.Sound (.element .pattern) Pattern.bare) :
    (statement inner pat).Sound .statement Statement.bare := by
  intro file c hc
  unfold statement
  refine .located (.test (fun hk => ?_) (fun _ => ?_))
  · refine (Ensures.advance_symbol hc (Cursor.kind_of_isAt hk) rfl).bind fun xs _ d hd hx => ?_
    refine (hp file d hd).bind fun ys p d hd hy => ?_
    refine (Ensures.expect_symbol hd rfl).bind fun zs _ d hd hz => ?_
    refine (hi file d hd).bind fun ws value d hd hw => .pure hd fun s => ?_
    rw [hx, hz, List.append_nil]
    exact .bind hy hw
  · refine (hi file c hc).bind fun xs e d hd hx => .pure hd fun s => ?_
    rw [List.append_nil]
    exact .expr hx

theorem statements_ensures (hi : inner.Sound (.element .expression) Expr.bare)
    (hp : pat.Sound (.element .pattern) Pattern.bare) (hc : TokenStream c.remaining) :
    (statements inner pat).Ensures file c fun xs ss =>
      ∃ (parts : List (List Lexeme × Statement Span)) (trailing : Bool),
        xs = listed TokenKind.semicolon.lexeme trailing (parts.map (·.1)) ∧
          ss = parts.map (·.2) ∧ parts ≠ [] ∧
          ∀ p ∈ parts, Derives .anywhere .statement p.1 p.2.bare := by
  have hitem := statement_sound hi hp
  suffices hall : ∀ n c, TokenStream c.remaining →
      (statementsUpTo inner pat n).Ensures file c fun xs ss =>
        ∃ (parts : List (List Lexeme × Statement Span)) (trailing : Bool),
          xs = listed TokenKind.semicolon.lexeme trailing (parts.map (·.1)) ∧
            ss = parts.map (·.2) ∧ (0 < n → parts ≠ []) ∧
            ∀ p ∈ parts, Derives .anywhere .statement p.1 p.2.bare from
    (hall c.remaining.length c hc).mono fun xs ss ⟨parts, trailing, hxs, hss, hne, hparts⟩ =>
      ⟨parts, trailing, hxs, hss, hne (by simp [Cursor.remaining]), hparts⟩
  intro n
  induction n with
  | zero => exact fun c hc => .pure hc ⟨[], false, rfl, rfl, by simp, by simp⟩
  | succ n ih =>
    intro c hc
    unfold statementsUpTo
    refine (hitem file c hc).bind fun xs s d hd hs => .test (fun hk => ?_) (fun _ => .pure hd ?_)
    · refine (Ensures.advance_symbol hd (Cursor.kind_of_isAt hk) rfl).bind fun ys _ d hd hy => ?_
      rw [hy]
      refine .test (fun _ => .pure hd ?_) (fun _ => ?_)
      · exact ⟨[(xs, s)], true, by simp [listed], rfl, by simp, by simpa using hs⟩
      · refine (ih d hd).bind fun zs ss d hd hz => .pure hd ?_
        obtain ⟨parts, trailing, rfl, rfl, -, hparts⟩ := hz
        cases parts with
        | nil => exact ⟨[(xs, s)], true, by simp [listed], rfl, by simp, by simpa using hs⟩
        | cons p ps =>
          refine ⟨(xs, s) :: p :: ps, trailing, by simp [listed], rfl, by simp, ?_⟩
          exact List.forall_mem_cons.2 ⟨hs, hparts⟩
    · exact ⟨[(xs, s)], false, by simp [listed], rfl, by simp, by simpa using hs⟩

theorem block_sound (hi : inner.Sound (.element .expression) Expr.bare)
    (hp : pat.Sound (.element .pattern) Pattern.bare) :
    (block inner pat).Sound .block Expr.bare := by
  intro file c hc
  unfold block
  refine .located ((Ensures.expect_symbol hc rfl).bind fun xs _ d hd hx => ?_)
  rw [hx]
  refine .test (fun _ => .reject) (fun _ => .test (fun hk => ?_) (fun _ => ?_))
  · refine (Ensures.advance_symbol hd (Cursor.kind_of_isAt hk) rfl).bind fun ys _ d hd hy => ?_
    refine .pure hd fun s => ?_
    rw [hy]
    exact .emptyBlock
  · refine (statements_ensures hi hp hd).bind fun ys ss d hd hy => ?_
    refine (Ensures.expectClosing hd rfl).bind fun zs _ d hd hz => .pure hd fun s => ?_
    obtain ⟨parts, trailing, rfl, rfl, hne, hparts⟩ := hy
    have h := Derives.block (u := .anywhere) (parts.map fun p => (p.1, p.2.bare)) trailing
      (by simpa using hne) (List.forall_mem_map.2 hparts)
    rw [hz, Expr.bare, Expr.map, Statement.mapAll_eq_map]
    simpa [Function.comp_def, Statement.bare] using h

theorem ifLet_ensures (hi : inner.Sound (.element .expression) Expr.bare)
    (hp : pat.Sound (.element .pattern) Pattern.bare) (hc : TokenStream c.remaining)
    (hk : c.current.kind = .kwIf) :
    (ifLet inner pat).Ensures file c fun xs e => Derives .anywhere .primary xs e.bare := by
  have hblock := block_sound hi hp
  unfold ifLet
  refine .located ((Ensures.advance_symbol hc hk rfl).bind fun xs _ d hd hx => ?_)
  refine (Ensures.expect_symbol hd rfl).bind fun xs' _ d hd hx' => ?_
  refine (hp file d hd).bind fun ps p d hd hps => ?_
  refine (Ensures.expect_symbol hd rfl).bind fun ys _ d hd hy => ?_
  refine (hi file d hd).bind fun es scrutinee d hd hes => ?_
  refine (hblock file d hd).bind fun ts thenBlock d hd hts => ?_
  refine (Ensures.expect_symbol hd rfl).bind fun zs _ d hd hz => ?_
  refine (hblock file d hd).bind fun ls elseBlock d hd hls => .pure hd fun s => ?_
  rw [hx, hx', hy, hz]
  simpa [Expr.bare, Expr.map, Pattern.bare] using Derives.ifLet hps hes hts hls

theorem primary_sound (hi : inner.Sound (.element .expression) Expr.bare)
    (hp : pat.Sound (.element .pattern) Pattern.bare) :
    (primary inner pat).Sound .primary Expr.bare := by
  intro file c hc
  unfold primary
  refine .current ?_
  split
  · rename_i hk
    exact lambda_ensures hi hc hk
  · rename_i hk
    exact ifLet_ensures hi hp hc hk
  · rename_i hk
    exact caseOf_ensures hi hp hc hk
  · exact (block_sound hi hp file c hc).mono fun _ _ h => .blockPrimary h
  · refine .test (fun _ => ?_) (fun _ => .unexpected)
    exact (atom_sound Family.expression_agrees hi file c hc).mono fun _ _ h => .atomPrimary h

theorem argument_sound (hi : inner.Sound (.element .expression) Expr.bare) :
    (withSuffixes inner (atom .expression inner)).Sound .argument Expr.bare := by
  intro file c hc
  refine (withSuffixes_ensures hi (atom_sound Family.expression_agrees hi file c hc)).mono ?_
  rintro xs e ⟨ys, a, parts, ha, rfl, he, hparts⟩
  rw [he]
  exact .argument parts ha hparts

theorem operand_sound (hi : inner.Sound (.element .expression) Expr.bare)
    (hp : pat.Sound (.element .pattern) Pattern.bare) :
    (withSuffixes inner (primary inner pat)).Sound .operand Expr.bare := by
  intro file c hc
  refine (withSuffixes_ensures hi (primary_sound hi hp file c hc)).mono ?_
  rintro xs e ⟨ys, a, parts, ha, rfl, he, hparts⟩
  rw [he]
  exact .operand parts ha hparts

theorem application_sound (hi : inner.Sound (.element .expression) Expr.bare)
    (hp : pat.Sound (.element .pattern) Pattern.bare) :
    (application inner pat).Sound .application Expr.bare := by
  have hitem := argument_sound hi
  intro file c hc
  unfold application
  refine .start ((operand_sound hi hp file c hc).bind fun xs callee d hd hx => ?_)
  refine (Ensures.many hd fun c hc _ => (hitem file c hc).closing).bind
    fun ys arguments d hd hy => .pure hd ?_
  obtain ⟨parts, rfl, rfl, hparts, -⟩ := hy
  have h := Derives.application (parts.map fun p => (p.1, p.2.1.bare)) hx
    (List.forall_mem_map.2 hparts)
  rw [List.append_nil]
  rw [bare_foldl_argument]
  simpa [List.flatMap_map, List.foldl_map] using h

theorem operation_ensures {operand : Parser (Expr Span)}
    {P : List Lexeme → Expr Span → Prop} {binds : TokenKind → Bool} {tight : Bool}
    (hbinds : ∀ k, binds k = true → ∃ o : Operator, k = o.kind ∧ o.isAdditive = tight)
    (ho : ∀ c, TokenStream c.remaining → operand.Ensures file c P)
    (hc : TokenStream c.remaining) (hk : binds c.current.kind = true) :
    (operation operand).Ensures file c fun xs o => ∃ ys, xs = o.operator.lexeme :: ys ∧
      o.operator.isAdditive = tight ∧ P ys o.operand := by
  obtain ⟨o, hko, htier⟩ := hbinds _ hk
  have hne : c.current.kind ≠ .eof := by
    rw [hko]
    cases o <;> decide
  have hlex : c.current.lexeme = o.lexeme := by
    rw [hc.lexeme_of_isAt hko (by cases o <;> rfl)]
    cases o <;> rfl
  intro x c' hrun
  obtain ⟨hsym, -, -, hrun, -⟩ := operation_eq_done hrun
  have hxo : x.operator = o := by
    have htext : c.current.text = o.symbol := congrArg Prod.snd hlex
    rw [htext, Operator.ofSymbol?_symbol] at hsym
    exact (Option.some.inj hsym).symm
  obtain ⟨hd, hx⟩ := hc.advance hne
  obtain ⟨hc', ys, hys, hp⟩ := ho _ hd _ _ hrun
  refine ⟨hc', o.lexeme :: ys, by rw [hx, hys, hlex]; rfl, ys, by rw [hxo], by rw [hxo, htier], hp⟩

theorem tier_ensures {operand : Parser (Expr Span)} {P : List Lexeme → Expr Span → Prop}
    {binds : TokenKind → Bool} {tight : Bool}
    (hbinds : ∀ k, binds k = true → ∃ o : Operator, k = o.kind ∧ o.isAdditive = tight)
    (ho : ∀ c, TokenStream c.remaining → operand.Ensures file c P)
    (hc : TokenStream c.remaining) :
    (tier binds operand).Ensures file c fun xs e =>
      ∃ ys a, ∃ parts : List (Operator × List Lexeme × Expr Span),
        P ys a ∧ xs = ys ++ (parts.map fun p => (p.1, p.2.1, p.2.2.bare)).flatMap Grammar.operation ∧
          e.bare = (parts.map fun p => (p.1, p.2.1, p.2.2.bare)).foldl infixed a.bare ∧
          ∀ p ∈ parts, p.1.isAdditive = tight ∧ P p.2.1 p.2.2 := by
  unfold tier
  refine .start ((ho c hc).bind fun xs e d hd he => ?_)
  refine (Ensures.many hd fun c hc h => operation_ensures hbinds ho hc h).bind
    fun ys operations d hd hy => .pure hd ?_
  obtain ⟨parts, rfl, rfl, hparts, -⟩ := hy
  refine ⟨xs, e, parts.map fun p => (p.2.operator, p.1.tail, p.2.operand), he, ?_, ?_, ?_⟩
  · rw [List.append_nil, List.map_map, List.flatMap_map]
    refine congrArg (xs ++ ·) (List.flatMap_congr fun p hp => ?_)
    obtain ⟨ys, hys, -⟩ := hparts p hp
    rw [hys]
    simp [Grammar.operation, hys]
  · rw [bare_foldl_operation, List.foldl_map, List.foldl_map, List.foldl_map, List.foldl_map]
    rfl
  · refine List.forall_mem_map.2 fun p hp => ?_
    obtain ⟨ys, hys, hadd, hP⟩ := hparts p hp
    rw [hys]
    exact ⟨hadd, hP⟩

theorem operator_of_isMultiplicative (k : TokenKind) (hk : k.isMultiplicative = true) :
    ∃ o : Operator, k = o.kind ∧ o.isAdditive = false := by
  cases k <;> first | exact ⟨.mul, rfl, rfl⟩ | exact ⟨.div, rfl, rfl⟩ | cases hk

theorem operator_of_isAdditive (k : TokenKind) (hk : k.isAdditive = true) :
    ∃ o : Operator, k = o.kind ∧ o.isAdditive = true := by
  cases k <;> first | exact ⟨.add, rfl, rfl⟩ | exact ⟨.sub, rfl, rfl⟩ | cases hk

theorem multiplicative_sound {operand : Parser (Expr Span)}
    (ho : operand.Sound .application Expr.bare) :
    (tier TokenKind.isMultiplicative operand).Sound .multiplicative Expr.bare := by
  intro file c hc
  refine (tier_ensures operator_of_isMultiplicative (ho file) hc).mono ?_
  rintro xs e ⟨ys, a, parts, ha, rfl, he, hparts⟩
  rw [he]
  exact .multiplicative _ ha (List.forall_mem_map.2 fun p hp => (hparts p hp).1)
    (List.forall_mem_map.2 fun p hp => (hparts p hp).2)

theorem additive_sound {operand : Parser (Expr Span)}
    (ho : operand.Sound .multiplicative Expr.bare) :
    (tier TokenKind.isAdditive operand).Sound .additive Expr.bare := by
  intro file c hc
  refine (tier_ensures operator_of_isAdditive (ho file) hc).mono ?_
  rintro xs e ⟨ys, a, parts, ha, rfl, he, hparts⟩
  rw [he]
  exact .additive _ ha (List.forall_mem_map.2 fun p hp => (hparts p hp).1)
    (List.forall_mem_map.2 fun p hp => (hparts p hp).2)

theorem expressionWithin_sound {ty : Parser (Ty Span)}
    (hi : inner.Sound (.element .expression) Expr.bare)
    (hp : pat.Sound (.element .pattern) Pattern.bare) (ht : ty.Sound (.element .type) Ty.bare)
    (hshort : ∀ file c, c.Ended → (application inner pat).Shortens file c) :
    (expressionWithin inner pat ty).Sound (.element .expression) Expr.bare := by
  have hadditive := additive_sound (multiplicative_sound (application_sound hi hp))
  intro file c hc
  unfold expressionWithin
  have hclimb : (climb (application inner pat) tiers 0).Ensures file c fun xs e =>
      Derives .anywhere .additive xs e.bare := by
    intro e c' hrun
    rw [climb_eq_tiers (hshort file) hc.ended] at hrun
    exact hadditive file c hc e c' hrun
  refine .start (hclimb.bind fun xs e d hd he => .test (fun hk => ?_) (fun _ => .pure hd ?_))
  · refine (Ensures.advance_symbol hd (Cursor.kind_of_isAt hk) rfl).bind fun ys _ d hd hy => ?_
    refine (ht file d hd).bind fun zs t d hd hz => .spanFrom (.pure hd ?_)
    rw [hy, List.append_nil]
    exact .ascribe he hz
  · rw [List.append_nil]
    exact .plain he

end

theorem application_shortens (d : Nat) (hc : c.Ended) :
    (application (expression d) (pattern (d + 1))).Shortens file c := by
  have hself : Follows (.shift 0) False (application (expression d) (pattern (d + 1)))
      (application (expression d) (pattern (d + 1))) (Expr.map (Placing.shift 0).span) :=
    application_follows (expression_follows d d fun h => absurd h (Nat.lt_irrefl _))
      (pattern_follows (d + 1) (d + 1) fun h => absurd h (Nat.lt_irrefl _))
  exact hself.shortens hc

theorem expression_sound (depth : Nat) :
    (expression depth).Sound (.element .expression) Expr.bare := by
  induction depth with
  | zero => exact fun _ _ _ => .reject
  | succ depth ih =>
    exact expressionWithin_sound ih (pattern_sound (depth + 1)) (type_sound (depth + 1))
      fun _ _ hc => application_shortens depth hc

/-! Declarations. -/

section

variable {body : Parser (Expr Span)} {pat : Parser (Pattern Span)} {ty atomic : Parser (Ty Span)}

theorem param_ensures (hp : pat.Sound (.element .pattern) Pattern.bare)
    (ht : ty.Sound (.element .type) Ty.bare) (hc : TokenStream c.remaining)
    (hk : c.current.kind = .lparen) :
    (param pat ty).Ensures file c fun xs p => Derives .anywhere .param xs p.bare := by
  unfold param
  refine .located ((Ensures.advance_symbol hc hk rfl).bind fun xs _ d hd hx => ?_)
  refine (hp file d hd).bind fun ps p d hd hps => ?_
  refine (Ensures.expect_symbol hd rfl).bind fun ys _ d hd hy => ?_
  refine (ht file d hd).bind fun ts t d hd hts => ?_
  refine (Ensures.expectClosing hd rfl).bind fun zs _ d hd hz => .pure hd fun s => ?_
  rw [hx, hy, hz]
  simpa [Param.bare, Param.map, Pattern.bare, Ty.bare] using Derives.param hps hts

theorem returnType_ensures (ht : ty.Sound (.element .type) Ty.bare)
    (hc : TokenStream c.remaining) :
    (returnType ty).Ensures file c fun xs r => ∃ part : Option (List Lexeme × Ty Span),
      xs = part.elim [] (TokenKind.colon.lexeme :: ·.1) ∧ r = part.map (·.2) ∧
        ∀ p ∈ part, Derives .anywhere (.element .type) p.1 p.2.bare := by
  unfold returnType
  refine .test (fun hk => ?_) (fun _ => .pure hc ⟨none, rfl, rfl, by simp⟩)
  refine (Ensures.advance_symbol hc (Cursor.kind_of_isAt hk) rfl).bind fun xs _ d hd hx => ?_
  refine (ht file d hd).bind fun ts t d hd hts => .pure hd ⟨some (ts, t), ?_, rfl, by simpa using hts⟩
  rw [hx, List.append_nil]
  rfl

theorem fnDecl_ensures (hb : body.Sound .block Expr.bare)
    (hp : pat.Sound (.element .pattern) Pattern.bare) (ht : ty.Sound (.element .type) Ty.bare)
    (hc : TokenStream c.remaining) (hk : c.current.kind = .kwFn) :
    (fnDecl body pat ty).Ensures file c fun xs d => Derives .anywhere .decl xs d.bare := by
  unfold fnDecl
  refine .located ((Ensures.advance_symbol hc hk rfl).bind fun xs _ d hd hx => ?_)
  refine (Ensures.expect_word hd (by decide)).bind fun ns name d hd ⟨hn, _⟩ => ?_
  refine (Ensures.many hd fun c hc hs => param_ensures hp ht hc (Cursor.kind_of_isAt hs)).bind
    fun ps params d hd hps => ?_
  refine (returnType_ensures ht hd).bind fun rs result d hd hrs => ?_
  refine (hb file d hd).bind fun bs b d hd hbs => .pure hd fun s => ?_
  obtain ⟨parts, rfl, rfl, hparts, -⟩ := hps
  obtain ⟨part, rfl, rfl, hpart⟩ := hrs
  have h := Derives.fn (u := .anywhere) name.text (parts.map fun p => (p.1, p.2.bare))
    (part.map fun r => (r.1, r.2.bare)) (List.forall_mem_map.2 hparts)
    (fun r hr => ?_) hbs
  · rw [hx, hn]
    cases part <;>
      simpa [Decl.bare, Decl.map, List.flatMap_map, Function.comp_def, Param.bare, Ty.bare,
        Expr.bare] using h
  · obtain ⟨part', hpart', rfl⟩ := Option.map_eq_some_iff.1 (Option.mem_def.1 hr)
    exact hpart part' hpart'

theorem variant_sound (ha : atomic.Sound (.atom .type) Ty.bare) :
    (variant atomic).Sound .variant Variant.bare := by
  intro file c hc
  unfold variant
  refine .located ((Ensures.expect_word hc (by decide)).bind fun ns name d hd ⟨hn, _⟩ => ?_)
  refine (Ensures.many hd fun c hc _ => ha file c hc).bind fun xs args d hd hx => .pure hd fun s => ?_
  obtain ⟨parts, rfl, rfl, hparts, -⟩ := hx
  have h := Derives.variant (u := .anywhere) name.text (parts.map fun p => (p.1, p.2.bare))
    (List.forall_mem_map.2 hparts)
  rw [hn]
  simpa [Variant.bare, Variant.map, List.flatMap_map, Function.comp_def, Ty.bare] using h

theorem sum_ensures (ha : atomic.Sound (.atom .type) Ty.bare) (hc : TokenStream c.remaining)
    (hk : c.isAt .pipe = true) :
    (sum atomic).Ensures file c fun xs b => Derives .anywhere .typeBody xs b.bare := by
  have hvariant := variant_sound ha
  unfold sum
  have hitem : ∀ c : Cursor, TokenStream c.remaining → c.isAt .pipe = true →
      Ensures (do let _ ← advance; variant atomic) file c fun xs v =>
        ∃ ys, xs = TokenKind.pipe.lexeme :: ys ∧ Derives .anywhere .variant ys v.bare := by
    intro c hc hk
    refine (Ensures.advance_symbol hc (Cursor.kind_of_isAt hk) rfl).bind fun xs _ d hd hx => ?_
    refine (hvariant file d hd).mono fun ys v hv => ⟨ys, by rw [hx]; rfl, hv⟩
  refine (Ensures.many hc hitem).bind fun xs variants d hd hx => .pure hd ?_
  obtain ⟨parts, rfl, rfl, hparts, hne⟩ := hx
  have h := Derives.sum (u := .anywhere) (parts.map fun p => (p.1.tail, p.2.bare))
    (by simpa using hne hk) (List.forall_mem_map.2 fun p hp => ?_)
  · have hflat : (parts.map fun p => (p.1.tail, p.2.bare)).flatMap (TokenKind.pipe.lexeme :: ·.1) =
        parts.flatMap (·.1) := by
      rw [List.flatMap_map]
      refine List.flatMap_congr fun p hp => ?_
      obtain ⟨ys, hys, -⟩ := hparts p hp
      rw [hys]
      rfl
    rw [hflat] at h
    simpa [TypeBody.bare, TypeBody.map, Function.comp_def, Variant.bare] using h
  · obtain ⟨ys, hys, hv⟩ := hparts p hp
    rw [hys]
    exact hv

theorem field_sound (ht : ty.Sound (.element .type) Ty.bare) :
    (field ty).Sound .field Field.bare := by
  intro file c hc
  unfold field
  refine .located ((Ensures.expect_word hc (by decide)).bind fun ns name d hd ⟨hn, _⟩ => ?_)
  refine (Ensures.expect_symbol hd rfl).bind fun ys _ d hd hy => ?_
  refine (ht file d hd).bind fun ts t d hd hts => .pure hd fun s => ?_
  rw [hn, hy, List.append_nil]
  exact .field name.text hts

theorem product_ensures (ht : ty.Sound (.element .type) Ty.bare) (hc : TokenStream c.remaining)
    (hk : c.current.kind = .lbrace) :
    (product ty).Ensures file c fun xs b => Derives .anywhere .typeBody xs b.bare := by
  have hitem := field_sound ht
  unfold product
  refine (Ensures.advance_symbol hc hk rfl).bind fun xs _ d hd hx => ?_
  refine (Ensures.commas hd fun c hc => hitem file c hc).bind fun ys ⟨fields, t⟩ d hd hy => ?_
  refine (Ensures.expectClosing hd rfl).bind fun zs _ d hd hz => .pure hd ?_
  obtain ⟨parts, rfl, rfl, hparts, -⟩ := hy
  have h := Derives.product (u := .anywhere) (parts.map fun p => (p.1, p.2.bare)) t
    (List.forall_mem_map.2 hparts)
  rw [hx, hz]
  simpa [TypeBody.bare, TypeBody.map, Function.comp_def, Field.bare] using h

theorem typeBody_ensures (ht : ty.Sound (.element .type) Ty.bare)
    (ha : atomic.Sound (.atom .type) Ty.bare) (name : String) (hc : TokenStream c.remaining) :
    (typeBody ty atomic name).Ensures file c fun xs b => Derives .anywhere .typeBody xs b.bare := by
  unfold typeBody
  refine .test (fun hk => sum_ensures ha hc hk) (fun _ => .test (fun hk => ?_) (fun _ => .reject))
  exact product_ensures ht hc (Cursor.kind_of_isAt hk)

theorem typeDecl_ensures (ht : ty.Sound (.element .type) Ty.bare)
    (ha : atomic.Sound (.atom .type) Ty.bare) (hc : TokenStream c.remaining)
    (hk : c.current.kind = .kwType) :
    (typeDecl ty atomic).Ensures file c fun xs d => Derives .anywhere .decl xs d.bare := by
  unfold typeDecl
  refine .located ((Ensures.advance_symbol hc hk rfl).bind fun xs _ d hd hx => ?_)
  refine (Ensures.expect_word hd (by decide)).bind fun ns name d hd ⟨hn, _⟩ => ?_
  refine (names_ensures hd).bind fun ps params d hd hp => ?_
  refine (Ensures.expect_symbol hd rfl).bind fun ys _ d hd hy => ?_
  refine (typeBody_ensures ht ha name.text hd).bind fun bs b d hd hb => .pure hd fun s => ?_
  rw [hx, hn, hp, hy]
  simpa [Decl.bare, Decl.map, TypeBody.bare] using
    Derives.type name.text (params.map (·.text)) hb

theorem declarationWithin_sound (hb : body.Sound .block Expr.bare)
    (hp : pat.Sound (.element .pattern) Pattern.bare) (ht : ty.Sound (.element .type) Ty.bare)
    (ha : atomic.Sound (.atom .type) Ty.bare) :
    (declarationWithin body pat ty atomic).Sound .decl Decl.bare := by
  intro file c hc
  unfold declarationWithin
  refine .current ?_
  split
  · rename_i hk
    exact fnDecl_ensures hb hp ht hc hk
  · rename_i hk
    exact typeDecl_ensures ht ha hc hk
  · exact .unexpected

end

theorem declaration_sound (depth : Nat) : (declaration depth).Sound .decl Decl.bare :=
  declarationWithin_sound (block_sound (expression_sound depth) (pattern_sound depth))
    (pattern_sound depth) (type_sound depth) (atom_sound Family.type_agrees (type_sound depth))

theorem program_sound (depth : Nat) : (program depth).Sound .program Program.bare := by
  have hdecl := declaration_sound depth
  intro file c hc
  unfold program
  refine (Ensures.many hc fun c hc _ => hdecl file c hc).bind fun xs decls d hd hx => ?_
  refine .current ?_
  intro p c' hrun
  cases hrun
  obtain ⟨parts, rfl, rfl, hparts, -⟩ := hx
  refine ⟨hd, [], rfl, ?_⟩
  have h := Derives.program (u := .anywhere) (parts.map fun p => (p.1, p.2.bare))
    (List.forall_mem_map.2 hparts)
  simpa [Program.bare, Program.map, List.flatMap_map, Function.comp_def, Decl.bare] using h

end Parser
end TinyFront
