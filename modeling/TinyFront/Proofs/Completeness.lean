import TinyFront.Proofs.Accepts
import TinyFront.Proofs.Openings
import TinyFront.Proofs.Soundness

/-!
Completeness: the parser accepts every phrase of the grammar in which a lambda stands only as a
whole expression, and answers with the tree that the phrase stands for, wherever what follows the
phrase does not go on with it. It has room enough when it may nest as deep as the phrase is long.
-/
namespace TinyFront

open Grammar

namespace Grammar

/-- The kinds that go on with a phrase of the sort when they stand behind it. -/
def Sym.goesOn : Sym → TokenKind → Bool
  | element .pattern => Kin.pattern.startsAtom
  | typeApplication | variant => Kin.type.startsAtom
  | element .type | field => fun k => k == .arrow || Kin.type.startsAtom k
  | typeBody | decl => fun k => k == .pipe || Kin.type.startsAtom k
  | program => (· != .eof)
  | operand | argument => (· == .dot)
  | application => fun k => k == .dot || Kin.expression.startsAtom k
  | multiplicative => fun k =>
    k.isMultiplicative || k == .dot || Kin.expression.startsAtom k
  | additive => fun k =>
    k.isAdditive || k.isMultiplicative || k == .dot || Kin.expression.startsAtom k
  | element .expression | fieldValue | clause | statement => fun k =>
    k == .colon || k == .arrow || k.isAdditive || k.isMultiplicative || k == .dot ||
      Kin.expression.startsAtom k
  | _ => fun _ => false

/-- A brace with a field behind it. -/
def opensRecord : List Lexeme → Bool
  | (k, _) :: (n, _) :: (e, _) :: _ => k == .lbrace && n == .identifier && e == .assign
  | _ => false

/-- What may stand behind a phrase of the sort without going on with it. Whatever goes on with a
field access goes on with a record too. -/
structure Ends (s : Sym) (R : List Lexeme) : Prop where
  head : ∃ x ys, R = x :: ys ∧ s.goesOn x.1 = false
  record : s.goesOn .dot = true → opensRecord R = false

namespace Ends

variable {s s' : Sym} {R : List Lexeme}

theorem ne_nil (h : Ends s R) : R ≠ [] := by
  obtain ⟨⟨x, ys, rfl, -⟩, -⟩ := h
  simp

theorem mono (h : Ends s R) (hs : ∀ k, s'.goesOn k = true → s.goesOn k = true) : Ends s' R := by
  obtain ⟨⟨x, ys, rfl, hx⟩, hr⟩ := h
  refine ⟨⟨x, ys, rfl, ?_⟩, fun hd => hr (hs _ hd)⟩
  cases hk : s'.goesOn x.1 with
  | false => rfl
  | true => rw [hs _ hk] at hx; cases hx

theorem cons {x : Lexeme} {ys : List Lexeme} (hx : s.goesOn x.1 = false) (hb : x.1 ≠ .lbrace) :
    Ends s (x :: ys) := by
  refine ⟨⟨x, ys, rfl, hx⟩, fun _ => ?_⟩
  obtain ⟨k, t⟩ := x
  unfold opensRecord
  split
  · rename_i h
    cases h
    simp [show k ≠ .lbrace from hb]
  · rfl

theorem brace {x : Lexeme} {ys : List Lexeme} (hs : s.goesOn .lbrace = false)
    (hy : x.1 = .identifier → NoAssign ys) : Ends s (TokenKind.lbrace.lexeme :: x :: ys) := by
  refine ⟨⟨_, _, rfl, hs⟩, fun _ => ?_⟩
  obtain ⟨n, t⟩ := x
  unfold opensRecord
  split
  · rename_i h
    simp only [List.cons.injEq, Prod.mk.injEq] at h
    obtain ⟨-, ⟨rfl, -⟩, rfl⟩ := h
    by_cases hn : n = .identifier
    · have he := hy hn
      simp only [NoAssign, List.head?_cons, Option.mem_def, Option.some.injEq, forall_eq'] at he
      simp [he]
    · simp [hn]
  · rfl

end Ends

/-- Inside the brace of a block or of a list of clauses stands a phrase that opens as phrases do. -/
theorem Opens.ends_brace {s : Sym} {f : TokenKind → Bool} {xs R : List Lexeme} (h : Opens f xs)
    (hs : s.goesOn .lbrace = false) (hR : NoAssign R) :
    Ends s (TokenKind.lbrace.lexeme :: (xs ++ R)) := by
  obtain ⟨x, ys, h, -, hy⟩ := h.append hR
  rw [h]
  exact .brace hs fun _ => hy

end Grammar

namespace Parser

variable {file : String} {c : Cursor} {s : Sym} {R : List Lexeme}

theorem startsRecord_of_lexemes (c : Cursor) : startsRecord c = opensRecord c.lexemes := by
  obtain ⟨t, ts, e⟩ := c
  rcases ts with _ | ⟨u, _ | ⟨v, ts⟩⟩ <;>
    simp [startsRecord, opensRecord, Cursor.lexemes, Cursor.remaining, Cursor.isAt, Token.lexeme,
      Bool.and_assoc]

theorem startsSuffix_of_ends (hR : Ends s R) (hs : s.goesOn .dot = true) (h : c.lexemes = R) :
    startsSuffix c = false := by
  obtain ⟨⟨x, ys, rfl, hx⟩, hr⟩ := hR
  rw [startsSuffix, startsRecord_of_lexemes, h, hr hs, Cursor.isAt_of_lexemes h]
  have hne : x.1 ≠ .dot := by
    intro he
    rw [he, hs] at hx
    cases hx
  simp [hne]

/-- What a family needs to know of its kin: the same kinds start their atoms. -/
theorem startsAtom_eq {ε : Type} {f : Family ε} {k : Kin} {bare : ε → k.Node} (hf : f.Agrees k bare)
    (c : Cursor) : f.startsAtom c = k.startsAtom c.current.kind := by
  have hb : f.booleans = (k != .type) := by
    rw [Bool.eq_iff_iff, hf.booleans]
    simp
  unfold Family.startsAtom Kin.startsAtom
  cases c.current.kind <;> simp [hb]

variable {ε : Type} {f : Family ε} {k : Kin} {bare : ε → k.Node} {deep : Prop}

/-! Atoms. -/

theorem number_accepts {cat : Category} {t : Token} (hd : isDecimal t.text.toList = true)
    (hl : t.text.toList.length ≤ digitLimit) (hv : decimalValue t.text.toList ≤ maxNumber) :
    (number cat t).Accepts deep [] R (· = decimalValue t.text.toList) :=
  fun _ c hc hx => .inl ⟨_, c, number_eq_done.2 ⟨⟨hd, hl, hv⟩, rfl, rfl⟩, hc, hx, rfl⟩

theorem kind_text_of_lexeme {t : Token} {j : TokenKind} {n : String} (h : t.lexeme = (j, n)) :
    t.kind = j ∧ t.text = n := Prod.mk.inj h

theorem leaf_accepts_number {digits : String} (hd : isDecimal digits.toList = true)
    (hl : digits.toList.length ≤ digitLimit) (hv : decimalValue digits.toList ≤ maxNumber) :
    (leaf f).Accepts deep [(.integer, digits)] R (· = .number (decimalValue digits.toList)) := by
  unfold leaf
  refine .current fun t ht => ?_
  obtain ⟨hk, rfl⟩ := kind_text_of_lexeme ht
  simp only [hk]
  refine .advance (by simp) fun _ _ => .bind_last (number_accepts hd hl hv) fun n hn => .pure ?_
  rw [hn]

theorem leaf_accepts_wildcard :
    (leaf f).Accepts deep [TokenKind.underscore.lexeme] R (· = .wildcard) := by
  unfold leaf
  refine .current fun t ht => ?_
  obtain ⟨hk, -⟩ := kind_text_of_lexeme ht
  simp only [hk]
  exact .advance (by simp) fun _ _ => .pure rfl

theorem leaf_accepts_name {j : TokenKind} {n : String} (hj : j = .identifier ∨ j = .typeIdentifier) :
    (leaf f).Accepts deep [(j, n)] R (· = .name n) := by
  unfold leaf
  refine .current fun t ht => ?_
  obtain ⟨hk, rfl⟩ := kind_text_of_lexeme ht
  rcases hj with rfl | rfl
  · simp only [hk]
    exact .advance (by simp) fun _ _ => .pure rfl
  · simp only [hk]
    exact .advance (by simp) fun _ _ => .pure rfl

theorem leaf_accepts_boolean (hf : f.booleans = true) (b : Bool) :
    (leaf f).Accepts deep [(.boolean, if b then "true" else "false")] R (· = .boolean b) := by
  unfold leaf
  refine .current fun t ht => ?_
  obtain ⟨hk, ht⟩ := kind_text_of_lexeme ht
  simp only [hk, hf, if_true, ht]
  refine .advance (by simp) fun _ _ => .pure ?_
  cases b <;> simp

theorem atom_accepts_leaf {p : Parser ε} {x : Lexeme} {l : Leaf} {t : k.Node} (hx : x.1 ≠ .lparen)
    (hl : (leaf f).Accepts deep [x] R (· = l)) (ht : ∀ s, bare (f.ofLeaf l s) = t) :
    (atom f p).Accepts deep [x] R fun a => bare a = t := by
  unfold atom
  refine .current fun u hu => ?_
  have hne : u.kind ≠ .lparen := by rwa [← congrArg Prod.fst hu] at hx
  rw [if_neg hne]
  refine .bind_last hl fun l' hl' => .pure ?_
  rw [hl', ht]

theorem atom_accepts_list {p : Parser ε} {parts : List (List Lexeme × k.Node)} {trailing : Bool}
    (hparts : ∀ part ∈ parts, Accepts.Lists deep .rparen p bare part) :
    (atom f p).Accepts deep
      (TokenKind.lparen.lexeme :: (listed TokenKind.comma.lexeme trailing (parts.map (·.1)) ++
        [TokenKind.rparen.lexeme])) R
      fun a => ∃ es t s, es.map bare = parts.map (·.2) ∧ (parts ≠ [] → t = trailing) ∧
        a = collapse f es t s := by
  unfold atom
  refine .current fun u hu => ?_
  rw [if_pos (kind_text_of_lexeme hu).1]
  unfold parenthesised
  refine .located (.advance (by simp) fun _ _ => ?_)
  refine .bind (.commas rfl (by simp) hparts) fun x hx => ?_
  refine .expectClosing rfl (by simp) fun _ _ => .pure fun s => ?_
  exact ⟨x.1, x.2, s, hx.1, hx.2, rfl⟩

theorem length_le_listed_of_mem {α : Type} (separator : Lexeme) (trailing : Bool)
    {parts : List (List Lexeme × α)} {part : List Lexeme × α} (h : part ∈ parts) :
    part.1.length ≤ (listed separator trailing (parts.map (·.1))).length := by
  induction parts with
  | nil => cases h
  | cons p ps ih =>
    cases ps with
    | nil =>
      obtain rfl : part = p := by simpa using h
      simp [listed]
    | cons q qs =>
      simp only [List.map_cons, listed, List.length_append, List.length_cons] at ih ⊢
      rcases List.mem_cons.1 h with rfl | h
      · omega
      · have := ih h
        omega

theorem length_le_flatMap_of_mem {α : Type} (lexemes : α → List Lexeme) {parts : List α} {part : α}
    (h : part ∈ parts) : (lexemes part).length ≤ (parts.flatMap lexemes).length := by
  induction parts with
  | nil => cases h
  | cons p ps ih =>
    simp only [List.flatMap_cons, List.length_append]
    rcases List.mem_cons.1 h with rfl | h
    · omega
    · have := ih h
      omega

end Parser

namespace Grammar.Kin

/-- The nodes of the family with their places. -/
@[reducible] def Spanned : Kin → Type
  | expression => Expr Span
  | pattern => Pattern Span
  | type => Ty Span

def family : (k : Kin) → Family k.Spanned
  | expression => .expression
  | pattern => .pattern
  | type => .type

def element : (k : Kin) → Nat → Parser k.Spanned
  | expression => Parser.expression
  | pattern => Parser.pattern
  | type => Parser.type

def bare : (k : Kin) → k.Spanned → k.Node
  | expression => Expr.bare
  | pattern => Pattern.bare
  | type => Ty.bare

theorem agrees : (k : Kin) → k.family.Agrees k k.bare
  | expression => Family.expression_agrees
  | pattern => Family.pattern_agrees
  | type => Family.type_agrees

end Grammar.Kin

namespace Parser

/-- The parser accepts the phrase wherever nothing goes on with it. -/
def Completes {α : Type} (deep : Prop) (p : Parser α) (s : Sym) (bare : α → s.Node)
    (xs : List Lexeme) (t : s.Node) : Prop :=
  ∀ R, Ends s R → p.Accepts deep xs R fun a => bare a = t

end Parser

namespace Parser

/-- The parsers of the sort accept the phrase, with room for as much nesting as it has lexemes. -/
def Complete : (s : Sym) → (xs : List Lexeme) → s.Node → Prop
  | .element k, xs, t => ∀ d, Completes (d < xs.length) (k.element d) (.element k) k.bare xs t
  | .atom k, xs, t =>
    ∀ d, Completes (d + 1 < xs.length) (atom k.family (k.element d)) (.atom k) k.bare xs t
  | .typeApplication, xs, t =>
    ∀ d, Completes (d + 1 < xs.length) (typeApplication (type d)) .typeApplication Ty.bare xs t
  | .additive, xs, t => ∀ d, Completes (d + 1 < xs.length)
      (tier TokenKind.isAdditive (tier TokenKind.isMultiplicative
        (application (expression d) (pattern (d + 1))))) .additive Expr.bare xs t
  | .multiplicative, xs, t => ∀ d, Completes (d + 1 < xs.length)
      (tier TokenKind.isMultiplicative (application (expression d) (pattern (d + 1))))
      .multiplicative Expr.bare xs t
  | .application, xs, t => ∀ d, Completes (d + 1 < xs.length)
      (application (expression d) (pattern (d + 1))) .application Expr.bare xs t
  | .argument, xs, t => ∀ d, Completes (d + 1 < xs.length)
      (withSuffixes (expression d) (atom .expression (expression d))) .argument Expr.bare xs t
  | .operand, xs, t => ∀ d, Completes (d + 1 < xs.length)
      (withSuffixes (expression d) (primary (expression d) (pattern (d + 1)))) .operand Expr.bare xs t
  | .suffix, xs, t => ∀ d, Completes (d + 1 < xs.length) (suffix (expression d)) .suffix Suffix.bare xs t
  | .fieldValue, xs, t =>
    ∀ d, Completes (d + 1 < xs.length) (fieldValue (expression d)) .fieldValue FieldValue.bare xs t
  | .primary, xs, t => ∀ d, Completes (d + 1 < xs.length)
      (primary (expression d) (pattern (d + 1))) .primary Expr.bare xs t
  | .clause, xs, t => ∀ d, Completes (d + 1 < xs.length)
      (clause (expression d) (pattern (d + 1))) .clause Clause.bare xs t
  | .block, xs, t => ∀ d d', d ≤ d' → Completes (d + 1 < xs.length)
      (block (expression d) (pattern d')) .block Expr.bare xs t
  | .statement, xs, t => ∀ d d', d ≤ d' → Completes (d < xs.length)
      (statement (expression d) (pattern d')) .statement Statement.bare xs t
  | .param, xs, t => ∀ d, Completes (d < xs.length) (param (pattern d) (type d)) .param Param.bare xs t
  | .variant, xs, t =>
    ∀ d, Completes (d < xs.length) (variant (atom .type (type d))) .variant Variant.bare xs t
  | .field, xs, t => ∀ d, Completes (d < xs.length) (field (type d)) .field Field.bare xs t
  | .typeBody, xs, t => ∀ d name, Completes (d < xs.length)
      (typeBody (type d) (atom .type (type d)) name) .typeBody TypeBody.bare xs t
  | .decl, xs, t => ∀ d, Completes (d < xs.length) (declaration d) .decl Decl.bare xs t
  | .program, xs, t => ∀ d, Completes (d < xs.length) (program d) .program Program.bare xs t

/-- The sorts of atoms take nothing from what follows them, so any list may. -/
theorem ends_of_goesOn_eq_false {s : Sym} (hs : ∀ k, s.goesOn k = false) {R : List Lexeme}
    (hR : R ≠ []) : Ends s R := by
  obtain ⟨x, ys, rfl⟩ := List.exists_cons_of_ne_nil hR
  exact ⟨⟨x, ys, rfl, hs _⟩, fun h => by rw [hs] at h; cases h⟩

section

variable {k : Kin} {xs R : List Lexeme}

theorem complete_leaf {x : Lexeme} {l : Leaf} {t : k.Node} (hx : x.1 ≠ .lparen)
    (hl : ∀ (deep : Prop) (R : List Lexeme), (leaf k.family).Accepts deep [x] R (· = l))
    (ht : ∀ s, k.bare (k.family.ofLeaf l s) = t) : Complete (.atom k) [x] t :=
  fun _ _ _ => atom_accepts_leaf hx (hl _ _) ht

theorem lists_of_complete {α : Type} {s : Sym} {item : Parser α} {bare : α → s.Node}
    {closer : TokenKind} {deep : Prop} {p : List Lexeme × s.Node} (ho : Opening s p.1) (hs : s ≠ .program)
    (hcloser : s.opens closer = false) (heof : s.opens .eof = false)
    (hcomma : s.goesOn .comma = false) (hgoes : s.goesOn closer = false)
    (hbrace : closer ≠ .lbrace) (h : Completes deep item s bare p.1 p.2) :
    Accepts.Lists deep closer item bare p := by
  refine ⟨?_, fun x ys hx => h _ (.cons ?_ ?_)⟩
  · have hopens : ∃ x ys, p.1 = x :: ys ∧ s.opens x.1 = true := by
      cases s with
      | program => contradiction
      | fieldValue =>
        obtain ⟨n, ys, h⟩ := ho
        exact ⟨_, ys, h, rfl⟩
      | element k =>
        obtain ⟨x, ys, h, hx, -⟩ := ho
        exact ⟨x, ys, h, hx⟩
      | _ =>
        obtain ⟨x, ys, h, hx, -⟩ := ho
        exact ⟨x, ys, h, hx⟩
    obtain ⟨x, ys, h, hx⟩ := hopens
    refine ⟨x, ys, h, ?_, ?_⟩
    · rintro hk
      rw [hk, hcloser] at hx
      cases hx
    · rintro hk
      rw [hk, heof] at hx
      cases hx
  · rcases hx with hx | hx <;> rw [hx] <;> assumption
  · rcases hx with hx | hx <;> rw [hx]
    · simp
    · exact hbrace

theorem complete_list {parts : List (List Lexeme × k.Node)} {trailing : Bool} {t : k.Node}
    (hparts : ∀ p ∈ parts, Opening (.element k) p.1 ∧ Complete (.element k) p.1 p.2)
    (ht : ∀ es t' s, es.map k.bare = parts.map (·.2) → (parts ≠ [] → t' = trailing) →
      k.bare (collapse k.family es t' s) = t) :
    Complete (.atom k) (TokenKind.lparen.lexeme ::
      (listed TokenKind.comma.lexeme trailing (parts.map (·.1)) ++ [TokenKind.rparen.lexeme])) t := by
  intro d R _
  have hlists : ∀ p ∈ parts, Accepts.Lists (d + 1 < (TokenKind.lparen.lexeme ::
      (listed TokenKind.comma.lexeme trailing (parts.map (·.1)) ++
        [TokenKind.rparen.lexeme])).length) .rparen (k.element d) k.bare p := by
    refine fun p hp => lists_of_complete (hparts p hp).1 (by simp) (by cases k <;> rfl)
      (by cases k <;> rfl) (by cases k <;> rfl) (by cases k <;> rfl) (by simp) fun R hR =>
      ((hparts p hp).2 d R hR).mono fun hd => ?_
    have hle := length_le_listed_of_mem TokenKind.comma.lexeme trailing hp
    simp only [List.length_cons, List.length_append, List.length_nil]
    omega
  refine (atom_accepts_list hlists).imp ?_
  rintro a ⟨es, t', s, hes, ht', rfl⟩
  exact ht es t' s hes ht'

theorem complete_unit : Complete (.atom k) [TokenKind.lparen.lexeme, TokenKind.rparen.lexeme]
    (k.ofLeaf .unit) := by
  have h : Complete (.atom k) (TokenKind.lparen.lexeme ::
      (listed TokenKind.comma.lexeme false (List.map (·.1) ([] : List (List Lexeme × k.Node))) ++
        [TokenKind.rparen.lexeme])) (k.ofLeaf .unit) := by
    refine complete_list (by simp) fun es t' s hes _ => ?_
    obtain rfl : es = [] := by simpa using hes
    exact k.agrees.leaf _ _ (by simp)
  exact h

theorem complete_group {t : k.Node} (ho : Opening (.element k) xs) (h : Complete (.element k) xs t) :
    Complete (.atom k) (TokenKind.lparen.lexeme :: xs ++ [TokenKind.rparen.lexeme]) t := by
  have hlist : Complete (.atom k) (TokenKind.lparen.lexeme ::
      (listed TokenKind.comma.lexeme false ([(xs, t)].map (·.1)) ++ [TokenKind.rparen.lexeme])) t := by
    refine complete_list (by simpa using ⟨ho, h⟩) fun es t' s hes ht' => ?_
    obtain ⟨e, rfl, he⟩ := List.map_eq_singleton_iff.1 hes
    rw [ht' (by simp)]
    exact he
  simpa [listed] using hlist

theorem complete_tuple {parts : List (List Lexeme × k.Node)} {trailing : Bool}
    (hp : 2 ≤ parts.length ∨ parts.length = 1 ∧ trailing = true)
    (hparts : ∀ p ∈ parts, Opening (.element k) p.1 ∧ Complete (.element k) p.1 p.2) :
    Complete (.atom k)
      (TokenKind.lparen.lexeme :: listed TokenKind.comma.lexeme trailing (parts.map (·.1)) ++
        [TokenKind.rparen.lexeme]) (k.ofTuple (parts.map (·.2))) := by
  refine complete_list hparts fun es t' s hes ht' => ?_
  have hlen : es.length = parts.length := by simpa using congrArg List.length hes
  have hne : parts ≠ [] := by
    rintro rfl
    simp at hp
  have hc : collapse k.family es t' s = k.family.ofTuple es s := by
    rcases es with _ | ⟨e, _ | ⟨e', es⟩⟩
    · simp only [List.length_nil] at hlen
      omega
    · simp only [List.length_cons, List.length_nil] at hlen
      obtain rfl : t' = true := by
        rw [ht' hne]
        exact (hp.resolve_left (by omega)).2
      rfl
    · rfl
  rw [hc, k.agrees.tuple, hes]

theorem kind_of_ends {s : Sym} {c : Cursor} (hR : Ends s R) (h : c.lexemes = R) :
    s.goesOn c.current.kind = false := by
  obtain ⟨⟨x, ys, rfl, hx⟩, -⟩ := hR
  rwa [Cursor.current_kind h]

theorem isAt_of_ends {s : Sym} {j : TokenKind} {c : Cursor} (hR : Ends s R) (hj : s.goesOn j = true)
    (h : c.lexemes = R) : c.isAt j = false := by
  rw [Cursor.isAt, beq_eq_false_iff_ne]
  rintro rfl
  rw [kind_of_ends hR h] at hj
  cases hj

theorem kind_of_opens {f : TokenKind → Bool} {c : Cursor} {ys : List Lexeme} (ho : Opens f xs)
    (h : c.lexemes = xs ++ ys) : f c.current.kind = true := by
  obtain ⟨x, zs, rfl, hx, -⟩ := ho
  rwa [Cursor.current_kind h]

theorem atoms_accepts {parts : List (List Lexeme × k.Node)} {deep : Prop} {d : Nat}
    (hparts : ∀ p ∈ parts, Opening (.atom k) p.1 ∧ Complete (.atom k) p.1 p.2)
    (hdeep : d + 1 < (parts.flatMap (·.1)).length → deep) {s : Sym} (hR : Ends s R)
    (hs : ∀ j, k.startsAtom j = true → s.goesOn j = true) :
    (many k.family.startsAtom (atom k.family (k.element d))).Accepts deep
      (parts.flatMap (·.1)) R fun as => as.map k.bare = parts.map (·.2) := by
  have hloops : ∀ p ∈ parts, Accepts.Loops deep k.family.startsAtom
      (atom k.family (k.element d)) k.bare (· ≠ []) p := by
    intro p hp
    have ho := opening_atom.1 (hparts p hp).1
    refine ⟨ho.ne_nil, fun ys => by simp [ho.ne_nil], fun ys hys => ?_, fun ys c h => ?_⟩
    · exact ((hparts p hp).2 d ys (ends_of_goesOn_eq_false (fun _ => rfl) hys)).mono fun hd =>
        hdeep (Nat.lt_of_lt_of_le hd (length_le_flatMap_of_mem _ hp))
    · rw [startsAtom_eq k.agrees, kind_of_opens ho h]
  refine .many hloops hR.ne_nil hR.ne_nil fun c h => ?_
  rw [startsAtom_eq k.agrees]
  cases hc : k.startsAtom c.current.kind with
  | false => rfl
  | true => exact absurd (hs _ hc) (by simp [kind_of_ends hR h])

/-- Elements are read with one level of nesting less, and none at depth zero. -/
theorem complete_element {t : k.Node} (hne : xs ≠ [])
    (h : ∀ d, Completes (d + 1 < xs.length) (k.element (d + 1)) (.element k) k.bare xs t) :
    Complete (.element k) xs t := by
  intro d
  cases d with
  | zero =>
    refine fun R _ file c _ _ => .inr ⟨List.length_pos_iff.2 hne, ?_⟩
    cases k <;> exact tooDeep_overflows _ _ _
  | succ d => exact h d

end

/-! Patterns and types. -/

theorem complete_construct {n : String} {parts : List (List Lexeme × Pattern Unit)}
    (hparts : ∀ p ∈ parts, Opening (.atom .pattern) p.1 ∧ Complete (.atom .pattern) p.1 p.2) :
    Complete (.element .pattern) ((.typeIdentifier, n) :: parts.flatMap (·.1))
      (.constructor n (parts.map (·.2)) ()) := by
  refine complete_element (by simp) fun d R hR => ?_
  show (patternWithin (pattern d)).Accepts _ _ _ _
  unfold patternWithin
  refine .current fun t ht => ?_
  obtain ⟨hk, hn⟩ := kind_text_of_lexeme ht
  rw [if_pos hk]
  refine .advance (by simp) fun _ _ => .bind_last
    (atoms_accepts (k := .pattern) hparts Nat.lt_succ_of_lt hR fun _ h => h) fun as has => ?_
  refine .spanFrom fun s => .pure ?_
  show Pattern.map _ _ = _
  rw [Pattern.map, Pattern.mapAll_eq_map, hn, ← has]
  rfl

/-- An atom is a lone capitalised name or begins with something else. -/
theorem upperName_or {u : Lambdas} {k : Kin} {xs : List Lexeme} {t : k.Node}
    (h : Derives u (.atom k) xs t) :
    (∃ n, xs = [(.typeIdentifier, n)] ∧ t = k.ofUpperName n) ∨
      ∃ x ys, xs = x :: ys ∧ x.1 ≠ .typeIdentifier := by
  cases h with
  | upperName _ n => exact .inl ⟨n, rfl, rfl⟩
  | wildcard => exact .inr ⟨_, _, rfl, by simp⟩
  | number => exact .inr ⟨_, _, rfl, by simp⟩
  | boolean => exact .inr ⟨_, _, rfl, by simp⟩
  | lowerName => exact .inr ⟨_, _, rfl, by simp⟩
  | unit => exact .inr ⟨_, _, rfl, by simp⟩
  | group => exact .inr ⟨_, _, rfl, by simp⟩
  | tuple => exact .inr ⟨_, _, rfl, by simp⟩

theorem complete_atomicPattern {u : Lambdas} {xs : List Lexeme} {p : Pattern Unit}
    (hd : Derives u (.atom .pattern) xs p) (h : Complete (.atom .pattern) xs p) :
    Complete (.element .pattern) xs p := by
  obtain ⟨n, rfl, rfl⟩ | ⟨x, ys, rfl, hx⟩ := upperName_or hd
  · have hnone : Complete (.element .pattern) ((.typeIdentifier, n) ::
        ([] : List (List Lexeme × Pattern Unit)).flatMap (·.1)) (.constructor n [] ()) :=
      complete_construct (by simp)
    exact hnone
  · refine complete_element (by simp) fun d R hR => ?_
    show (patternWithin (pattern d)).Accepts _ _ _ _
    unfold patternWithin
    refine .current fun t ht => ?_
    have hne : t.kind ≠ .typeIdentifier := by rwa [← congrArg Prod.fst ht] at hx
    rw [if_neg hne]
    exact h d R (ends_of_goesOn_eq_false (fun _ => rfl) hR.ne_nil)

theorem typeApplication_accepts {n : String} {parts : List (List Lexeme × Ty Unit)} {d : Nat}
    {R : List Lexeme} (hR : Ends .typeApplication R)
    (hparts : ∀ p ∈ parts, Opening (.atom .type) p.1 ∧ Complete (.atom .type) p.1 p.2) :
    (typeApplication (type d)).Accepts (d + 1 < ((.typeIdentifier, n) :: parts.flatMap (·.1)).length)
      ((.typeIdentifier, n) :: parts.flatMap (·.1)) R
      fun t => t.bare = if parts = [] then .var n () else .app n (parts.map (·.2)) () := by
  unfold typeApplication
  refine .current fun t ht => ?_
  obtain ⟨hk, hn⟩ := kind_text_of_lexeme ht
  rw [if_pos hk]
  refine .advance (by simp) fun _ _ => .bind_last
    (atoms_accepts (k := .type) hparts Nat.lt_succ_of_lt hR fun _ h => h) fun as has => ?_
  have hlen : as.isEmpty = parts.isEmpty := by
    have := congrArg List.length has
    cases as <;> cases parts <;> simp_all
  cases parts with
  | nil =>
    rw [if_pos (by simp [hlen])]
    exact .pure (by rw [hn]; rfl)
  | cons p ps =>
    rw [if_neg (by simp [hlen]), if_neg (by simp)]
    refine .spanFrom fun s => .pure ?_
    show Ty.map _ _ = _
    rw [Ty.map, Ty.mapAll_eq_map, hn, ← has]
    rfl

theorem complete_applyType {n : String} {parts : List (List Lexeme × Ty Unit)} (hp : parts ≠ [])
    (hparts : ∀ p ∈ parts, Opening (.atom .type) p.1 ∧ Complete (.atom .type) p.1 p.2) :
    Complete .typeApplication ((.typeIdentifier, n) :: parts.flatMap (·.1))
      (.app n (parts.map (·.2)) ()) := by
  intro d R hR
  refine (typeApplication_accepts hR hparts).imp fun t ht => ?_
  rw [if_neg hp] at ht
  exact ht

theorem complete_atomicType {u : Lambdas} {xs : List Lexeme} {t : Ty Unit}
    (hd : Derives u (.atom .type) xs t) (h : Complete (.atom .type) xs t) :
    Complete .typeApplication xs t := by
  obtain ⟨n, rfl, rfl⟩ | ⟨x, ys, rfl, hx⟩ := upperName_or hd
  · intro d R hR
    have hnone : (typeApplication (type d)).Accepts _ ((TokenKind.typeIdentifier, n) ::
        ([] : List (List Lexeme × Ty Unit)).flatMap (·.1)) R fun t => t.bare = _ :=
      typeApplication_accepts hR (by simp)
    exact hnone
  · intro d R hR
    unfold typeApplication
    refine .current fun t ht => ?_
    have hne : t.kind ≠ .typeIdentifier := by rwa [← congrArg Prod.fst ht] at hx
    rw [if_neg hne]
    exact h d R (ends_of_goesOn_eq_false (fun _ => rfl) hR.ne_nil)

theorem names_accepts {ns : List String} {deep : Prop} {x : Lexeme} {R : List Lexeme}
    (hx : x.1 ≠ .identifier) :
    (many (·.isAt .identifier) advance).Accepts deep (ns.map (TokenKind.identifier, ·)) (x :: R)
      fun ts => ts.map (·.text) = ns := by
  have hloops : ∀ p ∈ ns.map fun n => ([(TokenKind.identifier, n)], n), Accepts.Loops deep
      (·.isAt .identifier) advance (·.text) (· ≠ []) p := by
    refine List.forall_mem_map.2 fun n _ => ⟨by simp, by simp, fun ys _ => ?_, fun ys c h => ?_⟩
    · exact (Accepts.token (by simp)).imp fun t ht => (kind_text_of_lexeme ht).2
    · simp [Cursor.isAt_of_lexemes h]
  have h := Accepts.many hloops (by simp) (by simp) (R := x :: R)
    fun c h => by simp [Cursor.isAt_of_lexemes h, hx]
  rw [List.flatMap_map, List.map_map] at h
  rw [List.map_eq_flatMap]
  simpa [Function.comp_def] using h

theorem complete_quantified {binders : List String} {xs : List Lexeme} {t : Ty Unit}
    (h : Complete (.element .type) xs t) :
    Complete (.element .type)
      (TokenKind.kwForall.lexeme :: binders.map (.identifier, ·) ++ TokenKind.dot.lexeme :: xs)
      (.quantified binders t ()) := by
  refine complete_element (by simp) fun d R hR => ?_
  refine Accepts.congr ?_ fun file c hc => typeWithin_eq (fun _ => typeApplication_shortens d) hc
  refine .test_true (fun c hc => by simp [Cursor.isAt_of_lexemes hc]) ?_
  unfold quantified
  refine .located (.advance (by simp) fun _ _ => .bind (names_accepts (by simp)) fun ns hns => ?_)
  refine .expect rfl (by simp) fun _ _ => .bind_last ((h d R hR).mono fun hd => ?_) fun b hb =>
    .pure fun s => ?_
  · simp only [List.length_append, List.length_cons] at hd ⊢
    omega
  · rw [hns, ← hb]
    rfl

theorem complete_chain {xs ys : List Lexeme} {t : Ty Unit} {codomain : Option (List Lexeme × Ty Unit)}
    (ho : Opening .typeApplication xs) (h : Complete .typeApplication xs t)
    (hys : ys = codomain.elim [] (TokenKind.arrow.lexeme :: ·.1))
    (hc : ∀ p ∈ codomain, Complete (.element .type) p.1 p.2) :
    Complete (.element .type) (xs ++ ys) (codomain.elim t (.arrow t ·.2 ())) := by
  refine complete_element (by simp [ho.ne_nil]) fun d R hR => ?_
  refine Accepts.congr ?_ fun file c hc => typeWithin_eq (fun _ => typeApplication_shortens d) hc
  refine .test_false (fun c hc => ?_) (.start fun s => ?_)
  · rw [List.append_assoc] at hc
    rw [Cursor.isAt, beq_eq_false_iff_ne]
    intro hk
    have := kind_of_opens ho hc
    rw [hk] at this
    cases this
  subst hys
  cases codomain with
  | none =>
    refine .bind ((h d R (hR.mono fun k hk => ?_)).mono fun hd => ?_) fun a ha =>
      .test_false (fun c hc => ?_) (.pure ha)
    · simpa [Sym.goesOn] using .inr hk
    · simpa using hd
    · exact isAt_of_ends hR rfl hc
  | some p =>
    refine .bind ((h d _ (.cons rfl (by simp))).mono fun hd => ?_) fun a ha => ?_
    · simp only [List.length_append]
      omega
    · refine .test_true (fun c hc => by simp [Cursor.isAt_of_lexemes hc]) ?_
      refine .advance (by simp) fun _ _ => .bind_last ((hc p rfl (d + 1) R hR).mono fun hd => ?_)
        fun b hb => .spanFrom fun s => .pure ?_
      · simp only [Option.elim, List.length_append, List.length_cons]
        omega
      · show Ty.map _ _ = _
        rw [Ty.map]
        exact congrArg₂ (Ty.arrow · · ()) ha hb

theorem complete_arrow {xs ys : List Lexeme} {t t' : Ty Unit} (ho : Opening .typeApplication xs)
    (h : Complete .typeApplication xs t) (hc : Complete (.element .type) ys t') :
    Complete (.element .type) (xs ++ TokenKind.arrow.lexeme :: ys) (.arrow t t' ()) := by
  have hchain : Complete (.element .type) (xs ++ TokenKind.arrow.lexeme :: ys)
      ((some (ys, t')).elim t (.arrow t ·.2 ())) :=
    complete_chain ho h rfl (by simpa using hc)
  exact hchain

theorem complete_plainType {xs : List Lexeme} {t : Ty Unit} (ho : Opening .typeApplication xs)
    (h : Complete .typeApplication xs t) : Complete (.element .type) xs t := by
  have hchain : Complete (.element .type) (xs ++ [])
      ((none : Option (List Lexeme × Ty Unit)).elim t (.arrow t ·.2 ())) :=
    complete_chain ho h rfl (by simp)
  rw [List.append_nil] at hchain
  exact hchain

/-! Expressions. -/

section

variable {u : Lambdas} {deep : Prop} {d : Nat} {xs R : List Lexeme} {e : Expr Unit}

theorem complete_access (n : String) :
    Complete .suffix [TokenKind.dot.lexeme, (.identifier, n)] (.access · n ()) := by
  intro d R hR
  unfold suffix
  refine .advance (by simp) fun t ht => ?_
  rw [if_pos (kind_text_of_lexeme ht).1]
  refine .expect rfl (by simp) fun t ht => .pure ?_
  rw [(kind_text_of_lexeme ht).2]
  rfl

theorem complete_fieldValue {n : String} (h : Complete (.element .expression) xs e) :
    Complete .fieldValue ((.identifier, n) :: TokenKind.assign.lexeme :: xs) ⟨n, e, ()⟩ := by
  intro d R hR
  unfold fieldValue
  refine .located (.expect rfl (by simp) fun t ht => .expect rfl (by simp) fun _ _ => ?_)
  refine .bind_last ((h d R (hR.mono fun _ hk => hk)).mono fun hd => ?_) fun a ha => .pure fun s => ?_
  · simp only [List.length_cons]
    omega
  · rw [(kind_text_of_lexeme ht).2, ← ha]
    rfl

theorem complete_record {parts : List (List Lexeme × FieldValue Unit)} {trailing : Bool}
    (hparts : ∀ p ∈ parts, Opening .fieldValue p.1 ∧ Complete .fieldValue p.1 p.2) :
    Complete .suffix
      (TokenKind.lbrace.lexeme :: listed TokenKind.comma.lexeme trailing (parts.map (·.1)) ++
        [TokenKind.rbrace.lexeme]) (.record · (parts.map (·.2)) ()) := by
  intro d R hR
  unfold suffix
  refine .advance (by simp) fun t ht => ?_
  rw [if_neg (by simp [(kind_text_of_lexeme ht).1])]
  refine .bind (.commas rfl (by simp) fun p hp => lists_of_complete (hparts p hp).1 (by simp) rfl rfl
    rfl rfl (by simp) fun R hR => ((hparts p hp).2 d R hR).mono fun hd => ?_) fun x hx => ?_
  · have hle := length_le_listed_of_mem TokenKind.comma.lexeme trailing hp
    simp only [List.length_cons, List.length_append, List.length_nil]
    omega
  · refine .expectClosing rfl (by simp) fun _ _ => .pure ?_
    rw [← hx.1]
    rfl

theorem startsSuffix_of_derives {f : Expr Unit → Expr Unit} (h : Derives u .suffix xs f)
    {c : Cursor} {ys : List Lexeme} (hc : c.lexemes = xs ++ ys) : startsSuffix c = true := by
  cases h with
  | access n => simp [startsSuffix, Cursor.isAt_of_lexemes hc]
  | record parts trailing hp h =>
    obtain ⟨⟨zs, f⟩, ps, rfl⟩ := List.exists_cons_of_ne_nil hp
    cases h _ (List.mem_cons_self ..)
    rw [startsSuffix, startsRecord_of_lexemes, hc]
    cases ps <;> simp [listed, opensRecord]

theorem withSuffixes_accepts {o : Parser (Expr Span)}
    {parts : List (List Lexeme × (Expr Unit → Expr Unit))}
    (ho : o.Accepts deep xs (parts.flatMap (·.1) ++ R) (·.bare = e))
    (hparts : ∀ p ∈ parts, Derives u .suffix p.1 p.2 ∧ Complete .suffix p.1 p.2)
    (hdeep : d + 1 < (parts.flatMap (·.1)).length → deep) {s : Sym} (hR : Ends s R)
    (hs : s.goesOn .dot = true) :
    (withSuffixes (expression d) o).Accepts deep (xs ++ parts.flatMap (·.1)) R
      (·.bare = parts.foldl (fun e p => p.2 e) e) := by
  have hloops : ∀ p ∈ parts, Accepts.Loops deep startsSuffix (closing (suffix (expression d)))
      (·.1.bare) (· ≠ []) p := by
    intro p hp
    have hne : p.1 ≠ [] := Opens.ne_nil (hparts p hp).1.opening
    refine ⟨hne, fun ys => by simp [hne], fun ys hys => ?_, fun ys c => ?_⟩
    · exact (((hparts p hp).2 d ys (ends_of_goesOn_eq_false (fun _ => rfl) hys)).mono fun hd =>
        hdeep (Nat.lt_of_lt_of_le hd (length_le_flatMap_of_mem _ hp))).closing
    · exact startsSuffix_of_derives (hparts p hp).1
  unfold withSuffixes
  refine .start fun i => .bind ho fun a ha => ?_
  refine .bind_last (.many hloops hR.ne_nil hR.ne_nil fun c hc => startsSuffix_of_ends hR hs hc)
    fun as has => .pure ?_
  rw [bare_foldl_suffix, has, List.foldl_map, ha]

theorem complete_argument {parts : List (List Lexeme × (Expr Unit → Expr Unit))}
    (ho : Complete (.atom .expression) xs e)
    (hparts : ∀ p ∈ parts, Derives u .suffix p.1 p.2 ∧ Complete .suffix p.1 p.2) :
    Complete .argument (xs ++ parts.flatMap (·.1)) (parts.foldl (fun e p => p.2 e) e) := by
  intro d R hR
  refine withSuffixes_accepts ((ho d _ (ends_of_goesOn_eq_false (fun _ => rfl) ?_)).mono fun hd => ?_)
    hparts (fun hd => ?_) hR rfl
  · simp [hR.ne_nil]
  all_goals
    rw [List.length_append]
    omega

theorem complete_operand {parts : List (List Lexeme × (Expr Unit → Expr Unit))}
    (ho : Complete .primary xs e)
    (hparts : ∀ p ∈ parts, Derives u .suffix p.1 p.2 ∧ Complete .suffix p.1 p.2) :
    Complete .operand (xs ++ parts.flatMap (·.1)) (parts.foldl (fun e p => p.2 e) e) := by
  intro d R hR
  refine withSuffixes_accepts ((ho d _ (ends_of_goesOn_eq_false (fun _ => rfl) ?_)).mono fun hd => ?_)
    hparts (fun hd => ?_) hR rfl
  · simp [hR.ne_nil]
  all_goals
    rw [List.length_append]
    omega

theorem ends_of_opens_argument {ys : List Lexeme} (h : Opens Kin.expression.startsAtom xs) :
    Ends .operand (xs ++ ys) := by
  obtain ⟨x, zs, rfl, hx, -⟩ := h
  refine .cons ?_ fun hk => ?_
  · cases hk : x.1 <;> first | rfl | (rw [hk] at hx; cases hx)
  · rw [hk] at hx
    cases hx

theorem application_accepts {pat : Parser (Pattern Span)} {parts : List (List Lexeme × Expr Unit)}
    (ho : (withSuffixes (expression d) (primary (expression d) pat)).Accepts deep xs
      (parts.flatMap (·.1) ++ R) (·.bare = e))
    (hparts : ∀ p ∈ parts, Opening .argument p.1 ∧ Complete .argument p.1 p.2)
    (hdeep : d + 1 < (parts.flatMap (·.1)).length → deep) (hR : Ends .application R) :
    (application (expression d) pat).Accepts deep (xs ++ parts.flatMap (·.1)) R
      (·.bare = parts.foldl (fun callee p => .apply callee p.2 ()) e) := by
  have hstarts := startsAtom_eq Family.expression_agrees
  have hloops : ∀ p ∈ parts, Accepts.Loops deep Family.expression.startsAtom
      (closing (withSuffixes (expression d) (atom .expression (expression d))))
      (·.1.bare) (Ends .argument) p := by
    intro p hp
    have hopens : Opens Kin.expression.startsAtom p.1 := (hparts p hp).1
    refine ⟨hopens.ne_nil, fun ys => (ends_of_opens_argument hopens).mono fun _ hk => hk,
      fun ys hys => ?_, fun ys c hc => ?_⟩
    · exact (((hparts p hp).2 d ys hys).mono fun hd =>
        hdeep (Nat.lt_of_lt_of_le hd (length_le_flatMap_of_mem _ hp))).closing
    · rw [hstarts, kind_of_opens hopens hc]
  unfold application
  refine .start fun i => .bind ho fun a ha => .bind_last (.many hloops (hR.mono fun k hk => ?_)
    hR.ne_nil fun c hc => ?_) fun as has => .pure ?_
  · simpa [Sym.goesOn] using Or.inl hk
  · rw [hstarts]
    exact (Bool.or_eq_false_iff.1 (kind_of_ends hR hc)).2
  · rw [bare_foldl_argument, has, List.foldl_map, ha]

theorem complete_application {parts : List (List Lexeme × Expr Unit)} (ho : Complete .operand xs e)
    (hparts : ∀ p ∈ parts, Opening .argument p.1 ∧ Complete .argument p.1 p.2) :
    Complete .application (xs ++ parts.flatMap (·.1))
      (parts.foldl (fun callee p => .apply callee p.2 ()) e) := by
  intro d R hR
  have hends : Ends .operand (parts.flatMap (·.1) ++ R) := by
    cases parts with
    | nil => exact hR.mono fun k hk => by simpa [Sym.goesOn] using Or.inl hk
    | cons p ps =>
      rw [List.flatMap_cons, List.append_assoc]
      exact ends_of_opens_argument (hparts p (List.mem_cons_self ..)).1
  refine application_accepts ((ho d _ hends).mono fun hd => ?_) hparts (fun hd => ?_) hR
  all_goals
    rw [List.length_append]
    omega

theorem operation_accepts {operand : Parser (Expr Span)} {o : Operator}
    (h : operand.Accepts deep xs R (·.bare = e)) :
    (operation operand).Accepts deep (o.lexeme :: xs) R
      fun a => (a.operator, a.operand.bare) = (o, e) := by
  have hsymbol : operator.Accepts deep [o.lexeme] (xs ++ R) fun x => x.1 = o := by
    unfold operator
    refine .advance (by cases o <;> simp [Operator.lexeme, Operator.kind]) fun t ht => ?_
    rw [(kind_text_of_lexeme ht).2, Operator.ofSymbol?_symbol]
    exact .pure rfl
  unfold operation
  rw [← List.singleton_append]
  refine .bind hsymbol.closing fun x hx => .bind_last h.closing fun y hy => .pure ?_
  rw [hx, hy]

theorem tier_accepts {binds : TokenKind → Bool} {operand : Parser (Expr Span)}
    {parts : List (Operator × List Lexeme × Expr Unit)} {s : Sym}
    (hfirst : ∀ ys, Ends s ys → operand.Accepts deep xs ys (·.bare = e))
    (hparts : ∀ p ∈ parts, ∀ ys, Ends s ys → operand.Accepts deep p.2.1 ys (·.bare = p.2.2))
    (hbinds : ∀ p ∈ parts, binds p.1.kind = true ∧ s.goesOn p.1.kind = false) (hR : Ends s R)
    (hstop : ∀ c : Cursor, c.lexemes = R → binds c.current.kind = false) :
    (tier binds operand).Accepts deep (xs ++ parts.flatMap Grammar.operation) R
      (·.bare = parts.foldl infixed e) := by
  have hoperator : ∀ p ∈ parts, ∀ ys, Ends s (p.1.lexeme :: ys) := fun p hp ys =>
    .cons (hbinds p hp).2 (by cases p.1 <;> simp [Operator.lexeme, Operator.kind])
  have hnext : Ends s (parts.flatMap Grammar.operation ++ R) := by
    cases parts with
    | nil => exact hR
    | cons p ps => exact hoperator p (List.mem_cons_self ..) _
  have hloops : ∀ p ∈ parts.map fun p => (Grammar.operation p, (p.1, p.2.2)),
      Accepts.Loops deep (fun c => binds c.current.kind) (operation operand)
        (fun o => (o.operator, o.operand.bare)) (Ends s) p := by
    refine List.forall_mem_map.2 fun p hp => ⟨by simp [Grammar.operation],
      fun ys => hoperator p hp _, fun ys hys => operation_accepts (hparts p hp ys hys), fun ys c hc => ?_⟩
    rw [Cursor.current_kind hc]
    exact (hbinds p hp).1
  have hmany := Accepts.many hloops hR hR.ne_nil hstop
  rw [List.flatMap_map, List.map_map] at hmany
  unfold tier
  refine .start fun i => .bind (hfirst _ hnext) fun a ha => .bind_last hmany fun as has => .pure ?_
  rw [bare_foldl_operation, has, ha, List.foldl_map]
  rfl

theorem complete_multiplicative {parts : List (Operator × List Lexeme × Expr Unit)}
    (he : Complete .application xs e) (ho : ∀ p ∈ parts, p.1.isAdditive = false)
    (hparts : ∀ p ∈ parts, Complete .application p.2.1 p.2.2) :
    Complete .multiplicative (xs ++ parts.flatMap Grammar.operation) (parts.foldl infixed e) := by
  intro d R hR
  refine tier_accepts (s := .application) (fun ys hys => (he d ys hys).mono fun hd => ?_)
    (fun p hp ys hys => (hparts p hp d ys hys).mono fun hd => ?_) (fun p hp => ?_)
    (hR.mono fun k hk => ?_) fun c hc => ?_
  · rw [List.length_append]
    omega
  · have hle := length_le_flatMap_of_mem Grammar.operation hp
    rw [Grammar.operation, List.length_cons] at hle
    rw [List.length_append]
    omega
  · have := ho p hp
    cases hp : p.1 <;> first | exact ⟨rfl, rfl⟩ | (rw [hp] at this; cases this)
  · cases k <;> first | rfl | cases hk
  · have := kind_of_ends hR hc
    cases hk : c.current.kind <;> first | rfl | (rw [hk] at this; cases this)

theorem complete_additive {parts : List (Operator × List Lexeme × Expr Unit)}
    (he : Complete .multiplicative xs e) (ho : ∀ p ∈ parts, p.1.isAdditive = true)
    (hparts : ∀ p ∈ parts, Complete .multiplicative p.2.1 p.2.2) :
    Complete .additive (xs ++ parts.flatMap Grammar.operation) (parts.foldl infixed e) := by
  intro d R hR
  refine tier_accepts (s := .multiplicative) (fun ys hys => (he d ys hys).mono fun hd => ?_)
    (fun p hp ys hys => (hparts p hp d ys hys).mono fun hd => ?_) (fun p hp => ?_)
    (hR.mono fun k hk => ?_) fun c hc => ?_
  · rw [List.length_append]
    omega
  · have hle := length_le_flatMap_of_mem Grammar.operation hp
    rw [Grammar.operation, List.length_cons] at hle
    rw [List.length_append]
    omega
  · have := ho p hp
    cases hp : p.1 <;> first | exact ⟨rfl, rfl⟩ | (rw [hp] at this; cases this)
  · cases k <;> first | rfl | cases hk
  · have := kind_of_ends hR hc
    cases hk : c.current.kind <;> first | rfl | (rw [hk] at this; cases this)

theorem climb_accepts {Q : Expr Span → Prop} (h : (tier TokenKind.isAdditive
      (tier TokenKind.isMultiplicative (application (expression d) (pattern (d + 1))))).Accepts
      deep xs R Q) :
    (climb (application (expression d) (pattern (d + 1))) tiers 0).Accepts deep xs R Q :=
  h.congr fun _ _ hc => climb_eq_tiers (fun _ hc => application_shortens d hc) hc

theorem expression_accepts {ys : List Lexeme} {ascribed : Option (List Lexeme × Ty Unit)}
    (hys : ys = ascribed.elim [] (TokenKind.colon.lexeme :: ·.1))
    (hclimb : (tier TokenKind.isAdditive (tier TokenKind.isMultiplicative
      (application (expression d) (pattern (d + 1))))).Accepts deep xs (ys ++ R) (·.bare = e))
    (ht : ∀ p ∈ ascribed, Completes deep (type (d + 1)) (.element .type) Ty.bare p.1 p.2)
    (hR : Ends (.element .expression) R) :
    (expression (d + 1)).Accepts deep (xs ++ ys) R (·.bare = ascribed.elim e (.ascribe e ·.2 ())) := by
  show (expressionWithin _ _ _).Accepts _ _ _ _
  unfold expressionWithin
  refine .start fun i => .bind (climb_accepts hclimb) fun a ha => ?_
  subst hys
  cases ascribed with
  | none => exact .test_false (fun c hc => isAt_of_ends hR rfl hc) (.pure ha)
  | some p =>
    refine .test_true (fun c hc => by simp [Cursor.isAt_of_lexemes hc]) (.advance (by simp) fun _ _ =>
      .bind_last (ht p rfl R (hR.mono fun k hk => ?_)) fun t ht => .spanFrom fun s => .pure ?_)
    · cases k <;> first | rfl | cases hk
    · exact congrArg₂ (Expr.ascribe · · ()) ha ht

theorem complete_expression {ys : List Lexeme} {ascribed : Option (List Lexeme × Ty Unit)}
    (hne : xs ≠ []) (he : Complete .additive xs e)
    (hys : ys = ascribed.elim [] (TokenKind.colon.lexeme :: ·.1))
    (ht : ∀ p ∈ ascribed, Complete (.element .type) p.1 p.2) :
    Complete (.element .expression) (xs ++ ys) (ascribed.elim e (.ascribe e ·.2 ())) := by
  refine complete_element (by simp [hne]) fun d R hR => ?_
  have hends : Ends .additive (ys ++ R) := by
    rw [hys]
    cases ascribed with
    | none =>
      refine hR.mono fun k hk => ?_
      cases k <;> first | rfl | cases hk
    | some p => exact .cons rfl (by simp)
  refine expression_accepts hys ((he d _ hends).mono fun hd => ?_)
    (fun p hp R hR => (ht p hp (d + 1) R hR).mono fun hd => ?_) hR
  · rw [List.length_append]
    omega
  · rw [hys, Option.mem_def.1 hp, List.length_append, Option.elim, List.length_cons]
    omega

theorem complete_ascribe {ys : List Lexeme} {t : Ty Unit} (ho : Opening .additive xs)
    (he : Complete .additive xs e) (ht : Complete (.element .type) ys t) :
    Complete (.element .expression) (xs ++ TokenKind.colon.lexeme :: ys) (.ascribe e t ()) := by
  have h : Complete (.element .expression) (xs ++ TokenKind.colon.lexeme :: ys)
      ((some (ys, t)).elim e (.ascribe e ·.2 ())) :=
    complete_expression ho.ne_nil he rfl (by simpa using ht)
  exact h

theorem complete_plain (ho : Opening .additive xs) (he : Complete .additive xs e) :
    Complete (.element .expression) xs e := by
  have h : Complete (.element .expression) (xs ++ [])
      ((none : Option (List Lexeme × Ty Unit)).elim e (.ascribe e ·.2 ())) :=
    complete_expression ho.ne_nil he rfl (by simp)
  rw [List.append_nil] at h
  exact h

theorem lambda_accepts {n : String} {inner : Parser (Expr Span)}
    (h : inner.Accepts deep xs R (·.bare = e)) :
    (lambda inner).Accepts deep
      (TokenKind.pipe.lexeme :: (.identifier, n) :: TokenKind.pipe.lexeme :: xs) R
      (·.bare = .lambda n e ()) := by
  unfold lambda
  refine .located (.advance (by simp) fun _ _ => .expect rfl (by simp) fun t ht => ?_)
  refine .expect rfl (by simp) fun _ _ => .bind_last h fun a ha => .pure fun s => ?_
  rw [(kind_text_of_lexeme ht).2, ← ha]
  rfl

/-! Where nothing goes on with an expression, the loops around it read nothing. -/

section

variable {p : Parser (Expr Span)} {Q : Expr Span → Prop} (hR : Ends (.element .expression) R)

include hR

theorem withSuffixes_alone {inner : Parser (Expr Span)} (h : p.Accepts deep xs R Q) :
    (withSuffixes inner p).Accepts deep xs R Q := by
  unfold withSuffixes
  refine .start fun _ => .bind_last h fun a ha => .bind_last (.many_none fun c hc => ?_)
    fun as has => .pure (by rw [has]; exact ha)
  exact startsSuffix_of_ends hR rfl hc

theorem application_alone {inner : Parser (Expr Span)} {pat : Parser (Pattern Span)}
    (h : (primary inner pat).Accepts deep xs R Q) : (application inner pat).Accepts deep xs R Q := by
  unfold application
  refine .start fun _ => .bind_last (withSuffixes_alone hR h) fun a ha => .bind_last
    (.many_none fun c hc => ?_) fun as has => .pure (by rw [has]; exact ha)
  rw [startsAtom_eq Family.expression_agrees]
  exact (Bool.or_eq_false_iff.1 (kind_of_ends hR hc)).2

theorem tier_alone {binds : TokenKind → Bool}
    (hbinds : ∀ k, binds k = true → Sym.goesOn (.element .expression) k = true)
    (h : p.Accepts deep xs R Q) : (tier binds p).Accepts deep xs R Q := by
  unfold tier
  refine .start fun _ => .bind_last h fun a ha => .bind_last (.many_none fun c hc => ?_)
    fun as has => .pure (by rw [has]; exact ha)
  cases hk : binds c.current.kind with
  | false => rfl
  | true => exact absurd (hbinds _ hk) (by simp [kind_of_ends hR hc])

end

/-- The body of a lambda takes what may stand behind it, so none of the loops around it goes on. -/
theorem complete_wholeLambda {n : String} (h : Complete (.element .expression) xs e) :
    Complete (.element .expression)
      (TokenKind.pipe.lexeme :: (.identifier, n) :: TokenKind.pipe.lexeme :: xs) (.lambda n e ()) := by
  refine complete_element (by simp) fun d R hR => ?_
  have hprimary : (primary (expression d) (pattern (d + 1))).Accepts
      (d + 1 < (TokenKind.pipe.lexeme :: (.identifier, n) :: TokenKind.pipe.lexeme :: xs).length)
      (TokenKind.pipe.lexeme :: (.identifier, n) :: TokenKind.pipe.lexeme :: xs) R
      (·.bare = .lambda n e ()) := by
    unfold primary
    refine .current fun t ht => ?_
    rw [(kind_text_of_lexeme ht).1]
    refine lambda_accepts ((h d R hR).mono fun hd => ?_)
    simp only [List.length_cons]
    omega
  have happlication := application_alone hR hprimary
  have hmultiplicative := tier_alone hR (fun k (hk : k.isMultiplicative = true) => by
    simp [Sym.goesOn, hk]) happlication
  have hadditive := tier_alone hR (fun k (hk : k.isAdditive = true) => by
    simp [Sym.goesOn, hk]) hmultiplicative
  show (expressionWithin _ _ _).Accepts _ _ _ _
  unfold expressionWithin
  exact .start fun _ => .bind_last (climb_accepts hadditive) fun a ha =>
    .test_false (fun c hc => isAt_of_ends hR rfl hc) (.pure ha)

theorem complete_clause {ps : List Lexeme} {p : Pattern Unit} (hp : Complete (.element .pattern) ps p)
    (he : Complete (.element .expression) xs e) :
    Complete .clause (ps ++ TokenKind.fatArrow.lexeme :: xs) ⟨p, e, ()⟩ := by
  intro d R hR
  unfold clause
  refine .located (.bind ((hp (d + 1) _ (.cons rfl (by simp))).mono fun hd => ?_) fun a ha => ?_)
  · rw [List.length_append]
    omega
  · refine .expect rfl (by simp) fun _ _ => .bind_last
      ((he d R (hR.mono fun _ hk => hk)).mono fun hd => ?_) fun b hb => .pure fun s => ?_
    · simp only [List.length_append, List.length_cons]
      omega
    · rw [← ha, ← hb]
      rfl

theorem ends_listed {α : Type} {f : TokenKind → Bool} {separator : Lexeme} {trailing : Bool}
    {parts : List (List Lexeme × α)} (hparts : ∀ p ∈ parts, Opens f p.1)
    (hs : separator.1 ≠ .assign) :
    Ends (.element .expression) (TokenKind.lbrace.lexeme ::
      (listed separator trailing (parts.map (·.1)) ++ TokenKind.rbrace.lexeme :: R)) := by
  rcases parts with _ | ⟨p, _ | ⟨q, ps⟩⟩
  · exact .brace rfl (by simp)
  · rw [List.map_singleton, listed, List.append_assoc]
    refine (hparts p (List.mem_cons_self ..)).ends_brace rfl ?_
    cases trailing with
    | false => exact noAssign_cons (by simp)
    | true => exact noAssign_cons hs
  · rw [List.map_cons, List.map_cons, listed, List.append_assoc]
    · exact (hparts p (List.mem_cons_self ..)).ends_brace rfl (noAssign_cons hs)
    · simp

theorem ends_of_block {t : Expr Unit} (h : Derives u .block xs t) :
    Ends (.element .expression) (xs ++ R) := by
  cases h with
  | emptyBlock => exact .brace rfl (by simp)
  | block parts trailing hp h =>
    rw [List.append_assoc]
    exact ends_listed (fun p hp => (h p hp).opening) (by simp)

theorem complete_caseOf {parts : List (List Lexeme × Clause Unit)} {trailing : Bool}
    (he : Complete (.element .expression) xs e)
    (hparts : ∀ p ∈ parts, Opening .clause p.1 ∧ Complete .clause p.1 p.2) :
    Complete .primary
      (TokenKind.kwMatch.lexeme :: xs ++ TokenKind.lbrace.lexeme ::
        listed TokenKind.comma.lexeme trailing (parts.map (·.1)) ++ [TokenKind.rbrace.lexeme])
      (.caseOf e (parts.map (·.2)) ()) := by
  intro d R hR
  unfold primary
  rw [List.append_assoc, List.cons_append, List.cons_append]
  refine .current fun t ht => ?_
  rw [(kind_text_of_lexeme ht).1]
  show (caseOf _ _).Accepts _ _ _ _
  unfold caseOf
  have hbrace : Ends (.element .expression) (TokenKind.lbrace.lexeme ::
      (listed TokenKind.comma.lexeme trailing (parts.map (·.1)) ++ [TokenKind.rbrace.lexeme]) ++ R) := by
    rw [List.cons_append, List.append_assoc]
    exact ends_listed (fun p hp => (hparts p hp).1) (by simp)
  refine .located (.advance (by simp) fun _ _ => .bind ((he d _ hbrace).mono fun hd => ?_) fun a ha =>
    .expect rfl (by simp) fun _ _ => .bind (.commas rfl (by simp) fun p hp => lists_of_complete
      (hparts p hp).1 (by simp) rfl rfl rfl rfl (by simp) fun R hR =>
        ((hparts p hp).2 d R hR).mono fun hd => ?_) fun x hx =>
    .expectClosing rfl (by simp) fun _ _ => .pure fun s => ?_)
  · simp only [List.length_cons, List.length_append]
    omega
  · have hle := length_le_listed_of_mem TokenKind.comma.lexeme trailing hp
    simp only [List.length_cons, List.length_append]
    omega
  · rw [← ha, ← hx.1]
    show Expr.map _ _ = _
    rw [Expr.map, Clause.mapAll_eq_map]
    rfl

theorem complete_bind {ps : List Lexeme} {p : Pattern Unit} (hp : Complete (.element .pattern) ps p)
    (he : Complete (.element .expression) xs e) :
    Complete .statement (TokenKind.kwLet.lexeme :: ps ++ TokenKind.assign.lexeme :: xs) (.bind p e ()) := by
  intro d d' hle R hR
  unfold statement
  refine .located (.test_true (fun c hc => by simp [Cursor.isAt_of_lexemes hc]) ?_)
  refine .advance (by simp) fun _ _ => .bind ((hp d' _ (.cons rfl (by simp))).mono fun hd => ?_)
    fun a ha => .expect rfl (by simp) fun _ _ => .bind_last ((he d R (hR.mono fun _ hk => hk)).mono
      fun hd => ?_) fun b hb => .pure fun s => ?_
  · simp only [List.length_cons, List.length_append]
    omega
  · simp only [List.length_cons, List.length_append]
    omega
  · rw [← ha, ← hb]
    rfl

theorem complete_expr (ho : Opening (.element .expression) xs)
    (he : Complete (.element .expression) xs e) : Complete .statement xs (.expr e ()) := by
  intro d d' _ R hR
  unfold statement
  refine .located (.test_false (fun c hc => ?_) (.bind_last (he d R (hR.mono fun _ hk => hk))
    fun a ha => .pure fun s => ?_))
  · have := kind_of_opens ho hc
    rw [Cursor.isAt, beq_eq_false_iff_ne]
    intro hk
    rw [hk] at this
    cases this
  · rw [← ha]
    rfl

theorem kind_of_listed {α : Type} {f : TokenKind → Bool} {separator : Lexeme} {trailing : Bool}
    {parts : List (List Lexeme × α)} (hne : parts ≠ []) (hparts : ∀ p ∈ parts, Opens f p.1)
    {c : Cursor} (hc : c.lexemes = listed separator trailing (parts.map (·.1)) ++ R) :
    f c.current.kind = true := by
  rcases parts with _ | ⟨p, _ | ⟨q, ps⟩⟩
  · contradiction
  · rw [List.map_singleton, listed, List.append_assoc] at hc
    exact kind_of_opens (hparts p (List.mem_cons_self ..)) hc
  · rw [List.map_cons, List.map_cons, listed, List.append_assoc] at hc
    · exact kind_of_opens (hparts p (List.mem_cons_self ..)) hc
    · simp

theorem statements_accepts {d' : Nat} (hle : d ≤ d') {parts : List (List Lexeme × Statement Unit)}
    {trailing : Bool} (hne : parts ≠ [])
    (hparts : ∀ p ∈ parts, Opening .statement p.1 ∧ Complete .statement p.1 p.2)
    (hdeep : ∀ p ∈ parts, d < p.1.length → deep) :
    (statements (expression d) (pattern d')).Accepts deep
      (listed TokenKind.semicolon.lexeme trailing (parts.map (·.1)))
      (TokenKind.rbrace.lexeme :: R) fun ss => ss.map Statement.bare = parts.map (·.2) := by
  suffices hall : ∀ n, parts.length ≤ n →
      (statementsUpTo (expression d) (pattern d') n).Accepts deep
        (listed TokenKind.semicolon.lexeme trailing (parts.map (·.1)))
        (TokenKind.rbrace.lexeme :: R) fun ss => ss.map Statement.bare = parts.map (·.2) by
    intro file c hc hx
    have hle := Accepts.length_le_listed TokenKind.semicolon.lexeme trailing fun p hp =>
      Opens.ne_nil (hparts p hp).1
    have hlen := Accepts.length_remaining hx
    rw [List.length_append] at hlen
    exact hall c.remaining.length (by omega) file c hc hx
  induction parts with
  | nil => contradiction
  | cons p ps ih =>
    intro n hn
    obtain ⟨n, rfl⟩ := Nat.exists_eq_succ_of_ne_zero (Nat.ne_of_gt (Nat.lt_of_lt_of_le
      (Nat.succ_pos _) hn))
    obtain ⟨-, hp⟩ := hparts p (List.mem_cons_self ..)
    have hfirst : ∀ x ys, x.1 = .semicolon ∨ x.1 = .rbrace →
        (statement (expression d) (pattern d')).Accepts deep p.1 (x :: ys)
          fun s => s.bare = p.2 := fun x ys hx =>
      (hp d d' hle _ (.cons (by rcases hx with hx | hx <;> rw [hx] <;> rfl)
        (by rcases hx with hx | hx <;> simp [hx]))).mono (hdeep p (List.mem_cons_self ..))
    unfold statementsUpTo
    cases ps with
    | nil =>
      rw [List.map_singleton, listed]
      cases trailing with
      | false =>
        refine .bind (hfirst _ _ (.inr rfl)) fun a ha => .test_false (fun c hc => ?_) (.pure ?_)
        · simp [Cursor.isAt_of_lexemes (show c.lexemes = TokenKind.rbrace.lexeme :: R from hc)]
        · simp [ha]
      | true =>
        refine .bind (hfirst _ _ (.inl rfl)) fun a ha => .test_true (fun c hc => ?_)
          (.advance (by simp) fun _ _ => .test_true (fun c hc => ?_) (.pure ?_))
        · simp [Cursor.isAt_of_lexemes (show c.lexemes = _ :: _ from hc)]
        · simp [Cursor.isAt_of_lexemes (show c.lexemes = TokenKind.rbrace.lexeme :: R from hc)]
        · simp [ha]
    | cons q qs =>
      have hrest := ih (by simp) (fun q hq => hparts q (List.mem_cons_of_mem _ hq))
        (fun q hq => hdeep q (List.mem_cons_of_mem _ hq)) n (by simpa using hn)
      simp only [List.map_cons, listed] at hrest ⊢
      refine .bind (hfirst _ _ (.inl rfl)) fun a ha => .test_true (fun c hc => ?_)
        (.advance (by simp) fun _ _ => .test_false (fun c hc => ?_) (.bind_last hrest fun as has => .pure ?_))
      · simp [Cursor.isAt_of_lexemes (show c.lexemes = _ :: _ from hc)]
      · have hk := kind_of_listed (List.cons_ne_nil q qs)
          (fun r hr => (hparts r (List.mem_cons_of_mem _ hr)).1) hc
        rw [Cursor.isAt, Cursor.isAt]
        cases h : c.current.kind <;> first | rfl | (rw [h] at hk; cases hk)
      · simp [ha, has]

theorem complete_block {parts : List (List Lexeme × Statement Unit)} {trailing : Bool}
    (hne : parts ≠ [])
    (hparts : ∀ p ∈ parts, Opening .statement p.1 ∧ Complete .statement p.1 p.2) :
    Complete .block
      (TokenKind.lbrace.lexeme :: listed TokenKind.semicolon.lexeme trailing (parts.map (·.1)) ++
        [TokenKind.rbrace.lexeme]) (.block (parts.map (·.2)) ()) := by
  intro d d' hle R hR
  have hkind : ∀ c : Cursor, c.lexemes = listed TokenKind.semicolon.lexeme trailing
      (parts.map (·.1)) ++ [TokenKind.rbrace.lexeme] ++ R →
      Sym.opens .statement c.current.kind = true := fun c hc =>
    kind_of_listed hne (fun p hp => (hparts p hp).1) (hc.trans (List.append_assoc ..))
  unfold block
  rw [List.cons_append]
  refine .located (.expect rfl (by simp) fun _ _ => .test_false (fun c hc => ?_)
    (.test_false (fun c hc => ?_) (.bind (statements_accepts hle hne hparts fun p hp hd => ?_)
      fun ss hss => .expectClosing rfl (by simp) fun _ _ => .pure fun s => ?_)))
  · have := hkind c hc
    rw [Cursor.isAt]
    cases h : c.current.kind <;> first | rfl | (rw [h] at this; cases this)
  · have := hkind c hc
    rw [Cursor.isAt]
    cases h : c.current.kind <;> first | rfl | (rw [h] at this; cases this)
  · have := length_le_listed_of_mem TokenKind.semicolon.lexeme trailing hp
    simp only [List.length_cons, List.length_append]
    omega
  · rw [← hss]
    show Expr.map _ _ = _
    rw [Expr.map, Statement.mapAll_eq_map]
    rfl

theorem complete_emptyBlock : Complete .block [TokenKind.lbrace.lexeme, TokenKind.rbrace.lexeme]
    (.block [.expr (.leaf .unit ()) ()] ()) := by
  intro d d' _ R hR
  unfold block
  refine .located (.expect rfl (by simp) fun _ _ => .test_false (fun c hc => ?_)
    (.test_true (fun c hc => ?_) (.advance (by simp) fun _ _ => .pure fun s => rfl)))
  · simp [Cursor.isAt_of_lexemes hc]
  · simp [Cursor.isAt_of_lexemes hc]

theorem complete_ifLet {ps ys zs : List Lexeme} {p : Pattern Unit} {t l : Expr Unit}
    (hp : Complete (.element .pattern) ps p) (he : Complete (.element .expression) xs e)
    (hends : ∀ R, Ends (.element .expression) (ys ++ R)) (ht : Complete .block ys t)
    (hl : Complete .block zs l) :
    Complete .primary
      (TokenKind.kwIf.lexeme :: TokenKind.kwLet.lexeme :: ps ++ TokenKind.assign.lexeme :: xs ++ ys ++
        TokenKind.kwElse.lexeme :: zs) (.ifLet p e t l ()) := by
  intro d R hR
  unfold primary
  simp only [List.append_assoc, List.cons_append]
  have hends' : ∀ zs, Ends (.element .expression) (ys ++ TokenKind.kwElse.lexeme :: zs ++ R) := by
    intro zs
    rw [List.append_assoc]
    exact hends _
  refine .current fun u hu => ?_
  rw [(kind_text_of_lexeme hu).1]
  show (ifLet _ _).Accepts _ _ _ _
  unfold ifLet
  refine .located (.advance (by simp) fun _ _ => .expect rfl (by simp) fun _ _ => .bind
    ((hp (d + 1) _ (.cons rfl (by simp))).mono fun hd => ?_) fun a ha => .expect rfl (by simp)
    fun _ _ => .bind ((he d _ (hends' _)).mono fun hd => ?_) fun b hb => .bind
    ((ht d (d + 1) (Nat.le_succ d) _ (.cons rfl (by simp))).mono fun hd => ?_) fun c hc =>
    .expect rfl (by simp) fun _ _ => .bind_last ((hl d (d + 1) (Nat.le_succ d) R
      (hR.mono fun _ hk => hk)).mono fun hd => ?_) fun b' hb' => .pure fun s => ?_)
  iterate 4
    simp only [List.length_cons, List.length_append]
    omega
  rw [← ha, ← hb, ← hc, ← hb']
  rfl

theorem complete_blockPrimary (ho : Opening .block xs) (h : Complete .block xs e) :
    Complete .primary xs e := by
  obtain ⟨x, ys, rfl, hx, -⟩ := ho
  intro d R hR
  unfold primary
  refine .current fun t ht => ?_
  have hk : t.kind = .lbrace := (congrArg Prod.fst ht).trans (by simpa [Sym.opens] using hx)
  rw [hk]
  exact h d (d + 1) (Nat.le_succ d) R (hR.mono fun _ hk => hk)

theorem complete_atomPrimary (ho : Opening (.atom .expression) xs)
    (h : Complete (.atom .expression) xs e) : Complete .primary xs e := by
  obtain ⟨x, ys, rfl, hx, -⟩ := ho
  intro d R hR
  unfold primary
  refine .current fun t ht => ?_
  have hk : Kin.expression.startsAtom t.kind = true := by
    rw [← congrArg Prod.fst ht] at hx
    exact hx
  split
  case h_5 =>
    refine .test_true (fun c hc => ?_) (h d R (hR.mono fun _ hk => hk))
    rw [startsAtom_eq Family.expression_agrees, Cursor.current_kind hc]
    exact hx
  all_goals
    rename_i hkind
    rw [hkind] at hk
    cases hk

end

/-! Declarations. -/

section

variable {d : Nat} {xs R : List Lexeme} {t : Ty Unit}

theorem complete_param {ps : List Lexeme} {p : Pattern Unit} (hp : Complete (.element .pattern) ps p)
    (ht : Complete (.element .type) xs t) :
    Complete .param
      (TokenKind.lparen.lexeme :: ps ++ TokenKind.colon.lexeme :: xs ++ [TokenKind.rparen.lexeme])
      ⟨p, t, ()⟩ := by
  intro d R hR
  unfold param
  simp only [List.append_assoc, List.cons_append]
  refine .located (.advance (by simp) fun _ _ => .bind ((hp d _ (.cons rfl (by simp))).mono
    fun hd => ?_) fun a ha => .expect rfl (by simp) fun _ _ => .bind ((ht d _
      (.cons rfl (by simp))).mono fun hd => ?_) fun b hb => .expectClosing rfl (by simp) fun _ _ =>
    .pure fun s => ?_)
  iterate 2
    simp only [List.length_cons, List.length_append]
    omega
  rw [← ha, ← hb]
  rfl

theorem complete_variant {n : String} {parts : List (List Lexeme × Ty Unit)}
    (hparts : ∀ p ∈ parts, Opening (.atom .type) p.1 ∧ Complete (.atom .type) p.1 p.2) :
    Complete .variant ((.typeIdentifier, n) :: parts.flatMap (·.1)) ⟨n, parts.map (·.2), ()⟩ := by
  intro d R hR
  unfold variant
  refine .located (.expect rfl (by simp) fun t ht => .bind_last
    (atoms_accepts (k := .type) hparts (fun hd => ?_) hR fun _ hk => hk) fun as has => .pure fun s => ?_)
  · exact Nat.lt_succ_of_lt (Nat.lt_of_succ_lt hd)
  · rw [(kind_text_of_lexeme ht).2, ← has]
    show Variant.map _ _ = _
    rfl

theorem complete_field {n : String} (ht : Complete (.element .type) xs t) :
    Complete .field ((.identifier, n) :: TokenKind.colon.lexeme :: xs) ⟨n, t, ()⟩ := by
  intro d R hR
  unfold field
  refine .located (.expect rfl (by simp) fun u hu => .expect rfl (by simp) fun _ _ => .bind_last
    ((ht d R (hR.mono fun _ hk => hk)).mono fun hd => ?_) fun a ha => .pure fun s => ?_)
  · simp only [List.length_cons]
    omega
  · rw [(kind_text_of_lexeme hu).2, ← ha]
    rfl

theorem complete_sum {parts : List (List Lexeme × Variant Unit)} (hne : parts ≠ [])
    (hparts : ∀ p ∈ parts, Complete .variant p.1 p.2) :
    Complete .typeBody (parts.flatMap (TokenKind.pipe.lexeme :: ·.1)) (.sum (parts.map (·.2))) := by
  intro d name R hR
  have hloops : ∀ p ∈ parts.map fun p => (TokenKind.pipe.lexeme :: p.1, p.2),
      Accepts.Loops (d < (parts.flatMap (TokenKind.pipe.lexeme :: ·.1)).length) (·.isAt .pipe)
        (do let _ ← advance; variant (atom .type (type d))) Variant.bare (Ends .variant) p := by
    refine List.forall_mem_map.2 fun p hp => ⟨by simp, fun ys => .cons rfl (by simp), fun ys hys => ?_,
      fun ys c hc => by simp [Cursor.isAt_of_lexemes hc]⟩
    refine .advance (by simp) fun _ _ => (hparts p hp d ys hys).mono fun hd => ?_
    have hle := length_le_flatMap_of_mem (TokenKind.pipe.lexeme :: ·.1) hp
    rw [List.length_cons] at hle
    omega
  have hmany := Accepts.many hloops (hR.mono fun k hk => by simpa [Sym.goesOn] using .inr hk) hR.ne_nil
    fun c hc => isAt_of_ends hR rfl hc
  rw [List.flatMap_map, List.map_map] at hmany
  unfold typeBody
  refine .test_true (fun c hc => ?_) (.bind_last hmany fun as has => .pure ?_)
  · obtain ⟨p, ps, rfl⟩ := List.exists_cons_of_ne_nil hne
    rw [List.flatMap_cons] at hc
    simp [Cursor.isAt_of_lexemes hc]
  · show TypeBody.map _ _ = _
    rw [TypeBody.map]
    exact congrArg TypeBody.sum has

theorem complete_product {parts : List (List Lexeme × Field Unit)} {trailing : Bool}
    (hparts : ∀ p ∈ parts, Opening .field p.1 ∧ Complete .field p.1 p.2) :
    Complete .typeBody
      (TokenKind.lbrace.lexeme :: listed TokenKind.comma.lexeme trailing (parts.map (·.1)) ++
        [TokenKind.rbrace.lexeme]) (.product (parts.map (·.2))) := by
  intro d name R hR
  unfold typeBody product
  rw [List.cons_append]
  refine .test_false (fun c hc => by simp [Cursor.isAt_of_lexemes hc]) (.test_true (fun c hc => by
    simp [Cursor.isAt_of_lexemes hc]) (.advance (by simp) fun _ _ => .bind (.commas rfl (by simp)
      fun p hp => lists_of_complete (hparts p hp).1 (by simp) rfl rfl rfl rfl (by simp) fun R hR =>
        ((hparts p hp).2 d R hR).mono fun hd => ?_) fun x hx => .expectClosing rfl (by simp)
      fun _ _ => .pure ?_))
  · have hle := length_le_listed_of_mem TokenKind.comma.lexeme trailing hp
    simp only [List.length_cons, List.length_append]
    omega
  · show TypeBody.map _ _ = _
    rw [TypeBody.map]
    exact congrArg TypeBody.product hx.1

theorem returnType_accepts {result : Option (List Lexeme × Ty Unit)} {x : Lexeme}
    (ht : ∀ p ∈ result, Completes (d < p.1.length) (type d) (.element .type) Ty.bare p.1 p.2)
    (hx : x.1 = .lbrace) :
    (returnType (type d)).Accepts (d < (result.elim [] (TokenKind.colon.lexeme :: ·.1)).length) (result.elim [] (TokenKind.colon.lexeme :: ·.1)) (x :: R)
      fun r => r.map Ty.bare = result.map (·.2) := by
  unfold returnType
  cases result with
  | none =>
    exact .test_false (fun c hc => by simp [Cursor.isAt_of_lexemes (show c.lexemes = x :: R from hc), hx])
      (.pure rfl)
  | some p =>
    have hends : Ends (.element .type) (x :: R) :=
      ⟨⟨x, R, rfl, by rw [hx]; rfl⟩, fun h => by cases h⟩
    refine .test_true (fun c hc => by simp [Cursor.isAt_of_lexemes hc]) (.advance (by simp) fun _ _ =>
      .bind_last ((ht p rfl _ hends).mono fun hd => Nat.lt_succ_of_lt hd) fun a ha => .pure ?_)
    simp [ha]

theorem opening_of_block {e : Expr Unit} {u : Lambdas} (h : Derives u .block xs e) :
    ∃ ys, xs = TokenKind.lbrace.lexeme :: ys := by
  cases h <;> exact ⟨_, rfl⟩

theorem params_accepts {deep : Prop} {params : List (List Lexeme × Param Unit)}
    (hp : ∀ p ∈ params, Opening .param p.1 ∧ Completes deep (param (pattern d) (type d)) .param
      Param.bare p.1 p.2) (hR : R ≠ []) (hstop : ∀ c : Cursor, c.lexemes = R → c.isAt .lparen = false) :
    (many (·.isAt .lparen) (param (pattern d) (type d))).Accepts deep (params.flatMap (·.1)) R
      fun ps => ps.map Param.bare = params.map (·.2) := by
  have hloops : ∀ p ∈ params, Accepts.Loops deep (·.isAt .lparen) (param (pattern d) (type d))
      Param.bare (· ≠ []) p := by
    intro p hp'
    obtain ⟨ho, hp'⟩ := hp p hp'
    have hne : p.1 ≠ [] := Opens.ne_nil ho
    refine ⟨hne, fun ys => by simp [hne], fun ys hys => hp' ys (ends_of_goesOn_eq_false (fun _ => rfl)
      hys), fun ys c hc => ?_⟩
    have hk := kind_of_opens ho hc
    exact Cursor.isAt_iff.2 (by simpa [Sym.opens] using hk)
  exact .many hloops hR hR hstop

theorem complete_fn {n : String} {params : List (List Lexeme × Param Unit)}
    {result : Option (List Lexeme × Ty Unit)} {b : Expr Unit} {ys : List Lexeme}
    (hxs : xs = TokenKind.lbrace.lexeme :: ys)
    (hp : ∀ p ∈ params, Opening .param p.1 ∧ Complete .param p.1 p.2)
    (hr : ∀ r ∈ result, Complete (.element .type) r.1 r.2) (hb : Complete .block xs b) :
    Complete .decl
      (TokenKind.kwFn.lexeme :: (.identifier, n) :: params.flatMap (·.1) ++
        result.elim [] (TokenKind.colon.lexeme :: ·.1) ++ xs)
      (.fn n (params.map (·.2)) (result.map (·.2)) b ()) := by
  intro d R hR
  show (declarationWithin _ _ _ _).Accepts _ _ _ _
  unfold declarationWithin
  simp only [List.append_assoc, List.cons_append]
  refine .current fun t ht => ?_
  rw [(kind_text_of_lexeme ht).1]
  show (fnDecl _ _ _).Accepts _ _ _ _
  unfold fnDecl
  have hstop : ∀ c : Cursor, c.lexemes =
      result.elim [] (TokenKind.colon.lexeme :: ·.1) ++ xs ++ R → c.isAt .lparen = false := by
    intro c hc
    rw [hxs] at hc
    cases result <;> simp [Cursor.isAt_of_lexemes hc]
  have hresult : (returnType (type d)).Accepts
      (d < (result.elim [] (TokenKind.colon.lexeme :: ·.1)).length)
      (result.elim [] (TokenKind.colon.lexeme :: ·.1)) (xs ++ R)
      fun r => r.map Ty.bare = result.map (·.2) := by
    rw [hxs]
    exact returnType_accepts (fun p h => hr p h d) rfl
  refine .located (.advance (by simp) fun _ _ => .expect rfl (by simp) fun t ht => .bind
    (params_accepts (fun p h => ⟨(hp p h).1, fun R hR => ((hp p h).2 d R hR).mono fun hd => ?_⟩)
      (by simp [hxs]) hstop) fun ps hps => .bind (hresult.mono fun hd => ?_) fun r hr' => .bind_last
    ((hb d d (Nat.le_refl d) R (ends_of_goesOn_eq_false (fun _ => rfl) hR.ne_nil)).mono fun hd => ?_)
    fun a ha => .pure fun s => ?_)
  · have hle := length_le_flatMap_of_mem (·.1) h
    simp only [List.length_cons, List.length_append]
    omega
  · simp only [List.length_cons, List.length_append]
    omega
  · simp only [List.length_cons, List.length_append]
    omega
  · rw [(kind_text_of_lexeme ht).2, ← hps, ← hr', ← ha]
    rfl

theorem complete_typeDecl {n : String} {params : List String} {b : TypeBody Unit}
    (hb : Complete .typeBody xs b) :
    Complete .decl
      (TokenKind.kwType.lexeme :: (.typeIdentifier, n) :: params.map (.identifier, ·) ++
        TokenKind.assign.lexeme :: xs) (.type n params b ()) := by
  intro d R hR
  show (declarationWithin _ _ _ _).Accepts _ _ _ _
  unfold declarationWithin
  simp only [List.cons_append]
  refine .current fun t ht => ?_
  rw [(kind_text_of_lexeme ht).1]
  show (typeDecl _ _).Accepts _ _ _ _
  unfold typeDecl
  refine .located (.advance (by simp) fun _ _ => .expect rfl (by simp) fun t ht => .bind
    (names_accepts (by simp)) fun ns hns => .expect rfl (by simp) fun _ _ => .bind_last
    ((hb d _ R (hR.mono fun _ hk => hk)).mono fun hd => ?_) fun a ha => .pure fun s => ?_)
  · simp only [List.length_cons, List.length_append]
    omega
  · rw [(kind_text_of_lexeme ht).2, hns, ← ha]
    rfl

theorem complete_program {parts : List (List Lexeme × Decl Unit)}
    (hparts : ∀ p ∈ parts, Opening .decl p.1 ∧ Complete .decl p.1 p.2) :
    Complete .program (parts.flatMap (·.1)) ⟨parts.map (·.2), ()⟩ := by
  intro d R hR
  have hkind : ∀ c : Cursor, c.lexemes = R → c.current.kind = .eof := fun c hc => by
    simpa [Sym.goesOn] using kind_of_ends hR hc
  have hloops : ∀ p ∈ parts, Accepts.Loops (d < (parts.flatMap (·.1)).length) (!·.isAt .eof)
      (declaration d) Decl.bare (Ends .decl) p := by
    intro p hp
    obtain ⟨ho, hp'⟩ := hparts p hp
    refine ⟨Opens.ne_nil ho, fun ys => ?_, fun ys hys => (hp' d ys hys).mono fun hd =>
      Nat.lt_of_lt_of_le hd (length_le_flatMap_of_mem _ hp), fun ys c hc => ?_⟩
    · obtain ⟨x, zs, h, hx, -⟩ := ho
      rw [h]
      refine .cons ?_ fun hk => ?_
      · cases hk : x.1 <;> first | rfl | (rw [hk] at hx; cases hx)
      · rw [hk] at hx
        cases hx
    · have hk := kind_of_opens ho hc
      rw [Cursor.isAt]
      cases h : c.current.kind <;> first | rfl | (rw [h] at hk; cases hk)
  unfold program
  refine .bind_last (.many hloops (hR.mono fun k hk => ?_) hR.ne_nil fun c hc => ?_) fun ds hds => ?_
  · cases k <;> first | rfl | cases hk
  · simp [Cursor.isAt, hkind c hc]
  · refine fun file c hc hx => .inl ⟨_, c, rfl, hc, hx, ?_⟩
    rw [← hds]
    rfl

end

/-- The parser accepts every phrase of the grammar, if lambdas stand only as whole expressions. -/
theorem complete_of_derives {u : Lambdas} (hu : u ≠ .anywhere) {s : Sym} {xs : List Lexeme}
    {t : s.Node} (h : Derives u s xs t) : Complete s xs t := by
  have opened : ∀ {s : Sym} {parts : List (List Lexeme × s.Node)}, (∀ p ∈ parts, Derives u s p.1 p.2) →
      (∀ p ∈ parts, Complete s p.1 p.2) → ∀ p ∈ parts, Opening s p.1 ∧ Complete s p.1 p.2 :=
    fun h ih p hp => ⟨(h p hp).opening, ih p hp⟩
  induction h with
  | wildcard f =>
    exact complete_leaf (by simp) (fun _ _ => leaf_accepts_wildcard) fun s =>
      f.agrees.leaf _ _ (by simp)
  | number f digits hd hl hv =>
    exact complete_leaf (by simp) (fun _ _ => leaf_accepts_number hd hl hv) fun s =>
      f.agrees.leaf _ _ (by simp)
  | boolean f hf b =>
    exact complete_leaf (by simp) (fun _ _ => leaf_accepts_boolean (f.agrees.booleans.2 hf) b)
      fun s => f.agrees.leaf _ _ (by simp)
  | lowerName f n hn =>
    exact complete_leaf (by simp) (fun _ _ => leaf_accepts_name (.inl rfl)) fun s =>
      f.agrees.lowerName _ _ hn
  | upperName f n hn =>
    exact complete_leaf (by simp) (fun _ _ => leaf_accepts_name (.inr rfl)) fun s =>
      f.agrees.upperName _ _ hn
  | unit f => exact complete_unit
  | group f h ih => exact complete_group h.opening ih
  | tuple f parts trailing hp h ih =>
    exact complete_tuple hp (opened (s := .element f) h ih)
  | construct n parts h ih => exact complete_construct (opened (s := .atom .pattern) h ih)
  | atomicPattern h ih => exact complete_atomicPattern h ih
  | quantified binders _ ih => exact complete_quantified ih
  | arrow hd _ ihd ihc =>
    exact complete_arrow hd.opening ihd ihc
  | plainType h ih => exact complete_plainType h.opening ih
  | applyType n parts hp h ih => exact complete_applyType hp (opened (s := .atom .type) h ih)
  | atomicType h ih => exact complete_atomicType h ih
  | ascribe he _ ihe iht => exact complete_ascribe he.opening ihe iht
  | plain h ih => exact complete_plain h.opening ih
  | wholeLambda _ n _ ih => exact complete_wholeLambda ih
  | additive parts _ ho _ ihe ih => exact complete_additive ihe ho ih
  | multiplicative parts _ ho _ ihe ih => exact complete_multiplicative ihe ho ih
  | application parts he h ihe ih => exact complete_application ihe (opened (s := .argument) h ih)
  | argument parts he h ihe ih => exact complete_argument ihe fun p hp => ⟨h p hp, ih p hp⟩
  | operand parts he h ihe ih => exact complete_operand ihe fun p hp => ⟨h p hp, ih p hp⟩
  | access n => exact complete_access n
  | record parts trailing hp h ih => exact complete_record (opened (s := .fieldValue) h ih)
  | fieldValue n _ ih => exact complete_fieldValue ih
  | lambda hu' _ _ _ => exact absurd hu' hu
  | ifLet hp he ht hl ihp ihe iht ihl =>
    exact complete_ifLet ihp ihe (fun _ => ends_of_block ht) iht ihl
  | caseOf parts trailing he h ihe ih => exact complete_caseOf ihe (opened (s := .clause) h ih)
  | blockPrimary h ih => exact complete_blockPrimary h.opening ih
  | atomPrimary h ih => exact complete_atomPrimary h.opening ih
  | clause _ _ ihp ihe => exact complete_clause ihp ihe
  | emptyBlock => exact complete_emptyBlock
  | block parts trailing hp h ih => exact complete_block hp (opened (s := .statement) h ih)
  | bind _ _ ihp ihe => exact complete_bind ihp ihe
  | expr h ih => exact complete_expr h.opening ih
  | param _ _ ihp iht => exact complete_param ihp iht
  | variant n parts h ih => exact complete_variant (opened (s := .atom .type) h ih)
  | field n _ ih => exact complete_field ih
  | sum parts hp _ ih => exact complete_sum hp ih
  | product parts trailing h ih => exact complete_product (opened (s := .field) h ih)
  | fn n params result hp hr hb ihp ihr ihb =>
    obtain ⟨ys, hys⟩ := opening_of_block hb
    exact complete_fn hys (opened (s := .param) hp ihp) ihr ihb
  | type n params _ ih => exact complete_typeDecl ih
  | program parts h ih => exact complete_program (opened (s := .decl) h ih)

end Parser
end TinyFront
