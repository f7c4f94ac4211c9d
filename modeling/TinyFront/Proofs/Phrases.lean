import TinyFront.Proofs.Covers

/-!
Phrases without expressions in them. Main statement: whatever is read as a pattern, a type or a part of
a declaration has each pair that the layout of that tree needs, around the same words.
-/
namespace TinyFront

open Grammar

namespace Forest

/-- All pairs are needed ones. -/
def Firm : Forest → Prop
  | nil => True
  | word _ rest | unit rest => rest.Firm
  | pair r i rest => r = .needed ∧ i.Firm ∧ rest.Firm

@[simp] theorem firm_append {f g : Forest} : (f ++ g).Firm ↔ f.Firm ∧ g.Firm := by
  induction f with
  | nil => simp [Firm]
  | word w f ih | unit f ih => exact ih
  | pair r i f _ ih => simp [Firm, ih, and_assoc]

/-- The forest has the lexemes' words and pairs, all needed, and covers the other one. -/
structure Draws (f : Forest) (xs : List Lexeme) (g : Forest) : Prop where
  firm : f.Firm
  signs : f.signs = xs.map Lexeme.sign
  covers : f.Covers g

namespace Draws

variable {f f' g g' : Forest} {xs ys : List Lexeme} {x : Lexeme} {w : Word}

theorem nil : Draws nil [] nil := ⟨trivial, rfl, .nil⟩

theorem append (h : f.Draws xs g) (h' : f'.Draws ys g') : (f ++ f').Draws (xs ++ ys) (g ++ g') :=
  ⟨firm_append.2 ⟨h.firm, h'.firm⟩, by rw [signs_append, h.signs, h'.signs, List.map_append],
    h.covers.append h'.covers⟩

theorem word (hx : x.sign = .word w) (h : f.Draws xs g) :
    (Forest.word w f).Draws (x :: xs) (.word w g) :=
  ⟨h.firm, by rw [Forest.signs, h.signs, List.map_cons, hx], h.covers.word w⟩

theorem single (hx : x.sign = .word w) : (single w).Draws [x] (.single w) := nil.word hx

theorem signs_pair (h : f.Draws xs g) : (Forest.enclosed .needed f).signs =
    (TokenKind.lparen.lexeme :: xs ++ [TokenKind.rparen.lexeme]).map Lexeme.sign := by
  simp [h.signs, Lexeme.sign, TokenKind.sign]

theorem enclosed (hf : 0 < f.weight) (h : f.Draws xs g) : (Forest.enclosed .needed f).Draws
    (TokenKind.lparen.lexeme :: xs ++ [TokenKind.rparen.lexeme]) (.enclosed .needed g) :=
  ⟨⟨rfl, h.firm, trivial⟩, h.signs_pair, h.covers.enclosed .needed hf⟩

theorem around (hf : 0 < f.weight) (h : f.Draws xs g) : (Forest.enclosed .needed f).Draws
    (TokenKind.lparen.lexeme :: xs ++ [TokenKind.rparen.lexeme]) g :=
  ⟨⟨rfl, h.firm, trivial⟩, h.signs_pair, h.covers.around .needed hf⟩

end Draws
end Forest

/-- The lexemes of a phrase have the words and the needed pairs of the forest. -/
def Drawn (xs : List Lexeme) (g : Forest) : Prop :=
  ∃ f : Forest, f.Draws xs g ∧ 0 < f.weight ∧ f.Solid

namespace Drawn

variable {f g : Forest} {xs ys : List Lexeme} {x : Lexeme} {w : Word}

theorem single (hx : x.sign = .word w) (hw : w.ends = true) : Drawn [x] (.single w) :=
  ⟨_, .single hx, (by cases w <;> first | decide | cases hw), .single hw⟩

theorem word (hx : x.sign = .word w) : Drawn xs g → Drawn (x :: xs) (.word w g)
  | ⟨f, h, hf, hs⟩ => ⟨_, h.word hx, by rw [Forest.weight]; omega, hs.word w⟩

theorem append (hf : f.Draws xs g) : Drawn ys g' → Drawn (xs ++ ys) (g ++ g')
  | ⟨f', h, hf', hs⟩ => ⟨_, hf.append h, by rw [Forest.weight_append]; omega, hs.append f⟩

theorem enclosed : Drawn xs g →
    Drawn (TokenKind.lparen.lexeme :: xs ++ [TokenKind.rparen.lexeme]) (.enclosed .needed g)
  | ⟨f, h, hf, hs⟩ => ⟨_, h.enclosed hf, by simpa using hf, hs.enclosed .needed⟩

theorem around : Drawn xs g → Drawn (TokenKind.lparen.lexeme :: xs ++ [TokenKind.rparen.lexeme]) g
  | ⟨f, h, hf, hs⟩ => ⟨_, h.around hf, by simpa using hf, hs.enclosed .needed⟩

theorem append_row (hf : f.Draws ys g') (hends : f.plain.ends true = true) :
    Drawn xs g → Drawn (xs ++ ys) (g ++ g')
  | ⟨f', h, hf', hs⟩ => ⟨_, h.append hf, by rw [Forest.weight_append]; omega, fun b => by
      rw [Forest.plain_append, Forest.ends_append, hs, hends]⟩

theorem of_enclosed {r : Reason} : Drawn xs (.enclosed r g) → Drawn xs g
  | ⟨f, h, hf, hs⟩ => ⟨f, ⟨h.firm, h.signs, h.covers.of_enclosed⟩, hf, hs⟩

section

variable {α : Type} {k : α → Forest} {parts : List (List Lexeme × α)}
  (h : ∀ p ∈ parts, Drawn p.1 (k p.2))

include h

theorem row : ∃ f : Forest, f.Draws (parts.flatMap (·.1)) (.row (parts.map fun p => k p.2)) ∧
    f.plain.ends true = true := by
  induction parts with
  | nil => exact ⟨.nil, .nil, rfl⟩
  | cons p ps ih =>
    obtain ⟨⟨f, hf, -, hs⟩, hps⟩ := List.forall_mem_cons.1 h
    obtain ⟨f', hf', hends⟩ := ih hps
    refine ⟨f ++ f', by simpa [Forest.row] using hf.append hf', ?_⟩
    rw [Forest.plain_append, Forest.ends_append, hs, hends]

theorem row_behind (hx : x.sign = .word .ender) :
    Drawn (x :: parts.flatMap (·.1)) (.word .ender (.row (parts.map fun p => k p.2))) := by
  obtain ⟨f, hf, hends⟩ := row h
  exact (single hx rfl).append_row hf hends

theorem listed {s : Lexeme} (hsep : s.sign = .word .separator) (trailing : Bool) :
    ∃ f : Forest, f.Draws (listed s trailing (parts.map (·.1)))
      (.separated (parts.map fun p => k p.2)) ∧ (parts ≠ [] → 0 < f.weight) := by
  induction parts with
  | nil => exact ⟨.nil, .nil, by simp⟩
  | cons p ps ih =>
    obtain ⟨⟨f, hf, hpos, -⟩, hps⟩ := List.forall_mem_cons.1 h
    cases ps with
    | nil =>
      cases trailing with
      | false => exact ⟨f, by simpa [Grammar.listed, Forest.separated] using hf, fun _ => hpos⟩
      | true =>
        refine ⟨f ++ .single .separator, ?_, fun _ => by rw [Forest.weight_append]; omega⟩
        have hall := hf.append (.single hsep)
        refine ⟨hall.firm, by simpa [Grammar.listed] using hall.signs, ?_⟩
        have hcovers := hf.covers.append (Forest.Covers.nil.separator_left)
        simpa [Forest.separated, Forest.single] using hcovers
    | cons q qs =>
      obtain ⟨f', hf', -⟩ := ih hps
      refine ⟨f ++ .word .separator f', ?_, fun _ => by rw [Forest.weight_append]; omega⟩
      exact hf.append (hf'.word hsep)

theorem tuple (trailing : Bool) (hp : parts ≠ []) :
    Drawn (TokenKind.lparen.lexeme :: Grammar.listed TokenKind.comma.lexeme trailing
      (parts.map (·.1)) ++ [TokenKind.rparen.lexeme]) (.tuple (parts.map fun p => k p.2)) := by
  obtain ⟨f, hf, hpos⟩ := listed h (s := TokenKind.comma.lexeme) rfl trailing
  have hall : Drawn (TokenKind.lparen.lexeme :: Grammar.listed TokenKind.comma.lexeme trailing
      (parts.map (·.1)) ++ [TokenKind.rparen.lexeme])
      (.enclosed .needed (.separated (parts.map fun p => k p.2))) :=
    ⟨_, hf.enclosed (hpos hp), by simpa using hpos hp, fun _ => rfl⟩
  rcases parts with _ | ⟨p, _ | ⟨q, qs⟩⟩
  · contradiction
  · refine ⟨_, ⟨(hf.enclosed (hpos hp)).firm, (hf.enclosed (hpos hp)).signs, ?_⟩,
      by simpa using hpos hp, fun _ => rfl⟩
    have hcovers := hf.covers.append (Forest.Covers.nil.separator_right)
    rw [Forest.append_nil] at hcovers
    exact hcovers.enclosed .needed (hpos hp)
  · exact hall

end

end Drawn

theorem Leaf.drawn_word {x : Lexeme} {l : Leaf} (hx : x.sign = .word .ender) (hl : l ≠ .unit) :
    Drawn [x] l.nests := by
  cases l <;> first | exact .single hx rfl | contradiction

theorem Leaf.drawn_unit : Drawn [TokenKind.lparen.lexeme, TokenKind.rparen.lexeme] Leaf.unit.nests :=
  ⟨.unit .nil, ⟨trivial, rfl, Forest.Covers.nil.unit⟩, by decide, fun _ => rfl⟩

theorem Pattern.nests_nested (p : Pattern Unit) :
    p.nests true = p.nests false ∨ p.nests true = .enclosed .needed (p.nests false) := by
  cases p with
  | leaf l s => exact .inl rfl
  | tuple ps s => exact .inl rfl
  | constructor n ps s =>
    cases ps with
    | nil => exact .inl rfl
    | cons p ps => exact .inr (by rw [nests, nests] <;> simp)

theorem Pattern.drawn_nested {xs : List Lexeme} {p : Pattern Unit} (h : Drawn xs (p.nests true)) :
    Drawn xs (p.nests false) := by
  rcases p.nests_nested with hp | hp
  · rwa [hp] at h
  · rw [hp] at h
    exact h.of_enclosed

/-- A type in another place is the type as a whole, in parentheses or not. -/
theorem Ty.nests_context (t : Ty Unit) (context : TypeContext) :
    t.nests context = t.nests .top ∨ t.nests context = .enclosed .needed (t.nests .top) := by
  cases t with
  | leaf l s | tuple ts s | var n s => exact .inl (by rw [nests, nests])
  | app n ts s => cases context <;> simp [nests]
  | arrow d c s | quantified bs t s => cases context <;> simp [nests]

theorem Ty.nests_domain (t : Ty Unit) : t.nests .domain = t.nests .argument ∨
    t.nests .argument = .enclosed .needed (t.nests .domain) := by
  cases t with
  | app n ts s => exact .inr (by simp [nests])
  | leaf l s | tuple ts s | var n s | arrow d c s | quantified bs t s => exact .inl (by simp [nests])

theorem Ty.drawn_top {xs : List Lexeme} {t : Ty Unit} {c : TypeContext} (h : Drawn xs (t.nests c)) :
    Drawn xs (t.nests .top) := by
  rcases t.nests_context c with ht | ht
  · rwa [ht] at h
  · rw [ht] at h
    exact h.of_enclosed

theorem Ty.drawn_domain {xs : List Lexeme} {t : Ty Unit} (h : Drawn xs (t.nests .argument)) :
    Drawn xs (t.nests .domain) := by
  rcases t.nests_domain with ht | ht
  · rwa [ht]
  · rw [ht] at h
    exact h.of_enclosed

/-- What stands behind the bar of a constructor. -/
def Variant.drawing (v : Variant Unit) : Forest :=
  .word .ender (.row (v.args.map (Ty.nests .argument)))

namespace Grammar

/-- What a phrase of a sort without expressions is drawn as. -/
def Sym.Drawn : (s : Sym) → List Lexeme → s.Node → Prop
  | .element .pattern, xs, p => TinyFront.Drawn xs (p.nests false)
  | .atom .pattern, xs, p => TinyFront.Drawn xs (p.nests true)
  | .element .type, xs, t => TinyFront.Drawn xs (t.nests .top)
  | .typeApplication, xs, t => TinyFront.Drawn xs (t.nests .domain)
  | .atom .type, xs, t => TinyFront.Drawn xs (t.nests .argument)
  | .param, xs, p => TinyFront.Drawn xs p.nests
  | .variant, xs, v => TinyFront.Drawn xs v.drawing
  | .field, xs, d => TinyFront.Drawn xs d.nests
  | .typeBody, xs, b => TinyFront.Drawn xs b.nests
  | .decl, xs, d => ∀ n ps b, d = .type n ps b () → TinyFront.Drawn xs d.nests
  | _, _, _ => True

theorem drawn_atom_word {f : Kin} {l : Leaf} {x : Lexeme} (hx : x.sign = .word .ender)
    (hl : l ≠ .unit) : Sym.Drawn (.atom f) [x] (f.ofLeaf l) := by
  cases f <;> first | trivial | exact Leaf.drawn_word hx hl

theorem drawn_names (ns : List String) : Forest.Draws
    (.row (ns.map fun _ => .single .ender)) (ns.map (TokenKind.identifier, ·))
    (.row (ns.map fun _ => .single .ender)) := by
  induction ns with
  | nil => exact .nil
  | cons n ns ih => exact ih.word rfl

theorem Derives.drawn {u : Lambdas} {s : Sym} {xs : List Lexeme} {t : s.Node}
    (h : Derives u s xs t) : s.Drawn xs t := by
  induction h with
  | wildcard f => exact drawn_atom_word rfl (by simp)
  | number f => exact drawn_atom_word rfl (by simp)
  | boolean f => exact drawn_atom_word rfl (by simp)
  | lowerName f n | upperName f n => cases f <;> first | trivial | exact .single rfl rfl
  | unit f => cases f <;> first | trivial | exact Leaf.drawn_unit
  | @group f xs e h ih =>
    cases f with
    | expression => trivial
    | pattern =>
      show TinyFront.Drawn _ (e.nests true)
      rcases e.nests_nested with hp | hp
      · rw [hp]
        exact ih.around
      · rw [hp]
        exact ih.enclosed
    | type =>
      show TinyFront.Drawn _ (e.nests .argument)
      rcases e.nests_context .argument with ht | ht
      · rw [ht]
        exact ih.around
      · rw [ht]
        exact ih.enclosed
  | tuple f parts trailing hp h ih =>
    have hne : parts ≠ [] := by
      rintro rfl
      simp at hp
    cases f with
    | expression => trivial
    | pattern =>
      show TinyFront.Drawn _ ((Pattern.tuple (parts.map (·.2)) ()).nests true)
      rw [Pattern.nests, Pattern.nestsAll_eq_map, List.map_map]
      exact TinyFront.Drawn.tuple (k := Pattern.nests false) ih trailing hne
    | type =>
      show TinyFront.Drawn _ ((Ty.tuple (parts.map (·.2)) ()).nests .argument)
      rw [Ty.nests, Ty.nestsAll_eq_map, List.map_map]
      exact TinyFront.Drawn.tuple (k := Ty.nests .top) ih trailing hne
  | construct n parts h ih =>
    show TinyFront.Drawn _ ((Pattern.constructor n (parts.map (·.2)) ()).nests false)
    have hrow := TinyFront.Drawn.row_behind (k := Pattern.nests true) ih
      (x := (.typeIdentifier, n)) rfl
    cases parts with
    | nil => exact .single rfl rfl
    | cons p ps =>
      rw [List.map_cons, Pattern.nests, ← List.map_cons, Pattern.nestsAll_eq_map, List.map_map]
      · exact hrow
      · simp
  | atomicPattern _ ih => exact Pattern.drawn_nested ih
  | quantified binders _ ih =>
    show TinyFront.Drawn _ (Ty.nests .top _)
    rw [Ty.nests]
    exact (TinyFront.Drawn.append (drawn_names binders) (ih.word rfl)).word rfl
  | arrow _ _ ihd ihc =>
    show TinyFront.Drawn _ (Ty.nests .top _)
    rw [Ty.nests]
    obtain ⟨f, hf, -⟩ := ihd
    exact TinyFront.Drawn.append hf (ihc.word rfl)
  | plainType _ ih => exact Ty.drawn_top (c := .domain) ih
  | applyType n parts hp h ih =>
    show TinyFront.Drawn _ ((Ty.app n (parts.map (·.2)) ()).nests .domain)
    rw [Ty.nests, Ty.nestsAll_eq_map, List.map_map]
    exact TinyFront.Drawn.row_behind (k := Ty.nests .argument) ih rfl
  | atomicType _ ih => exact Ty.drawn_domain ih
  | param _ _ ihp iht =>
    obtain ⟨f, hf, -⟩ := ihp
    exact (TinyFront.Drawn.append hf (iht.word rfl)).enclosed
  | variant n parts h ih =>
    show TinyFront.Drawn _ (Variant.drawing _)
    rw [Variant.drawing, List.map_map]
    exact TinyFront.Drawn.row_behind (k := Ty.nests .argument) ih rfl
  | field n _ ih => exact (ih.word rfl).word rfl
  | sum parts hp _ ih =>
    have hbars : ∀ p ∈ parts, TinyFront.Drawn (TokenKind.pipe.lexeme :: p.1) p.2.nests :=
      fun p hp => (ih p hp).word rfl
    show TinyFront.Drawn _ (TypeBody.nests _)
    rw [TypeBody.nests, List.map_map]
    rcases parts with _ | ⟨p, ps⟩
    · contradiction
    · obtain ⟨hbar, hbars⟩ := List.forall_mem_cons.1 hbars
      have hrest : ∀ q ∈ ps.map fun p => (TokenKind.pipe.lexeme :: p.1, p.2),
          TinyFront.Drawn q.1 q.2.nests := List.forall_mem_map.2 hbars
      obtain ⟨f, hf, hends⟩ := TinyFront.Drawn.row hrest
      rw [List.flatMap_map, List.map_map] at hf
      exact hbar.append_row hf hends
  | product parts trailing _ ih =>
    obtain ⟨f, hf, -⟩ := TinyFront.Drawn.listed (k := Field.nests) ih
      (s := TokenKind.comma.lexeme) rfl trailing
    show TinyFront.Drawn _ (TypeBody.nests _)
    rw [TypeBody.nests, List.map_map]
    exact (TinyFront.Drawn.append hf (.single rfl rfl)).word rfl
  | fn => rintro _ _ _ h; cases h
  | type n params _ ih =>
    intro _ _ _ _
    exact ((TinyFront.Drawn.append (drawn_names params) (ih.word rfl)).word rfl).word rfl
  | _ => trivial

end Grammar
end TinyFront
