import TinyFront.Proofs.Grammar

/-!
How phrases open. Main statement: the first lexeme of a phrase is one that its sort allows there,
and the second one is no equals sign unless the phrase is a field value. So a brace that opens a
block or a list of clauses is never taken for that of a record.
-/
namespace TinyFront.Grammar

def Kin.startsAtom (f : Kin) : TokenKind → Bool
  | .underscore | .integer | .identifier | .typeIdentifier | .lparen => true
  | .boolean => f != .type
  | _ => false

def startsPrimary : TokenKind → Bool
  | .kwIf | .kwMatch | .lbrace | .pipe => true
  | k => Kin.expression.startsAtom k

/-- The kinds with which a phrase of the sort may open; a program need not have any lexeme. -/
def Sym.opens : Sym → TokenKind → Bool
  | element .expression | additive | multiplicative | application | operand | primary =>
    startsPrimary
  | element .pattern | atom .pattern | clause => Kin.pattern.startsAtom
  | element .type => fun k => k == .kwForall || Kin.type.startsAtom k
  | atom .type | typeApplication => Kin.type.startsAtom
  | atom .expression | argument => Kin.expression.startsAtom
  | suffix => fun k => k == .dot || k == .lbrace
  | fieldValue | field => (· == .identifier)
  | block => (· == .lbrace)
  | statement => fun k => k == .kwLet || startsPrimary k
  | param => (· == .lparen)
  | variant => (· == .typeIdentifier)
  | typeBody => fun k => k == .pipe || k == .lbrace
  | decl => fun k => k == .kwFn || k == .kwType
  | program => fun _ => true

/-- The first lexeme, if there is one, is no equals sign. -/
def NoAssign (xs : List Lexeme) : Prop := ∀ x ∈ xs.head?, x.1 ≠ .assign

theorem noAssign_nil : NoAssign [] := by simp [NoAssign]

theorem noAssign_cons {x : Lexeme} {xs : List Lexeme} (h : x.1 ≠ .assign) : NoAssign (x :: xs) := by
  simpa [NoAssign] using h

theorem noAssign_append {xs ys : List Lexeme} (h : NoAssign xs) (hne : xs ≠ []) :
    NoAssign (xs ++ ys) := by
  cases xs with
  | nil => contradiction
  | cons x xs => exact h

theorem noAssign_flatMap {α : Type} {parts : List α} {lexemes : α → List Lexeme}
    (h : ∀ p ∈ parts, NoAssign (lexemes p) ∧ lexemes p ≠ []) : NoAssign (parts.flatMap lexemes) := by
  cases parts with
  | nil => exact noAssign_nil
  | cons p ps =>
    obtain ⟨hp, hne⟩ := h p (List.mem_cons_self ..)
    exact noAssign_append hp hne

theorem noAssign_listed {α : Type} {parts : List α} {lexemes : α → List Lexeme}
    {separator closer : Lexeme} {trailing : Bool}
    (h : ∀ p ∈ parts, NoAssign (lexemes p) ∧ lexemes p ≠ []) (hc : closer.1 ≠ .assign) :
    NoAssign (listed separator trailing (parts.map lexemes) ++ [closer]) := by
  rcases parts with _ | ⟨p, _ | ⟨q, ps⟩⟩
  · exact noAssign_cons hc
  · obtain ⟨hp, hne⟩ := h p (List.mem_cons_self ..)
    rw [List.map_singleton, listed, List.append_assoc]
    exact noAssign_append hp hne
  · obtain ⟨hp, hne⟩ := h p (List.mem_cons_self ..)
    rw [List.map_cons, List.map_cons, listed, List.append_assoc]
    · exact noAssign_append hp hne
    · simp

/-- The lexemes begin with one of the given kinds, and no equals sign follows it. -/
def Opens (first : TokenKind → Bool) (xs : List Lexeme) : Prop :=
  ∃ x ys, xs = x :: ys ∧ first x.1 = true ∧ NoAssign ys

namespace Opens

variable {f g : TokenKind → Bool} {xs ys : List Lexeme}

theorem mono (h : Opens f xs) (hfg : ∀ k, f k = true → g k = true) : Opens g xs := by
  obtain ⟨x, ys, rfl, hx, hy⟩ := h
  exact ⟨x, ys, rfl, hfg _ hx, hy⟩

theorem ne_nil (h : Opens f xs) : xs ≠ [] := by
  obtain ⟨x, ys, rfl, -⟩ := h
  simp

theorem noAssign (h : Opens f xs) (hf : f .assign = false) : NoAssign xs ∧ xs ≠ [] := by
  refine ⟨?_, h.ne_nil⟩
  obtain ⟨x, ys, rfl, hx, -⟩ := h
  refine noAssign_cons fun he => ?_
  rw [he, hf] at hx
  cases hx

theorem cons {x : Lexeme} (hx : f x.1 = true) (hy : NoAssign ys) : Opens f (x :: ys) :=
  ⟨x, ys, rfl, hx, hy⟩

theorem append (h : Opens f xs) (hy : NoAssign ys) : Opens f (xs ++ ys) := by
  obtain ⟨x, xs, rfl, hx, hxs⟩ := h
  refine ⟨x, xs ++ ys, rfl, hx, ?_⟩
  cases xs with
  | nil => exact hy
  | cons x' xs => exact hxs

end Opens

/-- A phrase opens as its sort allows. -/
def Opening (s : Sym) (xs : List Lexeme) : Prop :=
  match s with
  | .program => True
  | .fieldValue => ∃ n ys, xs = (TokenKind.identifier, n) :: ys
  | s => Opens s.opens xs

theorem opening_atom {f : Kin} {xs : List Lexeme} :
    Opening (.atom f) xs ↔ Opens f.startsAtom xs := by cases f <;> rfl

theorem noAssign_of_opening {s : Sym} (hs : s ≠ .program) {xs : List Lexeme} (h : Opening s xs) :
    NoAssign xs ∧ xs ≠ [] := by
  cases s with
  | program => contradiction
  | fieldValue =>
    obtain ⟨n, ys, rfl⟩ := h
    exact ⟨noAssign_cons (by simp), by simp⟩
  | element k => cases k <;> exact Opens.noAssign h rfl
  | atom k => cases k <;> exact Opens.noAssign h rfl
  | _ => exact Opens.noAssign h rfl

theorem startsPrimary_of_startsAtom {k : TokenKind} (h : Kin.expression.startsAtom k = true) :
    startsPrimary k = true := by
  cases k <;> first | rfl | exact h

theorem noAssign_operations {parts : List (Operator × List Lexeme × Expr Unit)} :
    NoAssign (parts.flatMap operation) :=
  noAssign_flatMap fun p _ => ⟨noAssign_cons (by cases p.1 <;> simp [Operator.lexeme, Operator.kind]),
    by simp [operation]⟩

theorem Derives.opening {use : Lambdas} {s : Sym} {xs : List Lexeme} {t : s.Node}
    (h : Derives use s xs t) : Opening s xs := by
  have some_parts : ∀ {s : Sym} {parts : List (List Lexeme × s.Node)}, s ≠ .program →
      (∀ p ∈ parts, Opening s p.1) → ∀ p ∈ parts, NoAssign p.1 ∧ p.1 ≠ [] :=
    fun hs h p hp => noAssign_of_opening hs (h p hp)
  induction h with
  | wildcard f => exact opening_atom.2 (.cons (by cases f <;> rfl) noAssign_nil)
  | number f => exact opening_atom.2 (.cons (by cases f <;> rfl) noAssign_nil)
  | boolean f hf =>
    exact opening_atom.2 (.cons (by cases f <;> simp_all [Kin.startsAtom]) noAssign_nil)
  | lowerName f => exact opening_atom.2 (.cons (by cases f <;> rfl) noAssign_nil)
  | upperName f => exact opening_atom.2 (.cons (by cases f <;> rfl) noAssign_nil)
  | unit f => exact opening_atom.2 (.cons (by cases f <;> rfl) (noAssign_cons (by simp)))
  | group f _ ih =>
    obtain ⟨h, hne⟩ := noAssign_of_opening (by simp) ih
    exact opening_atom.2 (.cons (by cases f <;> rfl) (noAssign_append h hne))
  | tuple f parts trailing _ _ ih =>
    exact opening_atom.2 (.cons (by cases f <;> rfl)
      (noAssign_listed (some_parts (s := .element f) (by simp) ih) (by simp)))
  | construct n parts _ ih =>
    exact .cons rfl (noAssign_flatMap (some_parts (s := .atom .pattern) (by simp) ih))
  | atomicPattern _ ih => exact ih
  | quantified binders _ _ =>
    refine .cons rfl ?_
    cases binders <;> exact noAssign_cons (by simp)
  | arrow _ _ ih _ =>
    exact (ih.mono fun k hk => by simp_all [Sym.opens]).append (noAssign_cons (by simp))
  | plainType _ ih => exact ih.mono fun k hk => by simp_all [Sym.opens]
  | applyType n parts _ _ ih =>
    exact .cons rfl (noAssign_flatMap (some_parts (s := .atom .type) (by simp) ih))
  | atomicType _ ih => exact ih
  | ascribe _ _ ih _ => exact ih.append (noAssign_cons (by simp))
  | plain _ ih => exact ih
  | wholeLambda _ n _ _ => exact .cons rfl (noAssign_cons (by simp))
  | additive parts _ _ _ ih _ => exact ih.append noAssign_operations
  | multiplicative parts _ _ _ ih _ => exact ih.append noAssign_operations
  | application parts _ _ ih ih' =>
    exact ih.append (noAssign_flatMap (some_parts (s := .argument) (by simp) ih'))
  | argument parts _ _ ih ih' =>
    exact ih.append (noAssign_flatMap (some_parts (s := .suffix) (by simp) ih'))
  | operand parts _ _ ih ih' =>
    exact ih.append (noAssign_flatMap (some_parts (s := .suffix) (by simp) ih'))
  | access n => exact .cons rfl (noAssign_cons (by simp))
  | record parts trailing hp _ ih =>
    exact .cons rfl (noAssign_listed (some_parts (s := .fieldValue) (by simp) ih) (by simp))
  | fieldValue n _ _ => exact ⟨n, _, rfl⟩
  | lambda _ n _ _ => exact .cons rfl (noAssign_cons (by simp))
  | ifLet _ _ _ _ _ _ _ _ => exact .cons rfl (noAssign_cons (by simp))
  | caseOf parts trailing _ _ ih _ =>
    obtain ⟨h, hne⟩ := noAssign_of_opening (by simp) ih
    simp only [List.cons_append, List.append_assoc]
    exact .cons rfl (noAssign_append h hne)
  | blockPrimary _ ih =>
    refine ih.mono fun k hk => ?_
    obtain rfl : k = .lbrace := by simpa [Sym.opens] using hk
    rfl
  | atomPrimary _ ih => exact ih.mono fun _ => startsPrimary_of_startsAtom
  | clause _ _ ih _ => exact ih.append (noAssign_cons (by simp))
  | emptyBlock => exact .cons rfl (noAssign_cons (by simp))
  | block parts trailing hp _ ih =>
    exact .cons rfl (noAssign_listed (some_parts (s := .statement) (by simp) ih) (by simp))
  | bind _ _ ih _ =>
    obtain ⟨h, hne⟩ := noAssign_of_opening (by simp) ih
    exact .cons rfl (noAssign_append h hne)
  | expr _ ih => exact ih.mono fun k hk => by simp_all [Sym.opens]
  | param _ _ ih _ =>
    obtain ⟨h, hne⟩ := noAssign_of_opening (by simp) ih
    simp only [List.cons_append, List.append_assoc]
    exact .cons rfl (noAssign_append h hne)
  | variant n parts _ ih =>
    exact .cons rfl (noAssign_flatMap (some_parts (s := .atom .type) (by simp) ih))
  | field n _ _ => exact .cons rfl (noAssign_cons (by simp))
  | sum parts hp _ ih =>
    cases parts with
    | nil => contradiction
    | cons p ps =>
      obtain ⟨h, hne⟩ := noAssign_of_opening (by simp) (ih p (List.mem_cons_self ..))
      exact .cons rfl (noAssign_append h hne)
  | product parts trailing _ ih =>
    exact .cons rfl (noAssign_listed (some_parts (s := .field) (by simp) ih) (by simp))
  | fn n params result _ _ _ _ _ _ => exact .cons rfl (noAssign_cons (by simp))
  | type n params _ _ => exact .cons rfl (noAssign_cons (by simp))
  | program => trivial

end TinyFront.Grammar
