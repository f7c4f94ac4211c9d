import TinyFront.Proofs.MendsExprs
import TinyFront.Proofs.Reading

/-!
The shape of atoms. Tokens that make an atom of every family are read by each of them, and the trees
are the same once it is forgotten which family they are of. Each family has its own way from an element
down to an atom, and that is all that has to be known of it.
-/
namespace TinyFront

open Grammar

/-- What the atoms of all families have in common. -/
inductive AtomTree (σ : Type)
  | leaf (leaf : Leaf) (span : σ)
  | tuple (elements : List (AtomTree σ)) (span : σ)

namespace AtomTree

variable {σ τ : Type}

mutual

def map (f : σ → τ) : AtomTree σ → AtomTree τ
  | leaf l s => leaf l (f s)
  | tuple as s => tuple (mapAll f as) (f s)

def mapAll (f : σ → τ) : List (AtomTree σ) → List (AtomTree τ)
  | [] => []
  | a :: as => map f a :: mapAll f as

end

theorem mapAll_eq_map (f : σ → τ) (as : List (AtomTree σ)) : mapAll f as = as.map (map f) := by
  induction as with
  | nil => rfl
  | cons a as ih => rw [mapAll, ih, List.map_cons]

mutual

@[simp] theorem map_id : ∀ a : AtomTree σ, a.map id = a
  | leaf _ _ => rfl
  | tuple as s => by rw [map, mapAll_id as, id]

theorem mapAll_id : ∀ as : List (AtomTree σ), mapAll id as = as
  | [] => rfl
  | a :: as => by rw [mapAll, map_id a, mapAll_id as]

end

/-- A single element without a comma stands for itself. -/
def collapse (as : List (AtomTree Span)) (trailing : Bool) (s : Span) : AtomTree Span :=
  match as, trailing with
  | [a], false => a
  | as, _ => tuple as s

end AtomTree

/-! The atom that a tree of each family stands for, with every span sent through `place`. A type variable
and a constructor without arguments stand for their name. -/

section

variable {σ : Type} (place : Span → σ)

mutual

def Expr.atomTree? : Expr Span → Option (AtomTree σ)
  | .leaf l s => some (.leaf l (place s))
  | .tuple es s => (atomTrees? es).map (.tuple · (place s))
  | _ => none

def Expr.atomTrees? : List (Expr Span) → Option (List (AtomTree σ))
  | [] => some []
  | e :: es => e.atomTree?.bind fun a => (atomTrees? es).map (a :: ·)

end

mutual

def Pattern.atomTree? : Pattern Span → Option (AtomTree σ)
  | .leaf l s => some (.leaf l (place s))
  | .tuple ps s => (atomTrees? ps).map (.tuple · (place s))
  | .constructor n [] s => some (.leaf (.name n) (place s))
  | .constructor _ _ _ => none

def Pattern.atomTrees? : List (Pattern Span) → Option (List (AtomTree σ))
  | [] => some []
  | p :: ps => p.atomTree?.bind fun a => (atomTrees? ps).map (a :: ·)

end

mutual

def Ty.atomTree? : Ty Span → Option (AtomTree σ)
  | .leaf l s => some (.leaf l (place s))
  | .tuple ts s => (atomTrees? ts).map (.tuple · (place s))
  | .var n s => some (.leaf (.name n) (place s))
  | _ => none

def Ty.atomTrees? : List (Ty Span) → Option (List (AtomTree σ))
  | [] => some []
  | t :: ts => t.atomTree?.bind fun a => (atomTrees? ts).map (a :: ·)

end

end

/-! The tokens of atoms. -/

/-- The leaf that a token is in every family. -/
def Token.leaf? (t : Token) : Option Leaf :=
  let digits := t.text.toList
  match t.kind with
  | .underscore => some .wildcard
  | .integer =>
    if isDecimal digits ∧ digits.length ≤ digitLimit ∧ decimalValue digits ≤ Parser.maxNumber then
      some (.number (decimalValue digits))
    else none
  | .identifier | .typeIdentifier => some (.name t.text)
  | _ => none

mutual

/-- The tokens of an atom with at most `d` sequences in one another. New spans are in the given file. -/
inductive AtomTokens (file : String) : (d : Nat) → List Token → AtomTree Span → Prop
  | leaf {d : Nat} {t : Token} {l : Leaf} (ht : t.leaf? = some l) : AtomTokens file d [t] (.leaf l t.span)
  | unit {d : Nat} {o c : Token} (ho : o.kind = .lparen) (hc : c.kind = .rparen) :
      AtomTokens file d [o, c] (.leaf .unit ⟨file, o.span.start, c.span.stop⟩)
  | sequence {d : Nat} {o c : Token} {ts : List Token} {as : List (AtomTree Span)} {trailing : Bool}
      (ho : o.kind = .lparen) (h : RowTokens file d ts as trailing) (hc : c.kind = .rparen) :
      AtomTokens file (d + 1) (o :: ts ++ [c])
        (.collapse as trailing ⟨file, o.span.start, c.span.stop⟩)

/-- The tokens of atoms between commas; the flag tells whether a comma follows the last one. -/
inductive RowTokens (file : String) : (d : Nat) → List Token → List (AtomTree Span) → Bool → Prop
  | last {d : Nat} {ts : List Token} {a : AtomTree Span} (h : AtomTokens file d ts a) :
      RowTokens file d ts [a] false
  | trailing {d : Nat} {ts : List Token} {a : AtomTree Span} {k : Token} (h : AtomTokens file d ts a)
      (hk : k.kind = .comma) : RowTokens file d (ts ++ [k]) [a] true
  | cons {d : Nat} {ts us : List Token} {a : AtomTree Span} {as : List (AtomTree Span)}
      {k : Token} {trailing : Bool} (h : AtomTokens file d ts a) (hk : k.kind = .comma)
      (hs : RowTokens file d us as trailing) : RowTokens file d (ts ++ k :: us) (a :: as) trailing

end

/-- What may stand behind an element. -/
def TokenKind.endsElement : TokenKind → Bool
  | .comma | .rparen | .eof => true
  | _ => false

theorem allShown_of_forall₂ {ε σ : Type} {shown : ε → Option (AtomTree σ)}
    (allShown : List ε → Option (List (AtomTree σ))) (hnil : allShown [] = some [])
    (hcons : ∀ e es, allShown (e :: es) = (shown e).bind fun a => (allShown es).map (a :: ·))
    {es : List ε} {as : List (AtomTree σ)} (h : List.Forall₂ (fun e a => shown e = some a) es as) :
    allShown es = some as := by
  induction h with
  | nil => exact hnil
  | cons he _ ih => rw [hcons, he, ih]; rfl

namespace Parser

variable {ε σ : Type} {place : Span → σ} {file : String}

/-- How a family reads elements, and which atom a tree of it shows. -/
structure Reading (σ ε : Type) where
  family : Family ε
  element : Nat → Parser ε
  shown : ε → Option (AtomTree σ)

/-- The family reads what is no more than an atom as one. -/
structure Reading.Lawful (R : Reading σ ε) (place : Span → σ) : Prop where
  leaf : ∀ l s, R.shown (R.family.ofLeaf l s) = some (.leaf l (place s))
  tuple : ∀ es as s, List.Forall₂ (fun e a => R.shown e = some a) es as →
    R.shown (R.family.ofTuple es s) = some (.tuple as (place s))
  shortens : ∀ depth file c, c.Ended → (R.element depth).Shortens file c
  element : ∀ depth file c e c', R.family.startsAtom c = true →
    (c.current.kind = .typeIdentifier →
      place ⟨file, c.current.span.start, c.current.span.stop⟩ = place c.current.span) →
    atom R.family (R.element depth) file c = .done e c' → c'.current.kind.endsElement = true →
    ∃ e', R.element (depth + 1) file c = .done e' c' ∧ R.shown e' = R.shown e

def expressions (place : Span → σ) : Reading σ (Expr Span) := ⟨.expression, expression, Expr.atomTree? place⟩

def patterns (place : Span → σ) : Reading σ (Pattern Span) := ⟨.pattern, pattern, Pattern.atomTree? place⟩

def types (place : Span → σ) : Reading σ (Ty Span) := ⟨.type, type, Ty.atomTree? place⟩

/-! What ends an element goes on with none of the loops on the way to an atom. -/

section

variable {c : Cursor} (h : c.current.kind.endsElement = true)

include h

theorem startsAtom_of_endsElement (f : Family ε) : f.startsAtom c = false := by
  rw [Family.startsAtom]
  cases hk : c.current.kind <;> simp [hk, TokenKind.endsElement] at h ⊢

theorem isAt_of_endsElement {k : TokenKind} (hk : k.endsElement = false) : c.isAt k = false := by
  refine Bool.eq_false_iff.2 fun hat => ?_
  rw [Cursor.kind_of_isAt hat, hk] at h
  cases h

theorem startsSuffix_of_endsElement : startsSuffix c = false := by
  rw [startsSuffix, startsRecord, isAt_of_endsElement h rfl, isAt_of_endsElement h rfl]
  rfl

theorem bindsAtLeast_of_endsElement (power : Nat) : bindsAtLeast power c = false := by
  rw [bindsAtLeast]
  cases hk : c.current.kind <;> simp [hk, TokenKind.endsElement] at h <;> rfl

end

section

variable {c c' : Cursor} {depth : Nat}

theorem expression_of_atom {e : Expr Span} (hs : Family.expression.startsAtom c = true)
    (hrun : atom .expression (expression depth) file c = .done e c')
    (hstop : c'.current.kind.endsElement = true) : expression (depth + 1) file c = .done e c' := by
  have hprimary : primary (expression depth) (pattern (depth + 1)) file c = .done e c' :=
    (primary_of_atom hs).trans hrun
  have hoperand : withSuffixes (expression depth) (primary (expression depth) (pattern (depth + 1)))
      file c = .done e c' := by
    rw [withSuffixes, start_bind, bind_done hprimary,
      bind_done (many_of_stop (startsSuffix_of_endsElement hstop))]
    rfl
  have happlication : application (expression depth) (pattern (depth + 1)) file c = .done e c' := by
    rw [application, start_bind, bind_done hoperand,
      bind_done (many_of_stop (startsAtom_of_endsElement hstop _))]
    rfl
  have hclimb : climb (application (expression depth) (pattern (depth + 1))) tiers 0 file c =
      .done e c' := by
    rw [tiers, climb, start_bind, bind_done happlication,
      bind_done (many_of_stop (bindsAtLeast_of_endsElement hstop 0))]
    rfl
  rw [expression, expressionWithin, start_bind, bind_done hclimb, test_bind,
    if_neg (by simp [isAt_of_endsElement hstop (k := .colon) rfl])]
  rfl

theorem atom_of_typeIdentifier {f : Family ε} {p : Parser ε} (hk : c.current.kind = .typeIdentifier) :
    atom f p file c = .done (f.ofLeaf (.name c.current.text) c.current.span) c.advance := by
  have hleaf : leaf f file c = .done (.name c.current.text) c.advance := by
    rw [leaf, current_bind]
    simp only [hk]
    rfl
  rw [atom_of_ne_lparen (by simp [hk]), bind_done hleaf, pure_apply]

theorem pattern_of_atom {p : Pattern Span} (hk : c.current.kind ≠ .typeIdentifier)
    (hrun : atom .pattern (pattern depth) file c = .done p c') : pattern (depth + 1) file c = .done p c' := by
  rw [pattern, patternWithin, current_bind, if_neg hk, hrun]

theorem pattern_of_typeIdentifier (hk : c.current.kind = .typeIdentifier)
    (hstop : c.advance.current.kind.endsElement = true) : pattern (depth + 1) file c =
      .done (.constructor c.current.text [] ⟨file, c.current.span.start, c.current.span.stop⟩) c.advance := by
  rw [pattern, patternWithin, current_bind, if_pos hk, advance_bind,
    bind_done (many_of_stop (startsAtom_of_endsElement hstop _)), spanFrom_bind, c.advance_lastEnd]
  rfl

theorem typeApplication_of_atom {t : Ty Span} {inner : Parser (Ty Span)}
    (hrun : atom .type inner file c = .done t c') (hstop : c'.current.kind.endsElement = true) :
    typeApplication inner file c = .done t c' := by
  rw [typeApplication, current_bind]
  split
  · rename_i hk
    rw [atom_of_typeIdentifier hk] at hrun
    cases hrun
    rw [advance_bind, bind_done (many_of_stop (startsAtom_of_endsElement hstop _))]
    rfl
  · exact hrun

theorem type_of_atom {t : Ty Span} (hs : Family.type.startsAtom c = true)
    (hrun : atom .type (type depth) file c = .done t c') (hstop : c'.current.kind.endsElement = true) :
    type (depth + 1) file c = .done t c' := by
  have hforall : ¬ c.isAt .kwForall = true := fun h => by
    simp [Family.startsAtom, Cursor.kind_of_isAt h] at hs
  have harrows : arrows (type depth) file c = .done ([], t) c' := by
    show arrowChain (type depth) (c.rest.length + 1) file c = _
    rw [arrowChain, test_bind, if_neg hforall, start_bind,
      bind_done (typeApplication_of_atom hrun hstop), test_bind,
      if_neg (by simp [isAt_of_endsElement hstop (k := .arrow) rfl])]
    rfl
  rw [type, typeWithin, closing, bind_assoc, bind_done harrows]
  rfl

end

theorem expressions_lawful : (expressions place).Lawful place where
  leaf _ _ := rfl
  tuple es as s h := by
    show (Expr.atomTrees? place es).map (AtomTree.tuple · (place s)) = _
    rw [allShown_of_forall₂ (Expr.atomTrees? place) rfl (fun _ _ => rfl) h]
    rfl
  shortens depth _ _ hc := (expression_self depth).shortens hc
  element _ _ _ e _ hs _ hrun hstop := ⟨e, expression_of_atom hs hrun hstop, rfl⟩

theorem atomTree?_patternOfLeaf (l : Leaf) (s : Span) :
    (Family.patternOfLeaf l s).atomTree? place = some (.leaf l (place s)) := by
  cases l with
  | name n =>
    rw [Family.patternOfLeaf]
    split <;> rfl
  | _ => rfl

theorem patterns_lawful : (patterns place).Lawful place where
  leaf := atomTree?_patternOfLeaf
  tuple es as s h := by
    show (Pattern.atomTrees? place es).map (AtomTree.tuple · (place s)) = _
    rw [allShown_of_forall₂ (Pattern.atomTrees? place) rfl (fun _ _ => rfl) h]
    rfl
  shortens depth _ _ hc := pattern_shortens depth hc
  element depth file c p c' hs hplace hrun hstop := by
    by_cases hk : c.current.kind = .typeIdentifier
    · rw [atom_of_typeIdentifier hk] at hrun
      cases hrun
      refine ⟨_, pattern_of_typeIdentifier hk hstop, ?_⟩
      show some (AtomTree.leaf _ (place _)) =
        (Family.patternOfLeaf (.name c.current.text) c.current.span).atomTree? place
      rw [atomTree?_patternOfLeaf, hplace hk]
    · exact ⟨p, pattern_of_atom hk hrun, rfl⟩

theorem types_lawful : (types place).Lawful place where
  leaf l s := by cases l <;> rfl
  tuple es as s h := by
    show (Ty.atomTrees? place es).map (AtomTree.tuple · (place s)) = _
    rw [allShown_of_forall₂ (Ty.atomTrees? place) rfl (fun _ _ => rfl) h]
    rfl
  shortens depth _ _ hc := type_shortens depth hc
  element _ _ _ t _ hs _ hrun hstop := ⟨t, type_of_atom hs hrun hstop, rfl⟩

/-! Reading the tokens of atoms. -/

section

variable {f : Family ε} {p : Parser ε} {c c₁ c' : Cursor} {e : ε} {es : List ε} {trailing : Bool}

theorem listEnds_of_startsAtom (hs : f.startsAtom c = true) : listEnds .rparen c = false := by
  rw [Family.startsAtom] at hs
  cases hk : c.current.kind <;> simp [hk, listEnds, Cursor.isAt] at hs ⊢

theorem commas_of_last (hp : ∀ c, c.Ended → p.Shortens file c) (hc : c.Ended)
    (hs : listEnds .rparen c = false) (hrun : p file c = .done e c₁) (hk : c₁.current.kind = .rparen) :
    commas .rparen p file c = .done ([e], false) c₁ := by
  rw [commas_eq (fun c hc _ => hp c hc) hc, if_neg (by simp [hs]), bind_done hrun,
    test_bind, if_neg (by simp [Cursor.isAt, hk])]
  rfl

theorem commas_of_cons (hp : ∀ c, c.Ended → p.Shortens file c) (hc : c.Ended)
    (hs : f.startsAtom c = true) (hrun : p file c = .done e c₁) (hk : c₁.current.kind = .comma)
    (hrest : commas .rparen p file c₁.advance = .done (es, trailing) c') :
    commas .rparen p file c = .done (e :: es, trailing || es.isEmpty) c' := by
  rw [commas_eq (fun c hc _ => hp c hc) hc, if_neg (by simp [listEnds_of_startsAtom hs]), bind_done hrun,
    test_bind, if_pos (Cursor.isAt_iff.2 hk), advance_bind, bind_done hrest]
  rfl

theorem commas_of_closer (hk : c.current.kind = .rparen) : commas .rparen p file c = .done ([], false) c := by
  show commasUpTo .rparen p (c.rest.length + 1) file c = _
  rw [commasUpTo, test_bind, if_pos (by simp [Cursor.isAt, hk])]
  rfl

theorem atom_of_row (ho : c.current.kind = .lparen)
    (hrow : commas .rparen p file c.advance = .done (es, trailing) c₁) (hk : c₁.current.kind = .rparen) :
    atom f p file c =
      .done (collapse f es trailing ⟨file, c.current.span.start, c₁.current.span.stop⟩) c₁.advance := by
  have hclose : expectClosing f.category .lparen .rparen file c₁ = .done c₁.current c₁.advance :=
    expectClosing_eq_done.2 ⟨hk, rfl, rfl⟩
  rw [atom, current_bind, if_pos ho, parenthesised, located, start_bind, bind_assoc, advance_bind,
    bind_assoc, bind_done hrow]
  simp only []
  rw [bind_assoc, bind_done hclose, pure_bind, spanFrom_bind, c₁.advance_lastEnd]
  rfl

end

theorem number_of_value {category : Category} {t : Token} {c : Cursor}
    (h : isDecimal t.text.toList ∧ t.text.toList.length ≤ digitLimit ∧
      decimalValue t.text.toList ≤ maxNumber) :
    number category t file c = .done (decimalValue t.text.toList) c := by
  obtain ⟨hdecimal, hshort, hvalue⟩ := h
  simp [number, hdecimal, Nat.not_lt.2 hshort, hvalue]

theorem atom_of_leaf? {f : Family ε} {p : Parser ε} {c : Cursor} {l : Leaf} (h : c.current.leaf? = some l) :
    atom f p file c = .done (f.ofLeaf l c.current.span) c.advance := by
  have hleaf : leaf f file c = .done l c.advance ∧ c.current.kind ≠ .lparen := by
    rw [leaf, current_bind]
    generalize c.current = t at h
    obtain ⟨k, text, s⟩ := t
    cases k <;> simp only [Token.leaf?, Option.some.injEq, reduceCtorEq] at h
    case integer =>
      split at h
      · rename_i hvalue
        obtain rfl := Option.some.inj h
        exact ⟨bind_done (k := fun n => pure (Leaf.number n))
          (number_of_value (t := ⟨.integer, text, s⟩) hvalue), by simp⟩
      · cases h
    all_goals
      subst h
      exact ⟨rfl, by simp⟩
  rw [atom_of_ne_lparen hleaf.2, bind_done hleaf.1, pure_apply]

theorem startsAtom_of_leaf? {f : Family ε} {c : Cursor} {l : Leaf} (h : c.current.leaf? = some l) :
    f.startsAtom c = true := by
  rw [Family.startsAtom]
  rw [Token.leaf?] at h
  cases hk : c.current.kind <;> simp [hk] at h ⊢

theorem startsAtom_of_tokens {d : Nat} {ts rest : List Token} {a : AtomTree Span} {c : Cursor}
    (f : Family ε) (h : AtomTokens file d ts a) (hc : c.remaining = ts ++ rest) : f.startsAtom c = true := by
  cases h with
  | leaf ht => exact startsAtom_of_leaf? (by rwa [(Cursor.current_of_remaining hc).1])
  | unit ho _ | sequence ho _ _ =>
    rw [Family.startsAtom, (Cursor.current_of_remaining hc).1, ho]

/-- Elements show the atoms, and so does what the parentheses around them make of them. -/
theorem Reading.Lawful.collapse {R : Reading σ ε} (hR : R.Lawful place) {es : List ε}
    {as : List (AtomTree Span)} {trailing : Bool} (hne : as ≠ []) (s : Span)
    (h : List.Forall₂ (fun e a => R.shown e = some (a.map place)) es as) :
    R.shown (Parser.collapse R.family es trailing s) =
      some ((AtomTree.collapse as trailing s).map place) := by
  have hall : List.Forall₂ (fun e a => R.shown e = some a) es (as.map (AtomTree.map place)) :=
    List.forall₂_map_right_iff.2 h
  rcases as with _ | ⟨a, _ | ⟨b, as⟩⟩
  · exact absurd rfl hne
  · obtain ⟨e, _, he, hnil, rfl⟩ := List.forall₂_cons_right_iff.1 h
    obtain rfl := List.forall₂_nil_right_iff.1 hnil
    cases trailing with
    | false => exact he
    | true => exact hR.tuple _ _ s hall
  · obtain ⟨e, _, he, hrest, rfl⟩ := List.forall₂_cons_right_iff.1 h
    obtain ⟨e', es, he', hrest, rfl⟩ := List.forall₂_cons_right_iff.1 hrest
    have htuple := hR.tuple _ _ s hall
    rw [← AtomTree.mapAll_eq_map] at htuple
    cases trailing <;> exact htuple

end Parser

theorem AtomTokens.ne_nil {file : String} {d : Nat} {ts : List Token} {a : AtomTree Span}
    (h : AtomTokens file d ts a) : ts ≠ [] := by
  cases h <;> simp

theorem RowTokens.ne_nil {file : String} {d : Nat} {ts : List Token} {as : List (AtomTree Span)}
    {trailing : Bool} (h : RowTokens file d ts as trailing) : as ≠ [] := by
  cases h <;> simp

theorem Cursor.Ended.step_over {c : Cursor} {t : Token} {us : List Token} (hc : c.Ended)
    (hrem : c.remaining = t :: us) (ht : t.kind ≠ .eof) :
    c.current = t ∧ c.advance.Ended ∧ c.Consumes [t] c.advance ∧ c.advance.remaining = us := by
  obtain ⟨rfl, -⟩ := current_of_remaining hrem
  have hts := hc.consumes_advance ht
  exact ⟨rfl, hc.advance ht, hts, List.append_cancel_left (hts.remaining.symm.trans hrem)⟩

theorem Cursor.Consumes.remaining_eq {c c' : Cursor} {ts us : List Token} (h : c.Consumes ts c')
    (hc : c.remaining = ts ++ us) : c'.remaining = us :=
  List.append_cancel_left (h.remaining.symm.trans hc)

namespace Parser

variable {ε σ : Type} {place : Span → σ} {file : String}

mutual

/-- The tokens of an atom are read as an element that shows the atom. -/
theorem Reading.Lawful.reads_atom {R : Reading σ ε} (hR : R.Lawful place) {d depth : Nat}
    {ts rest : List Token} {a : AtomTree Span} {u : Token} {c : Cursor} (h : AtomTokens file d ts a)
    (hplace : ∀ t ∈ ts, t.kind = .typeIdentifier →
      place ⟨file, t.span.start, t.span.stop⟩ = place t.span) (hd : d < depth)
    (hc : c.Ended) (hrem : c.remaining = ts ++ u :: rest) (hu : u.kind.endsElement = true) :
    ∃ e c', R.element depth file c = .done e c' ∧ c.Consumes ts c' ∧ R.shown e = some (a.map place) := by
  obtain ⟨depth, rfl⟩ : ∃ n, depth = n + 1 := Nat.exists_eq_add_one.2 (by omega)
  have hs := startsAtom_of_tokens R.family h hrem
  have hcur : c.current ∈ ts := by
    obtain ⟨t, ts', rfl⟩ := List.exists_cons_of_ne_nil h.ne_nil
    rw [(Cursor.current_of_remaining hrem).1]
    exact List.mem_cons_self ..
  suffices hatom : ∃ e c', atom R.family (R.element depth) file c = .done e c' ∧ c.Consumes ts c' ∧
      R.shown e = some (a.map place) by
    obtain ⟨e, c', hrun, hts, he⟩ := hatom
    have hstop : c'.current.kind.endsElement = true := by
      rwa [(Cursor.current_of_remaining (hts.remaining_eq hrem)).1]
    obtain ⟨e', hrun', he'⟩ := hR.element depth file c e c' hs (hplace _ hcur) hrun hstop
    exact ⟨e', c', hrun', hts, he'.trans he⟩
  match h with
  | .leaf ht =>
    obtain ⟨rfl, -, hts, -⟩ := hc.step_over hrem fun hk => by simp [Token.leaf?, hk] at ht
    exact ⟨_, _, atom_of_leaf? ht, hts, hR.leaf _ _⟩
  | .unit ho hk =>
    obtain ⟨rfl, hended, hts, hrem'⟩ := hc.step_over hrem (by simp [ho])
    obtain ⟨rfl, -, hts', -⟩ := hended.step_over hrem' (by simp [hk])
    exact ⟨_, _, atom_of_row ho (commas_of_closer hk) hk, hts.trans hts', hR.leaf _ _⟩
  | .sequence ho hrow hk =>
    rw [List.append_assoc] at hrem
    obtain ⟨rfl, hended, hts, hrem'⟩ := hc.step_over hrem (by simp [ho])
    obtain ⟨es, c₁, hrun, hts₁, hes⟩ := hR.reads_row hrow (fun t ht => hplace t (by simp [ht]))
      (Nat.lt_of_succ_lt_succ hd) hended hrem' hk
    obtain ⟨rfl, -, hts', -⟩ := (hts₁.ended hended).step_over (hts₁.remaining_eq hrem') (by simp [hk])
    exact ⟨_, _, atom_of_row ho hrun hk, (hts.trans hts₁).trans hts', hR.collapse hrow.ne_nil _ hes⟩

theorem Reading.Lawful.reads_row {R : Reading σ ε} (hR : R.Lawful place) {d depth : Nat}
    {ts rest : List Token} {as : List (AtomTree Span)} {trailing : Bool} {u : Token} {c : Cursor}
    (h : RowTokens file d ts as trailing)
    (hplace : ∀ t ∈ ts, t.kind = .typeIdentifier →
      place ⟨file, t.span.start, t.span.stop⟩ = place t.span) (hd : d < depth)
    (hc : c.Ended) (hrem : c.remaining = ts ++ u :: rest) (hu : u.kind = .rparen) :
    ∃ es c', commas .rparen (R.element depth) file c = .done (es, trailing) c' ∧ c.Consumes ts c' ∧
      List.Forall₂ (fun e a => R.shown e = some (a.map place)) es as := by
  match h with
  | .last h =>
    obtain ⟨e, c₁, hrun, hts, he⟩ := hR.reads_atom h hplace hd hc hrem (by rw [hu]; rfl)
    have hcur := (Cursor.current_of_remaining (hts.remaining_eq hrem)).1
    have hs := listEnds_of_startsAtom (startsAtom_of_tokens R.family h hrem)
    exact ⟨[e], c₁, commas_of_last (hR.shortens depth file) hc hs hrun (by rw [hcur, hu]), hts, .cons he .nil⟩
  | .trailing h hk =>
    rw [List.append_assoc] at hrem
    obtain ⟨e, c₁, hrun, hts, he⟩ := hR.reads_atom h (fun t ht => hplace t (by simp [ht])) hd hc hrem
      (by rw [hk]; rfl)
    obtain ⟨rfl, -, hts', hrem'⟩ := (hts.ended hc).step_over (hts.remaining_eq hrem) (by simp [hk])
    have hcur := (Cursor.current_of_remaining hrem').1
    exact ⟨[e], _, commas_of_cons (hR.shortens depth file) hc (startsAtom_of_tokens R.family h hrem) hrun hk
      (commas_of_closer (by rw [hcur, hu])), hts.trans hts', .cons he .nil⟩
  | .cons h hk hs =>
    rw [List.append_assoc] at hrem
    obtain ⟨e, c₁, hrun, hts, he⟩ := hR.reads_atom h (fun t ht => hplace t (by simp [ht])) hd hc hrem
      (by rw [hk]; rfl)
    obtain ⟨rfl, hended, hts', hrem'⟩ := (hts.ended hc).step_over (hts.remaining_eq hrem) (by simp [hk])
    obtain ⟨es, c₂, hrun', hts₂, hes⟩ := hR.reads_row hs (fun t ht => hplace t (by simp [ht])) hd hended hrem' hu
    have hne : es ≠ [] := fun hnil => by
      subst hnil
      exact hs.ne_nil (List.forall₂_nil_left_iff.1 hes)
    have hall := commas_of_cons (hR.shortens depth file) hc (startsAtom_of_tokens R.family h hrem) hrun hk hrun'
    rw [List.isEmpty_eq_false_iff.2 hne, Bool.or_false] at hall
    refine ⟨e :: es, c₂, hall, ?_, .cons he hes⟩
    simpa using (hts.trans hts').trans hts₂

end

theorem Reading.Lawful.run_atom {R : Reading σ ε} (hR : R.Lawful place) {γ : Type} (build : ε → γ)
    (category : Category) {d depth : Nat} {file? : Option String} {ts : List Token} {a : AtomTree Span}
    {e : Token} (h : AtomTokens (file?.getD e.span.file) d ts a)
    (hplace : ∀ t ∈ ts, t.kind = .typeIdentifier →
      place ⟨file?.getD e.span.file, t.span.start, t.span.stop⟩ = place t.span)
    (he : e.kind = .eof) (hd : d < depth) :
    ∃ x, Parser.run (do
      let x ← R.element depth
      let _ ← tree.atEnd category
      return build x) file? (ts ++ [e]) = .ok (build x) ∧ R.shown x = some (a.map place) := by
  obtain ⟨c, hrem, hrun⟩ := run_concat (do
    let x ← R.element depth
    let _ ← tree.atEnd category
    return build x) file? ts e
  obtain ⟨x, c', hx, hts, hshown⟩ := hR.reads_atom h hplace hd ⟨ts, e, hrem, he⟩ hrem (by rw [he]; rfl)
  have hk : c'.current.kind = .eof := by rw [(Cursor.current_of_remaining (hts.remaining_eq hrem)).1, he]
  refine ⟨x, ?_, hshown⟩
  rw [hrun, bind_done hx]
  simp [tree.atEnd, Cursor.isAt_iff.2 hk]

end Parser

/-- Where a span begins and ends, whatever file it is in. -/
def Span.offsets (s : Span) : Int × Int := (s.start, s.stop)

section

variable {d depth : Nat} {file? : Option String} {ts : List Token} {a : AtomTree Span} {e : Token}

/-- Tokens that make an atom are read as an expression, as a pattern and as a type, and all three are that
atom. Their spans begin and end alike, and are the same if the uppercase names are in the file that is
read. -/
theorem atoms_have_one_shape (h : AtomTokens (file?.getD e.span.file) d ts a) (he : e.kind = .eof)
    (hd : d < depth) : ∃ x p t,
      (Parser.tree depth .expression).run file? (ts ++ [e]) = .ok (.expression x) ∧
      (Parser.tree depth .pattern).run file? (ts ++ [e]) = .ok (.pattern p) ∧
      (Parser.tree depth .type).run file? (ts ++ [e]) = .ok (.type t) ∧
      x.atomTree? Span.offsets = some (a.map Span.offsets) ∧
      p.atomTree? Span.offsets = some (a.map Span.offsets) ∧
      t.atomTree? Span.offsets = some (a.map Span.offsets) ∧
      ((∀ t ∈ ts, t.kind = .typeIdentifier → t.span.file = file?.getD e.span.file) →
        x.atomTree? id = some a ∧ p.atomTree? id = some a ∧ t.atomTree? id = some a) := by
  have hread : ∀ {σ : Type} (place : Span → σ),
      (∀ t ∈ ts, t.kind = .typeIdentifier →
        place ⟨file?.getD e.span.file, t.span.start, t.span.stop⟩ = place t.span) → ∃ x p t,
        (Parser.tree depth .expression).run file? (ts ++ [e]) = .ok (.expression x) ∧
        (Parser.tree depth .pattern).run file? (ts ++ [e]) = .ok (.pattern p) ∧
        (Parser.tree depth .type).run file? (ts ++ [e]) = .ok (.type t) ∧
        x.atomTree? place = some (a.map place) ∧ p.atomTree? place = some (a.map place) ∧
        t.atomTree? place = some (a.map place) := by
    intro σ place hplace
    obtain ⟨x, hx, hax⟩ := Parser.expressions_lawful.run_atom Tree.expression .expression h hplace he hd
    obtain ⟨p, hp, hap⟩ := Parser.patterns_lawful.run_atom Tree.pattern .pattern h hplace he hd
    obtain ⟨t, ht, hat⟩ := Parser.types_lawful.run_atom Tree.type .type h hplace he hd
    exact ⟨x, p, t, hx, hp, ht, hax, hap, hat⟩
  obtain ⟨x, p, t, hx, hp, ht, hax, hap, hat⟩ := hread Span.offsets fun _ _ _ => rfl
  refine ⟨x, p, t, hx, hp, ht, hax, hap, hat, fun hfile => ?_⟩
  obtain ⟨x', p', t', hx', hp', ht', hall⟩ := hread id fun t ht hk => by rw [← hfile t ht hk]
  rw [hx, Except.ok.injEq, Tree.expression.injEq] at hx'
  rw [hp, Except.ok.injEq, Tree.pattern.injEq] at hp'
  rw [ht, Except.ok.injEq, Tree.type.injEq] at ht'
  rw [hx', hp', ht']
  simpa only [AtomTree.map_id] using hall

end

/-- A tuple of a name and a number with a comma behind it. -/
theorem atoms_have_one_shape_of_pair :
    let ts : List Token := [⟨.lparen, "(", ⟨"a", 0, 1⟩⟩, ⟨.typeIdentifier, "B", ⟨"a", 1, 2⟩⟩,
      ⟨.comma, ",", ⟨"a", 2, 3⟩⟩, ⟨.integer, "07", ⟨"a", 4, 6⟩⟩, ⟨.comma, ",", ⟨"a", 6, 7⟩⟩,
      ⟨.rparen, ")", ⟨"a", 8, 9⟩⟩]
    let a : AtomTree Span :=
      .tuple [.leaf (.name "B") ⟨"a", 1, 2⟩, .leaf (.number 7) ⟨"a", 4, 6⟩] ⟨"a", 0, 9⟩
    let e : Token := ⟨.eof, "", ⟨"a", 9, 9⟩⟩
    AtomTokens "a" 1 ts a ∧ 1 < Parser.maxDepth ∧ ∃ x p t,
      (Parser.tree Parser.maxDepth .expression).run none (ts ++ [e]) = .ok (.expression x) ∧
      (Parser.tree Parser.maxDepth .pattern).run none (ts ++ [e]) = .ok (.pattern p) ∧
      (Parser.tree Parser.maxDepth .type).run none (ts ++ [e]) = .ok (.type t) ∧
      x.atomTree? Span.offsets = some (a.map Span.offsets) ∧
      p.atomTree? Span.offsets = some (a.map Span.offsets) ∧
      t.atomTree? Span.offsets = some (a.map Span.offsets) ∧
      ((∀ t ∈ ts, t.kind = .typeIdentifier → t.span.file = "a") →
        x.atomTree? id = some a ∧ p.atomTree? id = some a ∧ t.atomTree? id = some a) := by
  intro ts a e
  have h : AtomTokens "a" 1 ts a :=
    .sequence rfl (.cons (.leaf rfl) rfl (.trailing (.leaf (by decide)) rfl)) rfl
  exact ⟨h, by decide, atoms_have_one_shape h rfl (by decide)⟩

/-- An uppercase name that is not in the file that is read stays in its own file as an expression, and is
in that file as a pattern. -/
theorem atom_shapes_differ_in_file :
    let ts : List Token := [⟨.typeIdentifier, "B", ⟨"x", 0, 1⟩⟩]
    let e : Token := ⟨.eof, "", ⟨"x", 1, 1⟩⟩
    AtomTokens "y" 0 ts (.leaf (.name "B") ⟨"x", 0, 1⟩) ∧ ∃ x p,
      (Parser.tree Parser.maxDepth .expression).run (some "y") (ts ++ [e]) = .ok (.expression x) ∧
      (Parser.tree Parser.maxDepth .pattern).run (some "y") (ts ++ [e]) = .ok (.pattern p) ∧
      x.atomTree? id = some (.leaf (.name "B") ⟨"x", 0, 1⟩) ∧
      p.atomTree? id = some (.leaf (.name "B") ⟨"y", 0, 1⟩) ∧
      x.atomTree? id ≠ p.atomTree? id := by
  intro ts e
  refine ⟨.leaf rfl, .leaf (.name "B") ⟨"x", 0, 1⟩, .constructor "B" [] ⟨"y", 0, 1⟩, by rfl, by rfl, rfl, rfl, ?_⟩
  simp [Expr.atomTree?, Pattern.atomTree?]

end TinyFront
