import TinyFront.Proofs.Whole
import TinyFront.Proofs.Yields

/-!
Exact spans of patterns and types. Main statement: the span of each of their nodes reaches over a
text that is read as that node. A parser whose parts are placed and that reads its own tokens alone
gives nodes that are placed.
-/
namespace TinyFront

/-- The node is one that can be told from its own text, or one that no token spells. -/
def Tree.Placed (file source : String) (n : Tree Span) : Prop := n.Synthetic source ∨ n.Exact file source

namespace Parser

variable {α β : Type} {file source : String} {ts : List Token} {c : Cursor}

namespace Whole

variable (w : Whole α)

/-- All nodes of the tree are placed. -/
def Settled (file source : String) (a : α) : Prop :=
  ∀ n ∈ w.node a :: w.inside a, n.Placed file source

/-- All nodes but the root are placed, and the root reaches over what was read if it is not placed
already. -/
structure Shaped (file source : String) (start stop : Int) (a : α) : Prop where
  root : (w.node a).span = ⟨file, start, stop⟩ ∨ (w.node a).Placed file source
  inside : ∀ n ∈ w.inside a, n.Placed file source

variable {w}

theorem Settled.shaped {a : α} {start stop : Int} (h : w.Settled file source a) :
    w.Shaped file source start stop a :=
  ⟨.inr (h _ (List.mem_cons_self ..)), fun n hn => h n (List.mem_cons_of_mem _ hn)⟩

variable (w)

/-- What the parser has read is read in the same way alone, as a whole text. -/
def Stands (p : Parser α) : Prop :=
  ∃ room, ∀ file c, Fair file c → ∀ k depth,
    Alone (.shift k) (depth < room) 1 p (w.parser depth) (fun a b => b = w.place (.shift k) a) file c

variable {w}

theorem stands_of_lifts {p : Parser α} {q : Nat → Parser α} {d : Nat}
    (hdeep : ∀ file c, (w.parser 0).Overflows file c)
    (hlift : ∀ depth, Lifts (q depth) (w.parser (depth + 1)))
    (h : ∀ (ρ : Placing) depth file c, c.Ended →
      Alone ρ (depth < d) 1 p (q depth) (fun a b => b = w.place ρ a) file c) : w.Stands p :=
  ⟨d + 1, fun file c hc k depth =>
    Alone.all_depths hdeep hlift (fun depth => h (.shift k) depth file c hc.ended) hc depth⟩

/-- A root that reaches over what was read is placed where that stands alone. -/
theorem Stands.settles {p : Parser α} (hp : w.Stands p) (hlex : lex file source = .ok ts)
    (h : p.Yields (Within ts) file c (w.Shaped file source c.current.span.start)) :
    p.Yields (Within ts) file c fun _ => w.Settled file source := by
  obtain ⟨room, halone⟩ := hp
  intro hc a c' hrun
  obtain ⟨hc', hroot, hinside⟩ := h hc a c' hrun
  refine ⟨hc', List.forall_mem_cons.2 ⟨?_, hinside⟩⟩
  rcases hroot with hspan | hplaced
  · exact .inr (exact_of_alone w hlex hc hrun hspan (halone file c ((page_of_lex hlex).fair hc)))
  · exact hplaced

end Whole

/-! Atoms. -/

/-- The nodes of a family are leaves and tuples as the family builds them. -/
structure Whole.Builds {ε : Type} (w : Whole ε) (f : Family ε) : Prop where
  leaf_span : ∀ l s, (w.node (f.ofLeaf l s)).span = s
  leaf_inside : ∀ l s, w.inside (f.ofLeaf l s) = []
  tuple_span : ∀ es s, (w.node (f.ofTuple es s)).span = s
  tuple_inside : ∀ es s, w.inside (f.ofTuple es s) = es.flatMap fun e => w.node e :: w.inside e

theorem expression_builds : Whole.expression.Builds Family.expression where
  leaf_span _ _ := rfl
  leaf_inside _ _ := rfl
  tuple_span _ _ := rfl
  tuple_inside es _ := Expr.nodesAll_eq_flatMap es

theorem pattern_builds : Whole.pattern.Builds Family.pattern where
  leaf_span l s := by
    cases l with
    | name n =>
      simp only [Family.pattern, Family.patternOfLeaf]
      split <;> rfl
    | _ => rfl
  leaf_inside l s := by
    cases l with
    | name n =>
      simp only [Family.pattern, Family.patternOfLeaf]
      split <;> rfl
    | _ => rfl
  tuple_span _ _ := rfl
  tuple_inside ps _ := Pattern.nodesAll_eq_flatMap ps

theorem type_builds : Whole.type.Builds Family.type where
  leaf_span l s := by cases l <;> rfl
  leaf_inside l s := by cases l <;> rfl
  tuple_span _ _ := rfl
  tuple_inside ts _ := Ty.nodesAll_eq_flatMap ts

theorem leaf_yields {ε : Type} {I : Cursor → Prop} [Stays I] (f : Family ε) :
    (leaf f).Yields I file c fun z _ => z = c.current.span.stop ∧ c.current.kind ≠ .eof := by
  have hend : c.advance.lastEnd = c.current.span.stop := c.advance_lastEnd
  unfold leaf
  refine .current ?_
  split
  · rename_i hk
    exact .advance (.pure ⟨hend, by simp [hk]⟩)
  · rename_i hk
    refine .advance (Yields.bind (P := fun z _ => z = c.current.span.stop) ?_
      fun _ _ _ h => .pure ⟨h, by simp [hk]⟩)
    intro hc n c' hrun
    obtain ⟨-, -, rfl⟩ := number_eq_done.1 hrun
    exact ⟨hc, hend⟩
  · rename_i hk
    exact .advance (.pure ⟨hend, by simp [hk]⟩)
  · rename_i hk
    exact .advance (.pure ⟨hend, by simp [hk]⟩)
  · rename_i hk
    split
    · exact .advance (.pure ⟨hend, by simp [hk]⟩)
    · exact .unexpected
  · exact .unexpected

theorem atom_yields {ε : Type} {f : Family ε} {w : Whole ε} (hw : w.Builds f) {element : Parser ε}
    (hlex : lex file source = .ok ts)
    (h : ∀ c, element.Yields (Within ts) file c fun _ => w.Settled file source) :
    (atom f element).Yields (Within ts) file c (w.Shaped file source c.current.span.start) := by
  refine .within fun hc => ?_
  have htoken : ∀ l, w.Shaped file source c.current.span.start c.current.span.stop
      (f.ofLeaf l c.current.span) := by
    intro l
    refine ⟨.inl ?_, by simp [hw.leaf_inside]⟩
    rw [hw.leaf_span, ← ((page_of_lex hlex).fair hc).file]
  have htuple : ∀ es s stop, (∀ e ∈ es, w.Settled file source e) → s = ⟨file, c.current.span.start, stop⟩ →
      w.Shaped file source c.current.span.start stop (f.ofTuple es s) := by
    rintro es s stop hes rfl
    refine ⟨.inl (hw.tuple_span _ _), fun n hn => ?_⟩
    rw [hw.tuple_inside] at hn
    obtain ⟨e, he, hn⟩ := List.mem_flatMap.1 hn
    exact hes e he n hn
  unfold atom
  refine .current ?_
  split
  · refine .located (.advance ((Yields.commas h).bind fun x c' _ hx => .expectClosing (.pure ?_)))
    obtain ⟨es, trailing⟩ := x
    rcases es with _ | ⟨e, _ | ⟨e', es⟩⟩
    · exact ⟨.inl (hw.leaf_span _ _), by simp [collapse, hw.leaf_inside]⟩
    · cases trailing with
      | false => exact (hx e (by simp)).shaped
      | true => exact htuple _ _ _ hx rfl
    · exact htuple _ _ _ hx rfl
  · refine (leaf_yields f).bind fun l c' _ hl => .pure ?_
    rw [hl.1]
    exact htoken l

theorem atEnd_yields {I : Cursor → Prop} {category : Category} {k : Unit → Parser β} {Q : Int → β → Prop}
    (h : (k ()).Yields I file c Q) : (tree.atEnd category >>= k).Yields I file c Q := by
  intro hc b c' hrun
  obtain ⟨_, d, hend, hb⟩ := bind_eq_done.1 hrun
  obtain ⟨-, rfl⟩ := atEnd_eq_done.1 hend
  exact h hc b c' hb

/-! Patterns and types. -/

theorem Whole.nodes_of_settled {w : Whole α} {as : List α} (h : ∀ a ∈ as, w.Settled file source a) :
    ∀ n ∈ as.flatMap (fun a => w.node a :: w.inside a), n.Placed file source := by
  intro n hn
  obtain ⟨a, ha, hn⟩ := List.mem_flatMap.1 hn
  exact h a ha n hn

theorem stands_patternAtom (d : Nat) : Whole.pattern.Stands (atom .pattern (pattern d)) :=
  Whole.stands_of_lifts (tooDeep_overflows _) (fun _ => lifts_pattern) fun ρ depth file c hc =>
    SteadyUpTo.alone (atom_follows (Family.pattern_natural ρ) (pattern_follows d depth id) file c hc)
      (Nat.le_refl 1)

theorem stands_pattern (d : Nat) : Whole.pattern.Stands (pattern d) :=
  ⟨d, fun file c hc _ depth => SteadyUpTo.alone (pattern_follows d depth id file c hc.ended)
    (Nat.le_refl 1)⟩

theorem pattern_settles (hlex : lex file source = .ok ts) (d : Nat) (c : Cursor) :
    (pattern d).Yields (Within ts) file c fun _ => Whole.pattern.Settled file source := by
  induction d generalizing c with
  | zero => exact .reject
  | succ d ih =>
    have hatom := fun c => atom_yields (c := c) pattern_builds hlex ih
    refine (stands_pattern (d + 1)).settles hlex ?_
    rw [pattern]
    unfold patternWithin
    refine .current ?_
    split
    · refine .advance ((Yields.many fun c _ => (stands_patternAtom d).settles hlex (hatom c)).bind
        fun ps c' _ hps => .spanFrom (.pure ⟨.inl rfl, ?_⟩))
      show ∀ n ∈ Pattern.nodesAll ps, n.Placed file source
      rw [Pattern.nodesAll_eq_flatMap]
      exact Whole.nodes_of_settled (w := .pattern) hps
    · exact hatom c

theorem stands_typeAtom (d : Nat) : Whole.type.Stands (atom .type (type d)) :=
  Whole.stands_of_lifts (tooDeep_overflows _)
    (fun depth => lifts_typeAtom.trans (lifts_typeApplication depth)) fun ρ depth file c hc =>
    SteadyUpTo.alone (atom_follows (Family.type_natural ρ) (type_follows d depth id) file c hc)
      (Nat.le_refl 1)

theorem stands_typeApplication (d : Nat) : Whole.type.Stands (typeApplication (type d)) :=
  Whole.stands_of_lifts (tooDeep_overflows _) lifts_typeApplication fun _ depth file c hc =>
    SteadyUpTo.alone (typeApplication_follows (type_follows d depth id) file c hc) (Nat.le_refl 1)

theorem stands_type (d : Nat) : Whole.type.Stands (type d) :=
  ⟨d, fun file c hc _ depth => SteadyUpTo.alone (type_follows d depth id file c hc.ended)
    (Nat.le_refl 1)⟩

section

variable {d : Nat} (hlex : lex file source = .ok ts)
  (htype : ∀ c, (type d).Yields (Within ts) file c fun _ => Whole.type.Settled file source)

include hlex htype

theorem typeAtom_settles (c : Cursor) :
    (atom .type (type d)).Yields (Within ts) file c fun _ => Whole.type.Settled file source :=
  (stands_typeAtom d).settles hlex (atom_yields type_builds hlex htype)

theorem typeApplication_settles (c : Cursor) :
    (typeApplication (type d)).Yields (Within ts) file c fun _ => Whole.type.Settled file source := by
  refine (stands_typeApplication d).settles hlex ?_
  unfold typeApplication
  refine .within fun hc => .current ?_
  split
  · refine .advance ((Yields.many fun c _ => typeAtom_settles hlex htype c).bind
      fun args c' hrun hargs => ?_)
    split
    · -- without arguments nothing behind the name was consumed
      rename_i hnil
      obtain rfl := List.isEmpty_iff.1 hnil
      obtain rfl := eq_of_manyUpTo_nil hrun
      refine .pure ⟨.inl ?_, by simp [Whole.type, Ty.inside]⟩
      rw [c.advance_lastEnd, ← ((page_of_lex hlex).fair hc).file]
      rfl
    · refine .spanFrom (.pure ⟨.inl rfl, ?_⟩)
      show ∀ n ∈ Ty.nodesAll args, n.Placed file source
      rw [Ty.nodesAll_eq_flatMap]
      exact Whole.nodes_of_settled (w := .type) hargs
  · exact atom_yields type_builds hlex htype

omit hlex in
theorem quantified_yields (c : Cursor) : (quantified (type d)).Yields (Within ts) file c
    (Whole.type.Shaped file source c.current.span.start) := by
  unfold quantified
  exact .located (.advance (Yields.names.bind fun _ _ _ _ => .expect fun _ =>
    (htype _).bind fun t c' _ ht => .pure ⟨.inl rfl, ht⟩))

theorem typeWithin_settles (c : Cursor) :
    (typeWithin (type d)).Yields (Within ts) file c fun _ => Whole.type.Settled file source := by
  induction hlen : c.remaining.length using Nat.strongRecOn generalizing c with
  | ind n ih =>
    refine (stands_type (d + 1)).settles hlex (.within fun hc => ?_)
    have hended := (page_of_lex hlex).ended hc
    refine .congr (typeWithin_eq (fun c hc => typeApplication_shortens d hc) hended) ?_
    refine .test (fun _ => quantified_yields htype c) fun _ => .start ?_
    refine (typeApplication_settles hlex htype c).bind fun t c₁ hrun ht => ?_
    obtain ⟨hended₁, hlt⟩ := typeApplication_shortens d hended t c₁ hrun
    refine .test (fun harrow => .advance ?_) fun _ => .pure ht.shaped
    have hlt₁ := (hended₁.advance_of_isAt harrow (by decide)).2
    refine (ih _ (by omega) _ rfl).bind fun t' c₂ _ ht' => .spanFrom (.pure ⟨.inl rfl, fun n hn => ?_⟩)
    rcases List.mem_append.1 hn with hn | hn
    · exact ht n hn
    · exact ht' n hn

end

theorem type_settles (hlex : lex file source = .ok ts) (d : Nat) (c : Cursor) :
    (type d).Yields (Within ts) file c fun _ => Whole.type.Settled file source := by
  induction d generalizing c with
  | zero => exact .reject
  | succ d ih => exact typeWithin_settles hlex ih c

end Parser
end TinyFront
