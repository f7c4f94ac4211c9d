import TinyFront.Proofs.Groups

/-!
Forests beside layouts. A forest covers another one if it has every needed pair of that one around the
same words, and in the place of the other pairs something of the same sort. Main statement: what stands
for the parts of an expression stands for the expression, where it holds together as tightly as is asked
for. One rule for each way in which expressions are built.
-/
namespace TinyFront
namespace Forest

/-- Each needed pair of the second forest is around the same words in the first one, and each other
pair is a pair of that sort there. A forest with more words or fewer operators than the other one need
not have its pairs: it writes a unit that is left out there, or an operator as a name. -/
structure Covers (f g : Forest) : Prop where
  clean : f.Clean
  weight : g.weight ≤ f.weight
  operators : f.operators ≤ g.operators
  places : f.weight = g.weight → f.operators = g.operators → ∀ n,
    g.places (· == .needed) n ≤ f.places (· == .needed) n ∧
      ∀ r ≠ .needed, g.places (· == r) n ⊆ f.places (· == r) n

namespace Covers

variable {f f' g g' : Forest} {r : Reason} {w : Word}

theorem nil : Covers nil nil :=
  ⟨trivial, Nat.le_refl _, Nat.le_refl _, fun _ _ n => by simp [Forest.places]⟩

theorem append (h : f.Covers g) (h' : f'.Covers g') : (f ++ f').Covers (g ++ g') where
  clean := clean_append.2 ⟨h.clean, h'.clean⟩
  weight := by
    have := h.weight
    have := h'.weight
    simp only [weight_append]
    omega
  operators := by
    have := h.operators
    have := h'.operators
    simp only [operators_append]
    omega
  places hw ho n := by
    simp only [weight_append, operators_append] at hw ho
    have hweight : f.weight = g.weight ∧ f'.weight = g'.weight := by
      have := h.weight
      have := h'.weight
      omega
    have hoperators : f.operators = g.operators ∧ f'.operators = g'.operators := by
      have := h.operators
      have := h'.operators
      omega
    obtain ⟨hneeded, hother⟩ := h.places hweight.1 hoperators.1 n
    obtain ⟨hneeded', hother'⟩ := h'.places hweight.2 hoperators.2 (n + f.weight)
    simp only [places_append, ← hweight.1]
    refine ⟨add_le_add hneeded hneeded', fun r hr x hx => ?_⟩
    exact Multiset.mem_add.2 ((Multiset.mem_add.1 hx).imp (hother r hr ·) (hother' r hr ·))

theorem single (w : Word) : (single w).Covers (.single w) :=
  ⟨trivial, Nat.le_refl _, Nat.le_refl _, fun _ _ n => by simp [Forest.single, Forest.places]⟩

theorem word (w : Word) (h : f.Covers g) : (Forest.word w f).Covers (.word w g) :=
  (single w).append h

theorem unit (h : f.Covers g) : (Forest.unit f).Covers (.unit g) :=
  append (f := .unit .nil) (g := .unit .nil)
    ⟨trivial, Nat.le_refl _, Nat.le_refl _, fun _ _ n => by simp [Forest.places]⟩ h

theorem separator_left (h : f.Covers g) : (Forest.word .separator f).Covers g :=
  append (f := .single .separator) (g := .nil)
    ⟨trivial, Nat.le_refl _, Nat.le_refl _, fun _ _ n => by simp [Forest.single, Forest.places]⟩ h

theorem separator_right (h : f.Covers g) : f.Covers (.word .separator g) :=
  append (f := .nil) (g := .single .separator)
    ⟨trivial, Nat.le_refl _, Nat.le_refl _, fun _ _ n => by simp [Forest.single, Forest.places]⟩ h

theorem enclosed (r : Reason) (hf : 0 < f.weight) (h : f.Covers g) :
    (enclosed r f).Covers (.enclosed r g) where
  clean := ⟨hf, h.clean, trivial⟩
  weight := by simpa using h.weight
  operators := by simpa using h.operators
  places hw ho n := by
    simp only [weight_enclosed, operators_enclosed] at hw ho
    obtain ⟨hneeded, hother⟩ := h.places hw ho n
    simp only [places_enclosed, hw]
    refine ⟨add_le_add_right hneeded _, fun r' hr x hx => ?_⟩
    exact Multiset.mem_add.2 ((Multiset.mem_add.1 hx).imp_right (hother r' hr ·))

theorem around (r : Reason) (hf : 0 < f.weight) (h : f.Covers g) : (Forest.enclosed r f).Covers g where
  clean := ⟨hf, h.clean, trivial⟩
  weight := by simpa using h.weight
  operators := by simpa using h.operators
  places hw ho n := by
    simp only [weight_enclosed, operators_enclosed] at hw ho
    obtain ⟨hneeded, hother⟩ := h.places hw ho n
    simp only [places_enclosed]
    exact ⟨le_add_of_nonneg_of_le (Multiset.zero_le _) hneeded,
      fun r' hr x hx => Multiset.mem_add.2 (.inr (hother r' hr hx))⟩

/-- Nothing is asked for in the place of a pair that the other forest lacks. -/
theorem of_enclosed (h : f.Covers (.enclosed r g)) : f.Covers g where
  clean := h.clean
  weight := by simpa using h.weight
  operators := by simpa using h.operators
  places hw ho n := by
    obtain ⟨hneeded, hother⟩ := h.places (by simpa using hw) (by simpa using ho) n
    simp only [places_enclosed] at hneeded hother
    exact ⟨(le_add_of_nonneg_left (Multiset.zero_le _)).trans hneeded,
      fun r' hr x hx => hother r' hr (Multiset.mem_add.2 (.inr hx))⟩

theorem row {α : Type} {k : α → Forest} {parts : List (Forest × α)}
    (h : ∀ p ∈ parts, p.1.Covers (k p.2)) :
    (Forest.row (parts.map (·.1))).Covers (.row (parts.map fun p => k p.2)) := by
  induction parts with
  | nil => exact nil
  | cons p ps ih =>
    obtain ⟨hp, hps⟩ := List.forall_mem_cons.1 h
    exact hp.append (ih hps)

theorem separated_cons {gs : List Forest} (h : f.Covers g) (h' : f'.Covers (separated gs)) :
    (f ++ Forest.word .separator f').Covers (separated (g :: gs)) := by
  cases gs with
  | nil =>
    rw [separated, ← append_nil g]
    exact h.append h'.separator_left
  | cons g' gs => exact h.append (h'.word .separator)

theorem terminated {gs : List Forest} (h : f.Covers (separated gs)) :
    f.Covers (.row (gs.map (· ++ Forest.single .separator))) := by
  cases gs with
  | nil => exact h
  | cons g gs =>
    rw [row_terminated, ← append_nil f]
    exact h.append nil.separator_right

/-- Where an operator is written as a name, nothing is asked of pairs. -/
theorem of_operators (hf : f.Clean) (hw : g.weight ≤ f.weight) (ho : f.operators < g.operators) :
    f.Covers g := ⟨hf, hw, Nat.le_of_lt ho, fun _ h => absurd h (Nat.ne_of_lt ho)⟩

end Covers

/-- An operand can end where the forest does, whatever stands before it. -/
def Solid (f : Forest) : Prop := ∀ b, f.plain.ends b = true

theorem Solid.append {f : Forest} (h : f.Solid) (g : Forest) : (g ++ f).Solid := fun b => by
  rw [plain_append, ends_append]
  exact h _

theorem Solid.word {f : Forest} (h : f.Solid) (w : Word) : (Forest.word w f).Solid := fun _ => h _

theorem Solid.single {w : Word} (hw : w.ends = true) : (single w).Solid := fun _ => hw

theorem Solid.enclosed {f : Forest} (h : f.Solid) (r : Reason) : (enclosed r f).Solid := fun b => by
  cases r with
  | needed => rfl
  | lambda | argument =>
    show (f.plain ++ .nil).ends b = true
    rw [append_nil]
    exact h b

/-- The forest stands for the expression wherever one is asked for that holds together so tightly, or
less tightly. A lambda has its own place everywhere. -/
structure Stands (f : Forest) (e : Expr Unit) (s : Strength) : Prop where
  positive : 0 < f.weight
  solid : f.Solid
  covers : ∀ s' : Strength, s'.rank ≤ s.rank ∨ e.isLambda = true → f.Covers (e.grouped s')

structure Argues (f : Forest) (e : Expr Unit) : Prop where
  solid : f.Solid
  covers : f.Covers e.argued

/-- What an argument asks for that is neither one as it stands nor a selection. -/
def Loose (f : Forest) (e : Expr Unit) : Prop :=
  e.isArgument = false → e.isSelection = false → f.Covers (enclosed .needed e.nests)

end Forest

namespace Expr

variable {e : Expr Unit} {s : Strength}

@[simp] theorem grouped_top (e : Expr Unit) : e.grouped .top = e.nests :=
  grouped_of_not_weaker (by simp)

@[simp] theorem weight_grouped (e : Expr Unit) (s : Strength) :
    (e.grouped s).weight = e.nests.weight := by
  rw [grouped, inContext]
  split <;> simp

@[simp] theorem operators_grouped (e : Expr Unit) (s : Strength) :
    (e.grouped s).operators = e.nests.operators := by
  rw [grouped, inContext]
  split <;> simp

@[simp] theorem weight_argued (e : Expr Unit) : e.argued.weight = e.nests.weight := by
  rw [argued, asArgument]
  split <;> simp

@[simp] theorem operators_argued (e : Expr Unit) : e.argued.operators = e.nests.operators := by
  rw [argued, asArgument]
  split <;> simp

end Expr

namespace Forest

variable {f g : Forest} {e : Expr Unit} {s : Strength}

namespace Stands

theorem mono {s' : Strength} (h : f.Stands e s) (hs : s'.rank ≤ s.rank) : f.Stands e s' :=
  ⟨h.positive, h.solid, fun t ht => h.covers t (ht.imp_left (Nat.le_trans · hs))⟩

theorem nests (h : f.Stands e s) : f.Covers e.nests := by
  simpa using h.covers .top (.inl (Nat.zero_le _))

/-- Where an expression holds together as tightly as is asked for, there is no pair around it. -/
theorem of_covers (hf : 0 < f.weight) (hsolid : f.Solid) (h : f.Covers e.nests)
    (hs : s.rank ≤ e.strength.rank) (he : e.isLambda = false) : f.Stands e s := by
  refine ⟨hf, hsolid, fun s' hs' => ?_⟩
  rw [Expr.grouped_of_not_weaker]
  · exact h
  · have := hs'.resolve_right (by simp [he])
    simp only [Strength.weaker, decide_eq_false_iff_not]
    omega

theorem enclosed (h : f.Stands e .top) : (Forest.enclosed .needed f).Stands e s := by
  refine ⟨by simpa using h.positive, h.solid.enclosed .needed, fun s' _ => ?_⟩
  cases hw : e.strength.weaker s' with
  | false =>
    rw [Expr.grouped_of_not_weaker hw]
    exact h.nests.around .needed h.positive
  | true =>
    cases hl : e.isLambda with
    | false =>
      rw [Expr.grouped_of_weaker hw, hl]
      exact h.nests.enclosed .needed h.positive
    | true => exact (h.covers s' (.inr hl)).around .needed h.positive

theorem lambda {n : String} {b : Expr Unit} (h : f.Stands b .top) :
    (Forest.enclosed .lambda (.word .other (.word .ender (.word .other f)))).Stands
      (.lambda n b ()) s := by
  have hcovers : (Forest.word .other (.word .ender (.word .other f))).Covers
      (Expr.lambda n b ()).nests := ((h.nests.word .other).word .ender).word .other
  have hpositive : 0 < (Forest.word .other (.word .ender (.word .other f))).weight := by
    simp only [weight, Word.weight]
    omega
  refine ⟨by simpa using hpositive,
    (((h.solid.word .other).word .ender).word .other).enclosed .lambda, fun s' _ => ?_⟩
  cases hw : (Expr.lambda n b ()).strength.weaker s' with
  | false =>
    rw [Expr.grouped_of_not_weaker hw]
    exact hcovers.around .lambda hpositive
  | true =>
    rw [Expr.grouped_of_weaker hw]
    exact hcovers.enclosed .lambda hpositive

theorem operation {o : Operator} {l r : Expr Unit} (hl : f.Stands l o.strength)
    (hr : g.Stands r o.rightStrength) :
    (f ++ .word .operator g).Stands (.apply (.apply (.leaf (.name o.name) ()) l ()) r ())
      o.strength := by
  have hl' := hl.positive
  refine of_covers (by rw [weight_append]; omega) ((hr.solid.word .operator).append f) ?_ ?_ rfl
  · rw [Expr.nests_operation]
    exact (hl.covers _ (.inl (Nat.le_refl _))).append
      ((hr.covers _ (.inl (Nat.le_refl _))).word .operator)
  · rw [Expr.strength_of_operation? Expr.operation?_eq]

/-- An operator that is written as a name makes an infix operation without the operator. -/
theorem apply {c a : Expr Unit} (hc : f.Stands c .application) (ha : g.Argues a) :
    (f ++ g).Stands (.apply c a ()) .application := by
  have hpositive : 0 < (f ++ g).weight := by
    have := hc.positive
    rw [weight_append]
    omega
  cases h : (Expr.apply c a ()).operation? with
  | none =>
    refine of_covers hpositive (ha.solid.append f) ?_ (by simp [Expr.strength, h]) rfl
    rw [Expr.nests_apply h]
    exact (hc.covers _ (.inl (Nat.le_refl _))).append ha.covers
  | some p =>
    obtain ⟨o, l, r⟩ := p
    obtain ⟨u, v, s', heq⟩ := Expr.eq_of_operation? h
    cases heq
    refine ⟨hpositive, ha.solid.append f, fun s' _ => ?_⟩
    have hpartial : (Expr.apply (.leaf (.name o.name) ()) l ()).operation? = none := rfl
    have hleaf : (Expr.leaf (.name o.name) ()).nests = single .ender := rfl
    have hweight := hc.nests.weight
    have hoperators := hc.nests.operators
    have hweight' := ha.covers.weight
    have hoperators' := ha.covers.operators
    simp only [Expr.nests_apply hpartial, weight_append, operators_append, Expr.weight_grouped,
      Expr.operators_grouped, Expr.weight_argued, Expr.operators_argued, hleaf, weight_single]
      at hweight hoperators hweight' hoperators'
    refine Covers.of_operators (clean_append.2 ⟨hc.nests.clean, ha.covers.clean⟩) ?_ ?_
    · simp only [Expr.weight_grouped, Expr.nests_operation, weight_append, weight, Word.weight]
        at hweight ⊢
      omega
    · simp only [Expr.operators_grouped, Expr.nests_operation, operators_append, operators, single,
        if_true, reduceCtorEq, if_false] at hoperators ⊢
      omega

theorem access {n : String} (h : f.Stands e .primary) :
    (f ++ .word .link (single .ender)).Stands (.access e n ()) .primary := by
  have := h.positive
  refine of_covers (by rw [weight_append]; omega) (((Solid.single rfl).word .link).append f) ?_
    (Nat.le_refl _) rfl
  rw [Expr.nests]
  exact (h.covers _ (.inl (Nat.le_refl _))).append ((Covers.single .ender).word .link)

theorem record {fs : List (FieldValue Unit)} (h : f.Stands e .primary)
    (hg : g.Covers (separated (fs.map FieldValue.nests))) :
    (f ++ .word .brace (g ++ single .closer)).Stands (.record e fs ()) .primary := by
  have := h.positive
  refine of_covers (by rw [weight_append]; omega) ((((Solid.single rfl).append g).word .brace).append f)
    ?_ (Nat.le_refl _) rfl
  rw [Expr.nests, FieldValue.nestsAll_eq_map]
  exact (h.covers _ (.inl (Nat.le_refl _))).append ((hg.append (Covers.single .closer)).word .brace)

theorem ascribe {t : Ty Unit} (h : f.Stands e .additive) (hg : g.Covers (t.nests .top))
    (hsolid : g.Solid) : (f ++ .word .link g).Stands (.ascribe e t ()) .top := by
  have := h.positive
  refine of_covers (by rw [weight_append]; omega) ((hsolid.word .link).append f) ?_
    (Nat.le_refl _) rfl
  rw [Expr.nests]
  exact (h.covers _ (.inl (Nat.le_refl _))).append (hg.word .link)

/-- What gets a pair of its own as an argument, though it is a selection, is told by its place. -/
theorem argues (h : f.Stands e .primary) (hl : f.Loose e ∨ e.isSelection = true) :
    (if e.isDetached then Forest.enclosed .argument f else f).Argues e := by
  cases ha : e.isArgument with
  | true =>
    rw [if_neg (by simp [Expr.isDetached, ha])]
    refine ⟨h.solid, ?_⟩
    rw [Expr.argued_of_isArgument ha]
    exact h.nests
  | false =>
    have hargued := Expr.argued_of_not_isArgument ha
    cases hs : e.isSelection with
    | true =>
      rw [if_pos (by simp [Expr.isDetached, ha, hs])]
      refine ⟨h.solid.enclosed .argument, ?_⟩
      rw [hargued, hs]
      exact h.nests.enclosed .argument h.positive
    | false =>
      rw [if_neg (by simp [Expr.isDetached, hs])]
      refine ⟨h.solid, ?_⟩
      rw [hargued, hs]
      exact hl.resolve_right (by simp [hs]) ha hs

end Stands

theorem Loose.enclosed (hf : 0 < f.weight) (h : f.Covers e.nests) :
    (Forest.enclosed .needed f).Loose e := fun _ _ => h.enclosed .needed hf

end Forest
end TinyFront
