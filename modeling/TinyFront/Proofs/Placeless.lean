import TinyFront.Format.Calls

/-!
Layout without places. Main statements: trees that differ only in their places have the same marks,
so they are laid out as the same text, and laying them out takes the same calls.
-/
namespace TinyFront

open Mark

variable {σ τ : Type}

namespace Pattern

mutual

theorem marks_map (f : σ → τ) (nested : Bool) :
    ∀ p : Pattern σ, (p.map f).marks nested = p.marks nested
  | leaf _ _ => rfl
  | tuple ps _ => by simp [map, marks, marksAll_mapAll f false ps]
  | constructor _ [] _ => rfl
  | constructor n (p :: ps) _ => by
    simp [map, mapAll, marks, marksAll, marks_map f true p, marksAll_mapAll f true ps]

theorem marksAll_mapAll (f : σ → τ) (nested : Bool) :
    ∀ ps : List (Pattern σ), marksAll nested (mapAll f ps) = marksAll nested ps
  | [] => rfl
  | p :: ps => by simp [mapAll, marksAll, marks_map f nested p, marksAll_mapAll f nested ps]

end

theorem marksAll_eq_map (nested : Bool) (ps : List (Pattern σ)) :
    marksAll nested ps = ps.map (marks nested) := by
  induction ps with
  | nil => rfl
  | cons p ps ih => simp [marksAll, ih]

end Pattern

namespace Ty

mutual

theorem marks_map (f : σ → τ) (context : TypeContext) :
    ∀ t : Ty σ, (t.map f).marks context = t.marks context
  | leaf _ _ => rfl
  | var _ _ => rfl
  | tuple ts _ => by simp [map, marks, marksAll_mapAll f .top ts]
  | app n ts _ => by simp [map, marks, marksAll_mapAll f .argument ts]
  | arrow d c _ => by simp [map, marks, marks_map f .domain d, marks_map f .top c]
  | quantified bs t _ => by simp [map, marks, marks_map f .top t]

theorem marksAll_mapAll (f : σ → τ) (context : TypeContext) :
    ∀ ts : List (Ty σ), marksAll context (mapAll f ts) = marksAll context ts
  | [] => rfl
  | t :: ts => by simp [mapAll, marksAll, marks_map f context t, marksAll_mapAll f context ts]

end

theorem marksAll_eq_map (context : TypeContext) (ts : List (Ty σ)) :
    marksAll context ts = ts.map (marks context) := by
  induction ts with
  | nil => rfl
  | cons t ts ih => simp [marksAll, ih]

end Ty

namespace Expr

theorem eq_of_operation? {e l r : Expr σ} {o : Operator} (h : e.operation? = some (o, l, r)) :
    ∃ u v s, e = apply (apply (leaf (.name o.name) u) l v) r s := by
  unfold operation? at h
  split at h
  · obtain ⟨o', ho, heq⟩ := Option.map_eq_some_iff.1 h
    cases heq
    rw [Operator.name_of_ofName? ho]
    exact ⟨_, _, _, rfl⟩
  · cases h

theorem operation?_eq {l r : Expr σ} {o : Operator} {u v s : σ} :
    (apply (apply (leaf (.name o.name) u) l v) r s).operation? = some (o, l, r) := by
  simp [operation?]

theorem marks_apply {c a : Expr σ} {s : σ} (h : (apply c a s).operation? = none) (depth : Nat) :
    (apply c a s).marks depth =
      enclosed (c.strength.weaker .application) (c.marks depth) ++
        gap :: enclosed (!a.isArgument) (a.marks depth) := by
  by_cases hc : ∃ n u l v, c = apply (leaf (.name n) u) l v
  · obtain ⟨n, u, l, v, rfl⟩ := hc
    have hn : Operator.ofName? n = none := by simpa [operation?] using h
    rw [Expr.marks, hn]
    rfl
  · rw [Expr.marks]
    exact fun n u l v heq => hc ⟨n, u, l, v, heq⟩

theorem marks_operation {l r : Expr σ} {o : Operator} {u v s : σ} (depth : Nat) :
    (apply (apply (leaf (.name o.name) u) l v) r s).marks depth =
      enclosed (l.strength.weaker o.strength) (l.marks depth) ++ [gap, lexeme o.symbol, gap] ++
        enclosed (r.strength.weaker o.rightStrength) (r.marks depth) := by
  rw [Expr.marks, Operator.ofName?_name]

theorem operation?_map (f : σ → τ) (e : Expr σ) :
    (e.map f).operation? = e.operation?.map fun p => (p.1, p.2.1.map f, p.2.2.map f) := by
  cases e with
  | apply c a s =>
    cases c with
    | apply c l v =>
      cases c with
      | leaf lf u => cases lf <;> simp [map, operation?, Option.map_map, Function.comp_def]
      | _ => rfl
    | _ => rfl
  | _ => rfl

theorem strength_map (f : σ → τ) (e : Expr σ) : (e.map f).strength = e.strength := by
  unfold strength
  rw [operation?_map]
  cases e.operation? with
  | some p => rfl
  | none => cases e <;> rfl

theorem isArgument_map (f : σ → τ) : ∀ e : Expr σ, (e.map f).isArgument = e.isArgument
  | leaf _ _ | tuple _ _ | apply _ _ _ | lambda _ _ _ | caseOf _ _ _ | ifLet _ _ _ _ _ | ascribe _ _ _
  | block _ _ => rfl
  | access e _ _ => isArgument_map f e
  | record e _ _ => isArgument_map f e

end Expr

theorem isUnitBlock_mapAll (f : σ → τ) (ss : List (Statement σ)) :
    isUnitBlock (Statement.mapAll f ss) = isUnitBlock ss := by
  rcases ss with _ | ⟨_ | ⟨e, s⟩, ss⟩
  · rfl
  · rfl
  · cases e with
    | leaf l _ =>
      rcases ss with _ | ⟨_ | _, ss⟩ <;> cases l <;> rfl
    | _ => rfl

mutual

theorem Expr.marks_map (f : σ → τ) (depth : Nat) (e : Expr σ) :
    (e.map f).marks depth = e.marks depth := by
  match e with
  | .leaf _ _ => rfl
  | .tuple es _ => simp [Expr.map, Expr.marks, Expr.marksAll_mapAll f depth es]
  | .apply c a s =>
    cases h : (Expr.apply c a s).operation? with
    | none =>
      have hmap : ((Expr.apply c a s).map f).operation? = none := by rw [Expr.operation?_map, h]; rfl
      rw [Expr.map] at hmap ⊢
      rw [Expr.marks_apply hmap, Expr.marks_apply h, Expr.strength_map, Expr.isArgument_map,
        Expr.marks_map f depth c, Expr.marks_map f depth a]
    | some p =>
      obtain ⟨o, l, r⟩ := p
      obtain ⟨u, v, s', heq⟩ := Expr.eq_of_operation? h
      cases heq
      rw [Expr.map, Expr.map, Expr.map, Expr.marks_operation, Expr.marks_operation,
        Expr.strength_map, Expr.strength_map, Expr.marks_map f depth l, Expr.marks_map f depth a]
  | .lambda _ b _ => simp [Expr.map, Expr.marks, Expr.marks_map f depth b]
  | .caseOf e [] _ => simp [Expr.map, Clause.mapAll, Expr.marks, Expr.marks_map f depth e]
  | .caseOf e (⟨p, b, s⟩ :: cs) _ =>
    simp [Expr.map, Clause.mapAll, Expr.marks, Clause.marksAll, Pattern.marks_map,
      Expr.marks_map f depth e, Expr.marks_map f (depth + 1) b, Clause.marksAll_mapAll f depth cs]
  | .ifLet p e t l _ =>
    simp [Expr.map, Expr.marks, Pattern.marks_map, Expr.marks_map f depth e,
      Expr.marks_map f depth t, Expr.marks_map f depth l]
  | .access e n _ => simp [Expr.map, Expr.marks, Expr.strength_map, Expr.marks_map f depth e]
  | .ascribe e t _ =>
    simp [Expr.map, Expr.marks, Expr.strength_map, Ty.marks_map, Expr.marks_map f depth e]
  | .record e fs _ =>
    simp [Expr.map, Expr.marks, Expr.strength_map, Expr.marks_map f depth e,
      FieldValue.marksAll_mapAll f depth fs]
  | .block ss _ =>
    simp [Expr.map, Expr.marks, isUnitBlock_mapAll, Statement.marksAll_mapAll f (depth + 1) ss]
termination_by sizeOf e

theorem Expr.marksAll_mapAll (f : σ → τ) (depth : Nat) (es : List (Expr σ)) :
    Expr.marksAll depth (Expr.mapAll f es) = Expr.marksAll depth es := by
  match es with
  | [] => rfl
  | e :: es => simp [Expr.mapAll, Expr.marksAll, Expr.marks_map f depth e, Expr.marksAll_mapAll f depth es]
termination_by sizeOf es

theorem Clause.marksAll_mapAll (f : σ → τ) (depth : Nat) (cs : List (Clause σ)) :
    Clause.marksAll depth (Clause.mapAll f cs) = Clause.marksAll depth cs := by
  match cs with
  | [] => rfl
  | ⟨p, e, _⟩ :: cs =>
    simp [Clause.mapAll, Clause.marksAll, Pattern.marks_map, Expr.marks_map f (depth + 1) e,
      Clause.marksAll_mapAll f depth cs]
termination_by sizeOf cs

theorem FieldValue.marksAll_mapAll (f : σ → τ) (depth : Nat) (fs : List (FieldValue σ)) :
    FieldValue.marksAll depth (FieldValue.mapAll f fs) = FieldValue.marksAll depth fs := by
  match fs with
  | [] => rfl
  | ⟨n, e, _⟩ :: fs =>
    simp [FieldValue.mapAll, FieldValue.marksAll, Expr.marks_map f depth e,
      FieldValue.marksAll_mapAll f depth fs]
termination_by sizeOf fs

theorem Statement.marksAll_mapAll (f : σ → τ) (depth : Nat) (ss : List (Statement σ)) :
    Statement.marksAll depth (Statement.mapAll f ss) = Statement.marksAll depth ss := by
  match ss with
  | [] => rfl
  | .bind p e _ :: ss =>
    simp [Statement.mapAll, Statement.marksAll, Pattern.marks_map, Expr.marks_map f depth e,
      Statement.marksAll_mapAll f depth ss]
  | .expr e _ :: ss =>
    simp [Statement.mapAll, Statement.marksAll, Expr.marks_map f depth e,
      Statement.marksAll_mapAll f depth ss]
termination_by sizeOf ss

end

theorem Param.marks_map (f : σ → τ) (p : Param σ) : (p.map f).marks = p.marks := by
  simp [Param.map, Param.marks, typedMarks, Pattern.marks_map, Ty.marks_map]

theorem Variant.marks_map (f : σ → τ) (v : Variant σ) : (v.map f).marks = v.marks := by
  simp [Variant.map, Variant.marks, ← Ty.mapAll_eq_map, Ty.marksAll_mapAll]

theorem Field.marks_map (f : σ → τ) (d : Field σ) : (d.map f).marks = d.marks := by
  simp [Field.map, Field.marks, Ty.marks_map]

theorem TypeBody.marks_map (f : σ → τ) : ∀ b : TypeBody σ, (b.map f).marks = b.marks
  | .sum vs => by simp [TypeBody.map, TypeBody.marks, Function.comp_def, Variant.marks_map]
  | .product [] => rfl
  | .product (d :: ds) => by
    simp [TypeBody.map, TypeBody.marks, Function.comp_def, Field.marks_map]

theorem Decl.marks_map (f : σ → τ) : ∀ d : Decl σ, (d.map f).marks = d.marks
  | .fn n ps r b _ => by
    cases r <;> simp [Decl.map, Decl.marks, Function.comp_def, Param.marks_map, Ty.marks_map,
      Expr.marks_map]
  | .type n ps b _ => by simp [Decl.map, Decl.marks, TypeBody.marks_map]

theorem Program.marks_map (f : σ → τ) (p : Program σ) : (p.map f).marks = p.marks := by
  obtain ⟨_ | ⟨d, ds⟩, s⟩ := p
  · rfl
  · simp [Program.map, Program.marks, Function.comp_def, Decl.marks_map]

theorem Tree.marks_map (f : σ → τ) : ∀ t : Tree σ, (t.map f).marks = t.marks
  | .program p => p.marks_map f
  | .expression e => e.marks_map f 0
  | .pattern p => p.marks_map f false
  | .type t => t.marks_map f .top

/-- Places have no part in the layout. -/
theorem Tree.format_map (f : σ → τ) (indent : Nat) (t : Tree σ) :
    (t.map f).format indent = t.format indent := by
  rw [Tree.format, Tree.format, Tree.marks_map]

/-! Calls without places. -/

namespace Pattern

mutual

theorem calls_map (f : σ → τ) : ∀ p : Pattern σ, (p.map f).calls = p.calls
  | leaf _ _ => rfl
  | tuple ps _ => by
    rw [map, calls, calls, callsAll_mapAll f ps, mapAll_eq_map, List.length_map]
  | constructor _ [] _ => rfl
  | constructor _ (p :: ps) _ => by
    simp [map, mapAll, calls, callsAll, calls_map f p, callsAll_mapAll f ps]

theorem callsAll_mapAll (f : σ → τ) : ∀ ps : List (Pattern σ), callsAll (mapAll f ps) = callsAll ps
  | [] => rfl
  | p :: ps => by rw [mapAll, callsAll, callsAll, calls_map f p, callsAll_mapAll f ps]

end
end Pattern

namespace Ty

mutual

theorem calls_map (f : σ → τ) : ∀ t : Ty σ, (t.map f).calls = t.calls
  | leaf _ _ => rfl
  | var _ _ => rfl
  | tuple ts _ => by
    rw [map, calls, calls, callsAll_mapAll f ts, mapAll_eq_map, List.length_map]
  | app _ ts _ => by rw [map, calls, calls, callsAll_mapAll f ts]
  | arrow d c _ => by rw [map, calls, calls, calls_map f d, calls_map f c]
  | quantified _ t _ => by rw [map, calls, calls, calls_map f t]

theorem callsAll_mapAll (f : σ → τ) : ∀ ts : List (Ty σ), callsAll (mapAll f ts) = callsAll ts
  | [] => rfl
  | t :: ts => by rw [mapAll, callsAll, callsAll, calls_map f t, callsAll_mapAll f ts]

end
end Ty

namespace Expr

theorem calls_apply {c a : Expr σ} {s : σ} (h : (apply c a s).operation? = none) :
    (apply c a s).calls = max c.calls (a.calls + 1) + 2 := by
  by_cases hc : ∃ n u l v, c = apply (leaf (.name n) u) l v
  · obtain ⟨n, u, l, v, rfl⟩ := hc
    have hn : Operator.ofName? n = none := by simpa [operation?] using h
    rw [calls, hn]
  · rw [calls]
    exact fun n u l v heq => hc ⟨n, u, l, v, heq⟩

theorem calls_operation {l r : Expr σ} {o : Operator} {u v s : σ} :
    (apply (apply (leaf (.name o.name) u) l v) r s).calls = max l.calls r.calls + 2 := by
  rw [calls, Operator.ofName?_name]

end Expr

mutual

theorem Expr.calls_map (f : σ → τ) (e : Expr σ) : (e.map f).calls = e.calls := by
  match e with
  | .leaf _ _ => rfl
  | .tuple es _ =>
    rw [Expr.map, Expr.calls, Expr.calls, Expr.callsAll_mapAll f es, Expr.mapAll_eq_map, List.length_map]
  | .apply c a s =>
    cases h : (Expr.apply c a s).operation? with
    | none =>
      have hmap : ((Expr.apply c a s).map f).operation? = none := by rw [Expr.operation?_map, h]; rfl
      rw [Expr.map] at hmap ⊢
      rw [Expr.calls_apply hmap, Expr.calls_apply h, Expr.calls_map f c, Expr.calls_map f a]
    | some p =>
      obtain ⟨o, l, r⟩ := p
      obtain ⟨u, v, s', heq⟩ := Expr.eq_of_operation? h
      cases heq
      rw [Expr.map, Expr.map, Expr.map, Expr.calls_operation, Expr.calls_operation,
        Expr.calls_map f l, Expr.calls_map f a]
  | .lambda _ b _ => rw [Expr.map, Expr.calls, Expr.calls, Expr.calls_map f b]
  | .caseOf e [] _ => rw [Expr.map, Clause.mapAll, Expr.calls, Expr.calls, Expr.calls_map f e]
  | .caseOf e (⟨p, b, s⟩ :: cs) _ =>
    simp [Expr.map, Clause.mapAll, Expr.calls, Clause.callsAll, Pattern.calls_map,
      Expr.calls_map f e, Expr.calls_map f b, Clause.callsAll_mapAll f cs]
  | .ifLet p e t l _ =>
    rw [Expr.map, Expr.calls, Expr.calls, Pattern.calls_map, Expr.calls_map f e,
      Expr.calls_map f t, Expr.calls_map f l]
  | .access e n _ => rw [Expr.map, Expr.calls, Expr.calls, Expr.calls_map f e]
  | .ascribe e t _ => rw [Expr.map, Expr.calls, Expr.calls, Ty.calls_map, Expr.calls_map f e]
  | .record e fs _ =>
    rw [Expr.map, Expr.calls, Expr.calls, Expr.calls_map f e, FieldValue.callsAll_mapAll f fs]
  | .block ss _ =>
    rw [Expr.map, Expr.calls, Expr.calls, isUnitBlock_mapAll, Statement.callsAll_mapAll f ss]
termination_by sizeOf e

theorem Expr.callsAll_mapAll (f : σ → τ) (es : List (Expr σ)) :
    Expr.callsAll (Expr.mapAll f es) = Expr.callsAll es := by
  match es with
  | [] => rfl
  | e :: es =>
    rw [Expr.mapAll, Expr.callsAll, Expr.callsAll, Expr.calls_map f e, Expr.callsAll_mapAll f es]
termination_by sizeOf es

theorem Clause.callsAll_mapAll (f : σ → τ) (cs : List (Clause σ)) :
    Clause.callsAll (Clause.mapAll f cs) = Clause.callsAll cs := by
  match cs with
  | [] => rfl
  | ⟨p, e, _⟩ :: cs =>
    rw [Clause.mapAll, Clause.callsAll, Clause.callsAll, Pattern.calls_map, Expr.calls_map f e,
      Clause.callsAll_mapAll f cs]
termination_by sizeOf cs

theorem FieldValue.callsAll_mapAll (f : σ → τ) (fs : List (FieldValue σ)) :
    FieldValue.callsAll (FieldValue.mapAll f fs) = FieldValue.callsAll fs := by
  match fs with
  | [] => rfl
  | ⟨n, e, _⟩ :: fs =>
    rw [FieldValue.mapAll, FieldValue.callsAll, FieldValue.callsAll, Expr.calls_map f e,
      FieldValue.callsAll_mapAll f fs]
termination_by sizeOf fs

theorem Statement.callsAll_mapAll (f : σ → τ) (ss : List (Statement σ)) :
    Statement.callsAll (Statement.mapAll f ss) = Statement.callsAll ss := by
  match ss with
  | [] => rfl
  | .bind p e _ :: ss =>
    rw [Statement.mapAll, Statement.callsAll, Statement.callsAll, Pattern.calls_map,
      Expr.calls_map f e, Statement.callsAll_mapAll f ss]
  | .expr e _ :: ss =>
    rw [Statement.mapAll, Statement.callsAll, Statement.callsAll, Expr.calls_map f e,
      Statement.callsAll_mapAll f ss]
termination_by sizeOf ss

end

theorem Param.calls_map (f : σ → τ) (p : Param σ) : (p.map f).calls = p.calls := by
  simp [Param.map, Param.calls, Pattern.calls_map, Ty.calls_map]

theorem Variant.calls_map (f : σ → τ) (v : Variant σ) : (v.map f).calls = v.calls := by
  simp [Variant.map, Variant.calls, ← Ty.mapAll_eq_map, Ty.callsAll_mapAll]

theorem Field.calls_map (f : σ → τ) (d : Field σ) : (d.map f).calls = d.calls := by
  simp [Field.map, Field.calls, Ty.calls_map]

theorem Decl.calls_map (f : σ → τ) (d : Decl σ) : (d.map f).calls = d.calls := by
  rcases d with ⟨_, _, _ | _, _, _⟩ | ⟨_, _, _ | _, _⟩ <;>
    simp [Decl.map, TypeBody.map, Decl.calls, Function.comp_def, Param.calls_map, Variant.calls_map,
      Field.calls_map, Ty.calls_map, Expr.calls_map]

theorem Program.calls_map (f : σ → τ) (p : Program σ) : (p.map f).calls = p.calls := by
  simp [Program.map, Program.calls, Function.comp_def, Decl.calls_map]

end TinyFront
