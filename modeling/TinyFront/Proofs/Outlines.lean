import TinyFront.Tree.Outline

/-!
Outlines of trees at other places. Main statement: a tree whose places are sent elsewhere has the same
nodes in the same order, with their spans sent there.
-/
namespace TinyFront

variable (f : Span → Span)

namespace Outline

mutual

def map : Outline → Outline
  | ⟨label, s, fields⟩ => ⟨label, s.map f, mapFields fields⟩

def mapFields : List OutlineField → List OutlineField
  | [] => []
  | .node name o :: fs => .node name (map o) :: mapFields fs
  | .nodes name os :: fs => .nodes name (mapAll os) :: mapFields fs
  | field :: fs => field :: mapFields fs

def mapAll : List Outline → List Outline
  | [] => []
  | o :: os => map o :: mapAll os

end

theorem mapAll_eq_map (os : List Outline) : mapAll f os = os.map (map f) := by
  induction os with
  | nil => rfl
  | cons o os ih => rw [mapAll, ih, List.map_cons]

theorem spannedAll_eq_flatMap (os : List Outline) : spannedAll os = os.flatMap spanned := by
  induction os with
  | nil => rfl
  | cons o os ih => rw [spannedAll, ih, List.flatMap_cons]

mutual

/-- The nodes of an outline at other places are its nodes at other places. -/
theorem spanned_map : ∀ o : Outline, (o.map f).spanned = o.spanned.map (Prod.map id f)
  | ⟨label, some s, fields⟩ => by simp [map, spanned, spannedFields_mapFields fields]
  | ⟨label, none, fields⟩ => by simp [map, spanned, spannedFields_mapFields fields]

theorem spannedFields_mapFields : ∀ fs : List OutlineField,
    spannedFields (mapFields f fs) = (spannedFields fs).map (Prod.map id f)
  | [] => rfl
  | .node _ o :: fs => by simp [mapFields, spannedFields, spanned_map o, spannedFields_mapFields fs]
  | .nodes _ os :: fs => by
    simp [mapFields, spannedFields, spannedAll_mapAll os, spannedFields_mapFields fs]
  | .text _ _ :: fs => spannedFields_mapFields fs
  | .texts _ _ :: fs => spannedFields_mapFields fs
  | .truth _ _ :: fs => spannedFields_mapFields fs
  | .number _ _ :: fs => spannedFields_mapFields fs
  | .absent _ :: fs => spannedFields_mapFields fs

theorem spannedAll_mapAll : ∀ os : List Outline,
    spannedAll (mapAll f os) = (spannedAll os).map (Prod.map id f)
  | [] => rfl
  | o :: os => by simp [mapAll, spannedAll, spanned_map o, spannedAll_mapAll os]

end

end Outline

open Outline (mapFields)

theorem Leaf.map_outline (l : Leaf) : l.outline.map f = l.outline := by cases l <;> rfl

theorem Outline.map_ofLeaf (family : String) (l : Leaf) (s : Span) :
    (Outline.ofLeaf family l s).map f = .ofLeaf family l (f s) := by
  simp [Outline.ofLeaf, Outline.map, mapFields, Leaf.map_outline]

theorem Outline.map_ofTuple (family : String) (os : List Outline) (s : Span) :
    (Outline.ofTuple family os s).map f = .ofTuple family (Outline.mapAll f os) (f s) := by
  simp [Outline.ofTuple, Outline.map, mapFields]

mutual

/-- A tree at other places has its outline at other places. -/
theorem Pattern.outline_map : ∀ p : Pattern Span, (p.map f).outline = p.outline.map f
  | .leaf l s => by simp only [Pattern.map, Pattern.outline, Outline.map_ofLeaf]
  | .tuple ps s => by
    simp only [Pattern.map, Pattern.outline, Outline.map_ofTuple, Pattern.outlineAll_mapAll ps]
  | .constructor n ps s => by
    simp [Pattern.map, Pattern.outline, Outline.map, mapFields, Pattern.outlineAll_mapAll ps]

theorem Pattern.outlineAll_mapAll : ∀ ps : List (Pattern Span),
    Pattern.outlineAll (Pattern.mapAll f ps) = Outline.mapAll f (Pattern.outlineAll ps)
  | [] => rfl
  | p :: ps => by
    simp only [Pattern.mapAll, Pattern.outlineAll, Outline.mapAll, Pattern.outline_map p,
      Pattern.outlineAll_mapAll ps]

end

mutual

theorem Ty.outline_map : ∀ t : Ty Span, (t.map f).outline = t.outline.map f
  | .leaf l s => by simp only [Ty.map, Ty.outline, Outline.map_ofLeaf]
  | .tuple ts s => by simp only [Ty.map, Ty.outline, Outline.map_ofTuple, Ty.outlineAll_mapAll ts]
  | .var n s => rfl
  | .app n ts s => by simp [Ty.map, Ty.outline, Outline.map, mapFields, Ty.outlineAll_mapAll ts]
  | .arrow d c s => by
    simp [Ty.map, Ty.outline, Outline.map, mapFields, Ty.outline_map d, Ty.outline_map c]
  | .quantified bs t s => by simp [Ty.map, Ty.outline, Outline.map, mapFields, Ty.outline_map t]

theorem Ty.outlineAll_mapAll : ∀ ts : List (Ty Span),
    Ty.outlineAll (Ty.mapAll f ts) = Outline.mapAll f (Ty.outlineAll ts)
  | [] => rfl
  | t :: ts => by
    simp only [Ty.mapAll, Ty.outlineAll, Outline.mapAll, Ty.outline_map t, Ty.outlineAll_mapAll ts]

end

mutual

theorem Expr.outline_map : ∀ e : Expr Span, (e.map f).outline = e.outline.map f
  | .leaf l s => by simp only [Expr.map, Expr.outline, Outline.map_ofLeaf]
  | .tuple es s => by
    simp only [Expr.map, Expr.outline, Outline.map_ofTuple, Expr.outlineAll_mapAll es]
  | .apply c a s => by
    simp [Expr.map, Expr.outline, Outline.map, mapFields, Expr.outline_map c, Expr.outline_map a]
  | .lambda p b s => by simp [Expr.map, Expr.outline, Outline.map, mapFields, Expr.outline_map b]
  | .caseOf e cs s => by
    simp [Expr.map, Expr.outline, Outline.map, mapFields, Expr.outline_map e,
      Clause.outlineAll_mapAll cs]
  | .ifLet p e t l s => by
    simp [Expr.map, Expr.outline, Outline.map, mapFields, Pattern.outline_map, Expr.outline_map e,
      Expr.outline_map t, Expr.outline_map l]
  | .access e n s => by simp [Expr.map, Expr.outline, Outline.map, mapFields, Expr.outline_map e]
  | .ascribe e t s => by
    simp [Expr.map, Expr.outline, Outline.map, mapFields, Expr.outline_map e, Ty.outline_map]
  | .record e fs s => by
    simp [Expr.map, Expr.outline, Outline.map, mapFields, Expr.outline_map e,
      FieldValue.outlineAll_mapAll fs]
  | .block ss s => by
    simp [Expr.map, Expr.outline, Outline.map, mapFields, Statement.outlineAll_mapAll ss]

theorem Expr.outlineAll_mapAll : ∀ es : List (Expr Span),
    Expr.outlineAll (Expr.mapAll f es) = Outline.mapAll f (Expr.outlineAll es)
  | [] => rfl
  | e :: es => by
    simp only [Expr.mapAll, Expr.outlineAll, Outline.mapAll, Expr.outline_map e, Expr.outlineAll_mapAll es]

theorem Clause.outlineAll_mapAll : ∀ cs : List (Clause Span),
    Clause.outlineAll (Clause.mapAll f cs) = Outline.mapAll f (Clause.outlineAll cs)
  | [] => rfl
  | ⟨p, e, s⟩ :: cs => by
    simp [Clause.mapAll, Clause.outlineAll, Outline.mapAll, Outline.map, mapFields, Pattern.outline_map,
      Expr.outline_map e, Clause.outlineAll_mapAll cs]

theorem FieldValue.outlineAll_mapAll : ∀ fs : List (FieldValue Span),
    FieldValue.outlineAll (FieldValue.mapAll f fs) = Outline.mapAll f (FieldValue.outlineAll fs)
  | [] => rfl
  | ⟨n, e, s⟩ :: fs => by
    simp [FieldValue.mapAll, FieldValue.outlineAll, Outline.mapAll, Outline.map, mapFields,
      Expr.outline_map e, FieldValue.outlineAll_mapAll fs]

theorem Statement.outlineAll_mapAll : ∀ ss : List (Statement Span),
    Statement.outlineAll (Statement.mapAll f ss) = Outline.mapAll f (Statement.outlineAll ss)
  | [] => rfl
  | .bind p e s :: ss => by
    simp [Statement.mapAll, Statement.outlineAll, Outline.mapAll, Outline.map, mapFields,
      Pattern.outline_map, Expr.outline_map e, Statement.outlineAll_mapAll ss]
  | .expr e s :: ss => by
    simp [Statement.mapAll, Statement.outlineAll, Outline.mapAll, Outline.map, mapFields,
      Expr.outline_map e, Statement.outlineAll_mapAll ss]

end

theorem Param.outline_map (p : Param Span) : (p.map f).outline = p.outline.map f := by
  simp [Param.map, Param.outline, Outline.map, mapFields, Pattern.outline_map, Ty.outline_map]

theorem Variant.outline_map (v : Variant Span) : (v.map f).outline = v.outline.map f := by
  simp [Variant.map, Variant.outline, Outline.map, mapFields, ← Ty.mapAll_eq_map,
    Ty.outlineAll_mapAll]

theorem Field.outline_map (d : Field Span) : (d.map f).outline = d.outline.map f := by
  simp [Field.map, Field.outline, Outline.map, mapFields, Ty.outline_map]

theorem outline_map_all {α : Type} {view : α → Outline} {g : α → α}
    (h : ∀ a, view (g a) = (view a).map f) (as : List α) :
    (as.map g).map view = Outline.mapAll f (as.map view) := by
  simp [Outline.mapAll_eq_map, h]

theorem TypeBody.outline_map (b : TypeBody Span) : (b.map f).outline = b.outline.map f := by
  cases b with
  | sum vs =>
    simp only [TypeBody.map, TypeBody.outline, Outline.map, mapFields, Option.map_none]
    rw [outline_map_all f (Variant.outline_map f)]
  | product ds =>
    simp only [TypeBody.map, TypeBody.outline, Outline.map, mapFields, Option.map_none]
    rw [outline_map_all f (Field.outline_map f)]

theorem Decl.outline_map (d : Decl Span) : (d.map f).outline = d.outline.map f := by
  cases d with
  | fn n ps r b s =>
    have hparams := outline_map_all f (Param.outline_map f) ps
    cases r with
    | none =>
      simp [Decl.map, Decl.outline, Outline.map, mapFields, Expr.outline_map, hparams, -List.map_map]
    | some t =>
      simp [Decl.map, Decl.outline, Outline.map, mapFields, Expr.outline_map, Ty.outline_map, hparams,
        -List.map_map]
  | type n ps b s => simp [Decl.map, Decl.outline, Outline.map, mapFields, TypeBody.outline_map]

theorem Program.outline_map (p : Program Span) : (p.map f).outline = p.outline.map f := by
  simp only [Program.map, Program.outline, Outline.map, mapFields, Option.map_some]
  rw [outline_map_all f (Decl.outline_map f)]

theorem Tree.nodes_map (t : Tree Span) : (t.map f).nodes = t.nodes.map (Prod.map id f) := by
  cases t with
  | program p =>
    simp [Tree.map, Tree.nodes, Program.map, List.flatMap_map, List.map_flatMap, Decl.outline_map,
      Outline.spanned_map]
  | expression e => exact (congrArg _ (e.outline_map f)).trans (Outline.spanned_map f _)
  | pattern p => exact (congrArg _ (p.outline_map f)).trans (Outline.spanned_map f _)
  | type t => exact (congrArg _ (t.outline_map f)).trans (Outline.spanned_map f _)

end TinyFront
