import TinyFront.Proofs.Nesting
import TinyFront.Proofs.Outlines
import TinyFront.Tree.Recover

/-!
Trees and their outlines. Main statements: a tree is recovered from its outline, which lists the fields of
every node as the schema has them; and a tree all of whose places stay where they are stays as it is.
-/
namespace TinyFront

open Outline (schema)

theorem Leaf.ofOutline_outline (l : Leaf) : Leaf.ofOutline l.outline = .ok l := by cases l <;> rfl

mutual

/-- A tree is recovered from its outline. -/
theorem Pattern.ofOutline_outline : ∀ p : Pattern Span, Pattern.ofOutline p.outline = .ok p
  | .leaf l s => by cases l <;> rfl
  | .tuple ps s => by
    simp only [Pattern.outline, Outline.ofTuple, Pattern.ofOutline, Pattern.ofOutlines_outlineAll ps]
    rfl
  | .constructor n ps s => by
    simp only [Pattern.outline, Pattern.ofOutline, Pattern.ofOutlines_outlineAll ps]
    rfl

theorem Pattern.ofOutlines_outlineAll : ∀ ps : List (Pattern Span),
    Pattern.ofOutlines (Pattern.outlineAll ps) = .ok ps
  | [] => rfl
  | p :: ps => by
    simp only [Pattern.outlineAll, Pattern.ofOutlines, Pattern.ofOutline_outline p,
      Pattern.ofOutlines_outlineAll ps]
    rfl

end

mutual

theorem Ty.ofOutline_outline : ∀ t : Ty Span, Ty.ofOutline t.outline = .ok t
  | .leaf l s => by cases l <;> rfl
  | .tuple ts s => by
    simp only [Ty.outline, Outline.ofTuple, Ty.ofOutline, Ty.ofOutlines_outlineAll ts]
    rfl
  | .var n s => rfl
  | .app n ts s => by
    simp only [Ty.outline, Ty.ofOutline, Ty.ofOutlines_outlineAll ts]
    rfl
  | .arrow d c s => by
    simp only [Ty.outline, Ty.ofOutline, Ty.ofOutline_outline d, Ty.ofOutline_outline c]
    rfl
  | .quantified bs t s => by
    simp only [Ty.outline, Ty.ofOutline, Ty.ofOutline_outline t]
    rfl

theorem Ty.ofOutlines_outlineAll : ∀ ts : List (Ty Span),
    Ty.ofOutlines (Ty.outlineAll ts) = .ok ts
  | [] => rfl
  | t :: ts => by
    simp only [Ty.outlineAll, Ty.ofOutlines, Ty.ofOutline_outline t, Ty.ofOutlines_outlineAll ts]
    rfl

end

mutual

theorem Expr.ofOutline_outline : ∀ e : Expr Span, Expr.ofOutline e.outline = .ok e
  | .leaf l s => by cases l <;> rfl
  | .tuple es s => by
    simp only [Expr.outline, Outline.ofTuple, Expr.ofOutline, Expr.ofOutlines_outlineAll es]
    rfl
  | .apply c a s => by
    simp only [Expr.outline, Expr.ofOutline, Expr.ofOutline_outline c, Expr.ofOutline_outline a]
    rfl
  | .lambda p b s => by
    simp only [Expr.outline, Expr.ofOutline, Expr.ofOutline_outline b]
    rfl
  | .caseOf e cs s => by
    simp only [Expr.outline, Expr.ofOutline, Expr.ofOutline_outline e, Clause.ofOutlines_outlineAll cs]
    rfl
  | .ifLet p e t l s => by
    simp only [Expr.outline, Expr.ofOutline, Pattern.ofOutline_outline, Expr.ofOutline_outline e,
      Expr.ofOutline_outline t, Expr.ofOutline_outline l]
    rfl
  | .access e n s => by
    simp only [Expr.outline, Expr.ofOutline, Expr.ofOutline_outline e]
    rfl
  | .ascribe e t s => by
    simp only [Expr.outline, Expr.ofOutline, Expr.ofOutline_outline e, Ty.ofOutline_outline]
    rfl
  | .record e fs s => by
    simp only [Expr.outline, Expr.ofOutline, Expr.ofOutline_outline e, FieldValue.ofOutlines_outlineAll fs]
    rfl
  | .block ss s => by
    simp only [Expr.outline, Expr.ofOutline, Statement.ofOutlines_outlineAll ss]
    rfl

theorem Expr.ofOutlines_outlineAll : ∀ es : List (Expr Span),
    Expr.ofOutlines (Expr.outlineAll es) = .ok es
  | [] => rfl
  | e :: es => by
    simp only [Expr.outlineAll, Expr.ofOutlines, Expr.ofOutline_outline e,
      Expr.ofOutlines_outlineAll es]
    rfl

theorem Clause.ofOutlines_outlineAll : ∀ cs : List (Clause Span),
    Clause.ofOutlines (Clause.outlineAll cs) = .ok cs
  | [] => rfl
  | ⟨p, e, s⟩ :: cs => by
    simp only [Clause.outlineAll, Clause.ofOutlines, Pattern.ofOutline_outline,
      Expr.ofOutline_outline e, Clause.ofOutlines_outlineAll cs]
    rfl

theorem FieldValue.ofOutlines_outlineAll : ∀ fs : List (FieldValue Span),
    FieldValue.ofOutlines (FieldValue.outlineAll fs) = .ok fs
  | [] => rfl
  | ⟨n, e, s⟩ :: fs => by
    simp only [FieldValue.outlineAll, FieldValue.ofOutlines, Expr.ofOutline_outline e,
      FieldValue.ofOutlines_outlineAll fs]
    rfl

theorem Statement.ofOutlines_outlineAll : ∀ ss : List (Statement Span),
    Statement.ofOutlines (Statement.outlineAll ss) = .ok ss
  | [] => rfl
  | .bind p e s :: ss => by
    simp only [Statement.outlineAll, Statement.ofOutlines, Pattern.ofOutline_outline,
      Expr.ofOutline_outline e, Statement.ofOutlines_outlineAll ss]
    rfl
  | .expr e s :: ss => by
    simp only [Statement.outlineAll, Statement.ofOutlines, Expr.ofOutline_outline e,
      Statement.ofOutlines_outlineAll ss]
    rfl

end

theorem Param.ofOutline_outline (p : Param Span) : Param.ofOutline p.outline = .ok p := by
  simp only [Param.outline, Param.ofOutline, Pattern.ofOutline_outline, Ty.ofOutline_outline]
  rfl

theorem Variant.ofOutline_outline (v : Variant Span) : Variant.ofOutline v.outline = .ok v := by
  simp only [Variant.outline, Variant.ofOutline, Ty.ofOutlines_outlineAll]
  rfl

theorem Field.ofOutline_outline (d : Field Span) : Field.ofOutline d.outline = .ok d := by
  simp only [Field.outline, Field.ofOutline, Ty.ofOutline_outline]
  rfl

theorem mapM_ofOutline {α : Type} {view : α → Outline} {read : Outline → Except Misplaced α}
    (h : ∀ a, read (view a) = .ok a) (as : List α) : (as.map view).mapM read = .ok as := by
  induction as with
  | nil => rfl
  | cons a as ih =>
    rw [List.map_cons, List.mapM_cons, h, ih]
    rfl

theorem TypeBody.ofOutline_outline (b : TypeBody Span) : TypeBody.ofOutline b.outline = .ok b := by
  cases b with
  | sum vs =>
    simp only [TypeBody.outline, TypeBody.ofOutline, mapM_ofOutline Variant.ofOutline_outline vs]
    rfl
  | product ds =>
    simp only [TypeBody.outline, TypeBody.ofOutline, mapM_ofOutline Field.ofOutline_outline ds]
    rfl

theorem Decl.ofOutline_outline (d : Decl Span) : Decl.ofOutline d.outline = .ok d := by
  cases d with
  | fn n ps r b s =>
    have hparams := mapM_ofOutline Param.ofOutline_outline ps
    cases r with
    | none =>
      simp only [Decl.outline, Decl.ofOutline, hparams, Expr.ofOutline_outline]
      rfl
    | some t =>
      simp only [Decl.outline, Decl.ofOutline, hparams, Ty.ofOutline_outline, Expr.ofOutline_outline]
      rfl
  | type n ps b s =>
    simp only [Decl.outline, Decl.ofOutline, TypeBody.ofOutline_outline]
    rfl

theorem Program.ofOutline_outline (p : Program Span) : Program.ofOutline p.outline = .ok p := by
  simp only [Program.outline, Program.ofOutline, mapM_ofOutline Decl.ofOutline_outline]
  rfl

theorem Program.outline_injective : Function.Injective Program.outline := by
  intro p q h
  have hread := congrArg Program.ofOutline h
  rw [Program.ofOutline_outline, Program.ofOutline_outline] at hread
  exact Except.ok.inj hread

/-! What the schema says of outlines. -/

/-- The field has the name and the kind. -/
inductive OutlineField.Fills : String × FieldKind → OutlineField → Prop
  | node (name : String) (o : Outline) : Fills (name, .node) (.node name o)
  | present (name : String) (o : Outline) : Fills (name, .optionalNode) (.node name o)
  | absent (name : String) : Fills (name, .optionalNode) (.absent name)
  | nodes (name : String) (os : List Outline) : Fills (name, .nodes) (.nodes name os)
  | text (name s : String) : Fills (name, .text) (.text name s)
  | texts (name : String) (ss : List String) : Fills (name, .texts) (.texts name ss)
  | truth (name : String) (b : Bool) : Fills (name, .truth) (.truth name b)
  | number (name : String) (n : Nat) : Fills (name, .number) (.number name n)

namespace Outline

/-- The fields are those of the label, in the order of the schema. -/
def Conforms (label : String) (fields : List OutlineField) : Prop :=
  ∃ ks, schema.lookup label = some ks ∧ List.Forall₂ OutlineField.Fills ks fields

mutual

/-- All nodes have the fields of their labels. -/
def Fits : Outline → Prop
  | ⟨label, _, fields⟩ => Conforms label fields ∧ FieldsFit fields

def FieldsFit : List OutlineField → Prop
  | [] => True
  | .node _ o :: fs => Fits o ∧ FieldsFit fs
  | .nodes _ os :: fs => AllFit os ∧ FieldsFit fs
  | _ :: fs => FieldsFit fs

def AllFit : List Outline → Prop
  | [] => True
  | o :: os => Fits o ∧ AllFit os

end

theorem allFit_iff (os : List Outline) : AllFit os ↔ ∀ o ∈ os, o.Fits := by
  induction os with
  | nil => simp [AllFit]
  | cons o os ih => simp [AllFit, ih]

end Outline

open OutlineField (Fills)

theorem Leaf.fits (l : Leaf) : l.outline.Fits := by
  cases l with
  | wildcard => exact ⟨⟨_, rfl, .nil⟩, trivial⟩
  | number n => exact ⟨⟨_, rfl, .cons (.number ..) .nil⟩, trivial⟩
  | boolean b => exact ⟨⟨_, rfl, .cons (.truth ..) .nil⟩, trivial⟩
  | name s => exact ⟨⟨_, rfl, .cons (.text ..) .nil⟩, trivial⟩
  | unit => exact ⟨⟨_, rfl, .nil⟩, trivial⟩

theorem Outline.fits_ofLeaf {family : String} (hfamily : schema.lookup family = some [("atom", .node)])
    (l : Leaf) (s : Span) : (Outline.ofLeaf family l s).Fits :=
  ⟨⟨_, hfamily, .cons (.node ..) .nil⟩, l.fits, trivial⟩

theorem Outline.fits_ofTuple {family : String} (hfamily : schema.lookup family = some [("atom", .node)])
    {os : List Outline} (hos : AllFit os) (s : Span) : (Outline.ofTuple family os s).Fits :=
  ⟨⟨_, hfamily, .cons (.node ..) .nil⟩, ⟨⟨_, rfl, .cons (.nodes ..) .nil⟩, hos, trivial⟩, trivial⟩

mutual

/-- The outline of a tree follows the schema. -/
theorem Pattern.fits : ∀ p : Pattern Span, p.outline.Fits
  | .leaf l s => Outline.fits_ofLeaf rfl l s
  | .tuple ps s => Outline.fits_ofTuple rfl (Pattern.allFit ps) s
  | .constructor _ ps _ =>
    ⟨⟨_, rfl, .cons (.text ..) (.cons (.nodes ..) .nil)⟩, Pattern.allFit ps, trivial⟩

theorem Pattern.allFit : ∀ ps : List (Pattern Span), Outline.AllFit (Pattern.outlineAll ps)
  | [] => trivial
  | p :: ps => ⟨Pattern.fits p, Pattern.allFit ps⟩

end

mutual

theorem Ty.fits : ∀ t : Ty Span, t.outline.Fits
  | .leaf l s => Outline.fits_ofLeaf rfl l s
  | .tuple ts s => Outline.fits_ofTuple rfl (Ty.allFit ts) s
  | .var _ _ => ⟨⟨_, rfl, .cons (.text ..) .nil⟩, trivial⟩
  | .app _ ts _ => ⟨⟨_, rfl, .cons (.text ..) (.cons (.nodes ..) .nil)⟩, Ty.allFit ts, trivial⟩
  | .arrow d c _ =>
    ⟨⟨_, rfl, .cons (.node ..) (.cons (.node ..) .nil)⟩, Ty.fits d, Ty.fits c, trivial⟩
  | .quantified _ t _ => ⟨⟨_, rfl, .cons (.texts ..) (.cons (.node ..) .nil)⟩, Ty.fits t, trivial⟩

theorem Ty.allFit : ∀ ts : List (Ty Span), Outline.AllFit (Ty.outlineAll ts)
  | [] => trivial
  | t :: ts => ⟨Ty.fits t, Ty.allFit ts⟩

end

mutual

theorem Expr.fits : ∀ e : Expr Span, e.outline.Fits
  | .leaf l s => Outline.fits_ofLeaf rfl l s
  | .tuple es s => Outline.fits_ofTuple rfl (Expr.allFit es) s
  | .apply c a _ =>
    ⟨⟨_, rfl, .cons (.node ..) (.cons (.node ..) .nil)⟩, Expr.fits c, Expr.fits a, trivial⟩
  | .lambda _ b _ => ⟨⟨_, rfl, .cons (.text ..) (.cons (.node ..) .nil)⟩, Expr.fits b, trivial⟩
  | .caseOf e cs _ =>
    ⟨⟨_, rfl, .cons (.node ..) (.cons (.nodes ..) .nil)⟩, Expr.fits e, Clause.allFit cs, trivial⟩
  | .ifLet p e t l _ =>
    ⟨⟨_, rfl, .cons (.node ..) (.cons (.node ..) (.cons (.node ..) (.cons (.node ..) .nil)))⟩,
      Pattern.fits p, Expr.fits e, Expr.fits t, Expr.fits l, trivial⟩
  | .access e _ _ => ⟨⟨_, rfl, .cons (.node ..) (.cons (.text ..) .nil)⟩, Expr.fits e, trivial⟩
  | .ascribe e t _ =>
    ⟨⟨_, rfl, .cons (.node ..) (.cons (.node ..) .nil)⟩, Expr.fits e, Ty.fits t, trivial⟩
  | .record e fs _ =>
    ⟨⟨_, rfl, .cons (.node ..) (.cons (.nodes ..) .nil)⟩, Expr.fits e, FieldValue.allFit fs, trivial⟩
  | .block ss _ => ⟨⟨_, rfl, .cons (.nodes ..) .nil⟩, Statement.allFit ss, trivial⟩

theorem Expr.allFit : ∀ es : List (Expr Span), Outline.AllFit (Expr.outlineAll es)
  | [] => trivial
  | e :: es => ⟨Expr.fits e, Expr.allFit es⟩

theorem Clause.allFit : ∀ cs : List (Clause Span), Outline.AllFit (Clause.outlineAll cs)
  | [] => trivial
  | ⟨p, e, _⟩ :: cs =>
    ⟨⟨⟨_, rfl, .cons (.node ..) (.cons (.node ..) .nil)⟩, Pattern.fits p, Expr.fits e, trivial⟩,
      Clause.allFit cs⟩

theorem FieldValue.allFit : ∀ fs : List (FieldValue Span), Outline.AllFit (FieldValue.outlineAll fs)
  | [] => trivial
  | ⟨_, e, _⟩ :: fs =>
    ⟨⟨⟨_, rfl, .cons (.text ..) (.cons (.node ..) .nil)⟩, Expr.fits e, trivial⟩, FieldValue.allFit fs⟩

theorem Statement.allFit : ∀ ss : List (Statement Span), Outline.AllFit (Statement.outlineAll ss)
  | [] => trivial
  | .bind p e _ :: ss =>
    ⟨⟨⟨_, rfl, .cons (.node ..) (.cons (.node ..) .nil)⟩, Pattern.fits p, Expr.fits e, trivial⟩,
      Statement.allFit ss⟩
  | .expr e _ :: ss => ⟨⟨⟨_, rfl, .cons (.node ..) .nil⟩, Expr.fits e, trivial⟩, Statement.allFit ss⟩

end

theorem Param.fits (p : Param Span) : p.outline.Fits :=
  ⟨⟨_, rfl, .cons (.node ..) (.cons (.node ..) .nil)⟩, p.pattern.fits, p.type.fits, trivial⟩

theorem Variant.fits (v : Variant Span) : v.outline.Fits :=
  ⟨⟨_, rfl, .cons (.text ..) (.cons (.nodes ..) .nil)⟩, Ty.allFit v.args, trivial⟩

theorem Field.fits (d : Field Span) : d.outline.Fits :=
  ⟨⟨_, rfl, .cons (.text ..) (.cons (.node ..) .nil)⟩, d.type.fits, trivial⟩

theorem Outline.allFit_map {α : Type} {view : α → Outline} (h : ∀ a, (view a).Fits) (as : List α) :
    AllFit (as.map view) :=
  (allFit_iff _).2 (List.forall_mem_map.2 fun a _ => h a)

theorem TypeBody.fits (b : TypeBody Span) : b.outline.Fits := by
  cases b with
  | sum vs => exact ⟨⟨_, rfl, .cons (.nodes ..) .nil⟩, Outline.allFit_map Variant.fits vs, trivial⟩
  | product ds => exact ⟨⟨_, rfl, .cons (.nodes ..) .nil⟩, Outline.allFit_map Field.fits ds, trivial⟩

theorem Decl.fits (d : Decl Span) : d.outline.Fits := by
  cases d with
  | fn n ps r b s =>
    have hparams := Outline.allFit_map Param.fits ps
    cases r with
    | none => exact ⟨⟨_, rfl, .cons (.text ..) (.cons (.nodes ..) (.cons (.absent ..)
        (.cons (.node ..) .nil)))⟩, hparams, b.fits, trivial⟩
    | some t => exact ⟨⟨_, rfl, .cons (.text ..) (.cons (.nodes ..) (.cons (.present ..)
        (.cons (.node ..) .nil)))⟩, hparams, t.fits, b.fits, trivial⟩
  | type n ps b s =>
    exact ⟨⟨_, rfl, .cons (.text ..) (.cons (.texts ..) (.cons (.node ..) .nil))⟩, b.fits, trivial⟩

theorem Program.fits (p : Program Span) : p.outline.Fits :=
  ⟨⟨_, rfl, .cons (.nodes ..) .nil⟩, Outline.allFit_map Decl.fits p.decls, trivial⟩

/-! Places that stay where they are. -/

namespace Outline

variable {f : Span → Span}

mutual

theorem map_eq_self : ∀ {o : Outline}, (∀ x ∈ o.spanned, f x.2 = x.2) → o.map f = o
  | ⟨label, some s, fields⟩, h => by
    obtain ⟨hs, hfields⟩ := List.forall_mem_cons.1 h
    rw [map, Option.map_some, hs, mapFields_eq_self hfields]
  | ⟨label, none, fields⟩, h => by rw [map, mapFields_eq_self h, Option.map_none]

theorem mapFields_eq_self : ∀ {fs : List OutlineField}, (∀ x ∈ spannedFields fs, f x.2 = x.2) →
    mapFields f fs = fs
  | [], _ => rfl
  | .node _ o :: fs, h => by
    obtain ⟨ho, hfs⟩ := List.forall_mem_append.1 h
    rw [mapFields, map_eq_self ho, mapFields_eq_self hfs]
  | .nodes _ os :: fs, h => by
    obtain ⟨hos, hfs⟩ := List.forall_mem_append.1 h
    rw [mapFields, mapAll_eq_self hos, mapFields_eq_self hfs]
  | .text _ _ :: fs, h => congrArg _ (@mapFields_eq_self fs h)
  | .texts _ _ :: fs, h => congrArg _ (@mapFields_eq_self fs h)
  | .truth _ _ :: fs, h => congrArg _ (@mapFields_eq_self fs h)
  | .number _ _ :: fs, h => congrArg _ (@mapFields_eq_self fs h)
  | .absent _ :: fs, h => congrArg _ (@mapFields_eq_self fs h)

theorem mapAll_eq_self : ∀ {os : List Outline}, (∀ x ∈ spannedAll os, f x.2 = x.2) → mapAll f os = os
  | [], _ => rfl
  | o :: os, h => by
    obtain ⟨ho, hos⟩ := List.forall_mem_append.1 h
    rw [mapAll, map_eq_self ho, mapAll_eq_self hos]

end

end Outline

theorem Program.spanned_outline (p : Program Span) :
    p.outline.spanned = ("Program", p.span) :: (Tree.program p).nodes := by
  simp [Program.outline, Outline.spanned, Outline.spannedFields, Outline.spannedAll_eq_flatMap,
    Tree.nodes, List.flatMap_map]

theorem Program.map_eq_self {f : Span → Span} {p : Program Span} (hspan : f p.span = p.span)
    (h : ∀ x ∈ (Tree.program p).nodes, f x.2 = x.2) : p.map f = p := by
  refine Program.outline_injective ((p.outline_map f).trans (Outline.map_eq_self ?_))
  rw [p.spanned_outline]
  exact List.forall_mem_cons.2 ⟨hspan, h⟩

end TinyFront
