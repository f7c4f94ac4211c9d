import TinyFront.Tree.Outline

/-!
Trees recovered from outlines. An outline may put any node anywhere, so the recovery can meet a
node that does not belong where it stands; the first one, in the order of the layout, is reported.
-/
namespace TinyFront

inductive Misplaced
  | expression (label : String)
  | other (label : String)
  deriving DecidableEq, Repr

def Misplaced.message : Misplaced → String
  | expression label => "cannot format expression node " ++ label
  | other label => "cannot format node " ++ label

def Leaf.ofOutline : Outline → Except Misplaced Leaf
  | ⟨"Wildcard", _, []⟩ => .ok .wildcard
  | ⟨"Number", _, [.number _ n]⟩ => .ok (.number n)
  | ⟨"Boolean", _, [.truth _ b]⟩ => .ok (.boolean b)
  | ⟨"Identifier", _, [.text _ s]⟩ => .ok (.name s)
  | ⟨"Unit", _, []⟩ => .ok .unit
  | ⟨label, _, _⟩ => .error (.other label)

mutual

def Pattern.ofOutline : Outline → Except Misplaced (Pattern Span)
  | ⟨"PatternAtom", some s, [.node _ ⟨"Tuple", _, [.nodes _ ps]⟩]⟩ => do
    return .tuple (← Pattern.ofOutlines ps) s
  | ⟨"PatternAtom", some s, [.node _ a]⟩ => do return .leaf (← Leaf.ofOutline a) s
  | ⟨"ConstructorPattern", some s, [.text _ n, .nodes _ ps]⟩ => do
    return .constructor n (← Pattern.ofOutlines ps) s
  | ⟨label, _, _⟩ => .error (.other label)

def Pattern.ofOutlines : List Outline → Except Misplaced (List (Pattern Span))
  | [] => .ok []
  | o :: os => do return (← Pattern.ofOutline o) :: (← Pattern.ofOutlines os)

end

mutual

def Ty.ofOutline : Outline → Except Misplaced (Ty Span)
  | ⟨"TypeAtom", some s, [.node _ ⟨"Tuple", _, [.nodes _ ts]⟩]⟩ => do
    return .tuple (← Ty.ofOutlines ts) s
  | ⟨"TypeAtom", some s, [.node _ a]⟩ => do return .leaf (← Leaf.ofOutline a) s
  | ⟨"TypeVariable", some s, [.text _ n]⟩ => .ok (.var n s)
  | ⟨"TypeApplication", some s, [.text _ n, .nodes _ ts]⟩ => do
    return .app n (← Ty.ofOutlines ts) s
  | ⟨"Arrow", some s, [.node _ d, .node _ c]⟩ => do
    return .arrow (← Ty.ofOutline d) (← Ty.ofOutline c) s
  | ⟨"Forall", some s, [.texts _ bs, .node _ t]⟩ => do
    return .quantified bs (← Ty.ofOutline t) s
  | ⟨label, _, _⟩ => .error (.other label)

def Ty.ofOutlines : List Outline → Except Misplaced (List (Ty Span))
  | [] => .ok []
  | o :: os => do return (← Ty.ofOutline o) :: (← Ty.ofOutlines os)

end

mutual

/-- The fields of a record come before what the record is built on. -/
def Expr.ofOutline : Outline → Except Misplaced (Expr Span)
  | ⟨"ExprAtom", some s, [.node _ ⟨"Tuple", _, [.nodes _ es]⟩]⟩ => do
    return .tuple (← Expr.ofOutlines es) s
  | ⟨"ExprAtom", some s, [.node _ a]⟩ => do return .leaf (← Leaf.ofOutline a) s
  | ⟨"Application", some s, [.node _ c, .node _ a]⟩ => do
    return .apply (← Expr.ofOutline c) (← Expr.ofOutline a) s
  | ⟨"Abstraction", some s, [.text _ p, .node _ b]⟩ => do
    return .lambda p (← Expr.ofOutline b) s
  | ⟨"Match", some s, [.node _ e, .nodes _ cs]⟩ => do
    return .caseOf (← Expr.ofOutline e) (← Clause.ofOutlines cs) s
  | ⟨"IfLet", some s, [.node _ p, .node _ e, .node _ t, .node _ l]⟩ => do
    return .ifLet (← Pattern.ofOutline p) (← Expr.ofOutline e) (← Expr.ofOutline t)
      (← Expr.ofOutline l) s
  | ⟨"FieldAccess", some s, [.node _ e, .text _ n]⟩ => do
    return .access (← Expr.ofOutline e) n s
  | ⟨"Annotation", some s, [.node _ e, .node _ t]⟩ => do
    return .ascribe (← Expr.ofOutline e) (← Ty.ofOutline t) s
  | ⟨"RecordCreation", some s, [.node _ e, .nodes _ fs]⟩ => do
    let fields ← FieldValue.ofOutlines fs
    return .record (← Expr.ofOutline e) fields s
  | ⟨"Block", some s, [.nodes _ ss]⟩ => do return .block (← Statement.ofOutlines ss) s
  | ⟨label, _, _⟩ => .error (.expression label)

def Expr.ofOutlines : List Outline → Except Misplaced (List (Expr Span))
  | [] => .ok []
  | o :: os => do return (← Expr.ofOutline o) :: (← Expr.ofOutlines os)

def Clause.ofOutlines : List Outline → Except Misplaced (List (Clause Span))
  | [] => .ok []
  | ⟨"Clause", some s, [.node _ p, .node _ e]⟩ :: os => do
    return ⟨← Pattern.ofOutline p, ← Expr.ofOutline e, s⟩ :: (← Clause.ofOutlines os)
  | ⟨label, _, _⟩ :: _ => .error (.other label)

def FieldValue.ofOutlines : List Outline → Except Misplaced (List (FieldValue Span))
  | [] => .ok []
  | ⟨"ExprField", some s, [.text _ n, .node _ e]⟩ :: os => do
    return ⟨n, ← Expr.ofOutline e, s⟩ :: (← FieldValue.ofOutlines os)
  | ⟨label, _, _⟩ :: _ => .error (.other label)

def Statement.ofOutlines : List Outline → Except Misplaced (List (Statement Span))
  | [] => .ok []
  | ⟨"LetStatement", some s, [.node _ p, .node _ e]⟩ :: os => do
    return .bind (← Pattern.ofOutline p) (← Expr.ofOutline e) s :: (← Statement.ofOutlines os)
  | ⟨"ExprStatement", some s, [.node _ e]⟩ :: os => do
    return .expr (← Expr.ofOutline e) s :: (← Statement.ofOutlines os)
  | ⟨label, _, _⟩ :: _ => .error (.other label)

end

def Param.ofOutline : Outline → Except Misplaced (Param Span)
  | ⟨"Param", some s, [.node _ p, .node _ t]⟩ => do
    return ⟨← Pattern.ofOutline p, ← Ty.ofOutline t, s⟩
  | o => .error (.other o.label)

def Variant.ofOutline : Outline → Except Misplaced (Variant Span)
  | ⟨"Constructor", some s, [.text _ n, .nodes _ ts]⟩ => do return ⟨n, ← Ty.ofOutlines ts, s⟩
  | o => .error (.other o.label)

def Field.ofOutline : Outline → Except Misplaced (Field Span)
  | ⟨"Field", some s, [.text _ n, .node _ t]⟩ => do return ⟨n, ← Ty.ofOutline t, s⟩
  | o => .error (.other o.label)

def TypeBody.ofOutline : Outline → Except Misplaced (TypeBody Span)
  | ⟨"Sum", _, [.nodes _ vs]⟩ => do return .sum (← vs.mapM Variant.ofOutline)
  | ⟨"Product", _, [.nodes _ ds]⟩ => do return .product (← ds.mapM Field.ofOutline)
  | o => .error (.other o.label)

def Decl.ofOutline : Outline → Except Misplaced (Decl Span)
  | ⟨"FnDecl", some s, [.text _ n, .nodes _ ps, .absent _, .node _ b]⟩ => do
    return .fn n (← ps.mapM Param.ofOutline) none (← Expr.ofOutline b) s
  | ⟨"FnDecl", some s, [.text _ n, .nodes _ ps, .node _ r, .node _ b]⟩ => do
    return .fn n (← ps.mapM Param.ofOutline) (some (← Ty.ofOutline r)) (← Expr.ofOutline b) s
  | ⟨"TypeDecl", some s, [.text _ n, .texts _ ps, .node _ b]⟩ => do
    return .type n ps (← TypeBody.ofOutline b) s
  | o => .error (.other o.label)

def Program.ofOutline : Outline → Except Misplaced (Program Span)
  | ⟨"Program", some s, [.nodes _ ds]⟩ => do return ⟨← ds.mapM Decl.ofOutline, s⟩
  | o => .error (.other o.label)

def Tree.ofOutline (o : Outline) : Form → Except Misplaced (Tree Span)
  | .program => .program <$> Program.ofOutline o
  | .expression => .expression <$> Expr.ofOutline o
  | .pattern => .pattern <$> Pattern.ofOutline o
  | .type => .type <$> Ty.ofOutline o

end TinyFront
