import TinyFront.Source.Span
import TinyFront.Text.Quoted
import TinyFront.Tree.Decl

/-!
Outlines: every kind of node under one shape, a label with named fields. Listings of a tree, and
trees that are exchanged with the outside, go through it.
-/
namespace TinyFront

mutual

/-- A node; leaves and the two bodies of a type declaration have no span of their own. -/
structure Outline where
  label : String
  span : Option Span
  fields : List OutlineField

inductive OutlineField
  | node (name : String) (child : Outline)
  | nodes (name : String) (children : List Outline)
  | text (name : String) (value : String)
  | texts (name : String) (values : List String)
  | truth (name : String) (value : Bool)
  | number (name : String) (value : Nat)
  | absent (name : String)

end

/-- What the field of a node holds. -/
inductive FieldKind
  | node | optionalNode | nodes | text | texts | truth | number
  deriving DecidableEq, Repr

namespace Outline

/-- The fields of each label, in the order in which they are listed. -/
def schema : List (String × List (String × FieldKind)) := [
  ("Wildcard", []), ("Number", [("value", .number)]), ("Boolean", [("value", .truth)]),
  ("Identifier", [("name", .text)]), ("Unit", []), ("Tuple", [("elements", .nodes)]),
  ("TypeAtom", [("atom", .node)]), ("TypeVariable", [("name", .text)]),
  ("TypeApplication", [("name", .text), ("args", .nodes)]),
  ("Arrow", [("domain", .node), ("codomain", .node)]),
  ("Forall", [("args", .texts), ("body", .node)]),
  ("PatternAtom", [("atom", .node)]), ("ConstructorPattern", [("name", .text), ("args", .nodes)]),
  ("ExprAtom", [("atom", .node)]), ("Application", [("callee", .node), ("argument", .node)]),
  ("Abstraction", [("param", .text), ("body", .node)]),
  ("Clause", [("pattern", .node), ("expr", .node)]),
  ("Match", [("scrutinee", .node), ("clauses", .nodes)]),
  ("IfLet", [("pattern", .node), ("scrutinee", .node), ("then_block", .node),
    ("else_block", .node)]),
  ("FieldAccess", [("receiver", .node), ("field", .text)]),
  ("Annotation", [("expr", .node), ("type", .node)]),
  ("ExprField", [("name", .text), ("expr", .node)]),
  ("RecordCreation", [("constructor", .node), ("fields", .nodes)]),
  ("LetStatement", [("pattern", .node), ("value", .node)]), ("ExprStatement", [("expr", .node)]),
  ("Block", [("statements", .nodes)]), ("Field", [("name", .text), ("type", .node)]),
  ("Constructor", [("name", .text), ("args", .nodes)]), ("Sum", [("constructors", .nodes)]),
  ("Product", [("fields", .nodes)]),
  ("TypeDecl", [("name", .text), ("params", .texts), ("body", .node)]),
  ("Param", [("pattern", .node), ("type", .node)]),
  ("FnDecl", [("name", .text), ("params", .nodes), ("return_type", .optionalNode),
    ("body", .node)]),
  ("Program", [("declarations", .nodes)])]

mutual

/-- The nodes with a span, each before what is beneath it. -/
def spanned : Outline → List (String × Span)
  | ⟨label, some s, fields⟩ => (label, s) :: spannedFields fields
  | ⟨_, none, fields⟩ => spannedFields fields

def spannedFields : List OutlineField → List (String × Span)
  | [] => []
  | .node _ o :: fs => spanned o ++ spannedFields fs
  | .nodes _ os :: fs => spannedAll os ++ spannedFields fs
  | _ :: fs => spannedFields fs

def spannedAll : List Outline → List (String × Span)
  | [] => []
  | o :: os => spanned o ++ spannedAll os

end

def spanText (s : Span) : String := "[" ++ toString s.start ++ ".." ++ toString s.stop ++ ")"

/-- A line with the steps that it is indented by. -/
structure Line where
  depth : Nat
  text : String
  deriving DecidableEq, Repr

def indentation (depth : Nat) : String := String.ofList (List.replicate (2 * depth) ' ')

def Line.shown (l : Line) : String := indentation l.depth ++ l.text

def head (depth : Nat) (label : String) : Option Span → Line
  | some s => ⟨depth, label ++ " " ++ spanText s⟩
  | none => ⟨depth, label⟩

/-- The line of a field, indented one step more than its node. -/
def entry (depth : Nat) (name value : String) : Line := ⟨depth + 1, name ++ ": " ++ value⟩

/-- The line above the nodes of a field. -/
def heading (depth : Nat) (name : String) : Line := ⟨depth + 1, name ++ ":"⟩

mutual

/-- One line for each node and each field, indented by depth; absent fields have no line. -/
def lines (depth : Nat) : Outline → List Line
  | ⟨label, s, fields⟩ => head depth label s :: fieldLines depth fields

def fieldLines (depth : Nat) : List OutlineField → List Line
  | [] => []
  | .node name o :: fs => heading depth name :: (lines (depth + 2) o ++ fieldLines depth fs)
  | .nodes name [] :: fs => entry depth name "[]" :: fieldLines depth fs
  | .nodes name os :: fs => heading depth name :: (linesAll (depth + 2) os ++ fieldLines depth fs)
  | .text name v :: fs => entry depth name (Text.quote v) :: fieldLines depth fs
  | .texts name vs :: fs => entry depth name (Text.quoteAll vs) :: fieldLines depth fs
  | .truth name v :: fs =>
    entry depth name (if v then "True" else "False") :: fieldLines depth fs
  | .number name v :: fs => entry depth name (toString v) :: fieldLines depth fs
  | .absent _ :: fs => fieldLines depth fs

def linesAll (depth : Nat) : List Outline → List Line
  | [] => []
  | o :: os => lines depth o ++ linesAll depth os

end

mutual

/-- How many nodes are around each other, this one included. -/
def levels : Outline → Nat
  | ⟨_, _, fields⟩ => levelsFields fields + 1

def levelsFields : List OutlineField → Nat
  | [] => 0
  | .node _ o :: fs => max (levels o) (levelsFields fs)
  | .nodes _ os :: fs => max (levelsAll os) (levelsFields fs)
  | _ :: fs => levelsFields fs

def levelsAll : List Outline → Nat
  | [] => 0
  | o :: os => max (levels o) (levelsAll os)

end
end Outline

namespace Leaf

def outline : Leaf → Outline
  | wildcard => ⟨"Wildcard", none, []⟩
  | number n => ⟨"Number", none, [.number "value" n]⟩
  | boolean b => ⟨"Boolean", none, [.truth "value" b]⟩
  | name s => ⟨"Identifier", none, [.text "name" s]⟩
  | unit => ⟨"Unit", none, []⟩

end Leaf

namespace Outline

/-- A leaf or a tuple sits one level below the node of its family. -/
def ofLeaf (family : String) (l : Leaf) (s : Span) : Outline :=
  ⟨family, some s, [.node "atom" l.outline]⟩

def ofTuple (family : String) (elements : List Outline) (s : Span) : Outline :=
  ⟨family, some s, [.node "atom" ⟨"Tuple", none, [.nodes "elements" elements]⟩]⟩

end Outline

mutual

def Pattern.outline : Pattern Span → Outline
  | .leaf l s => .ofLeaf "PatternAtom" l s
  | .tuple ps s => .ofTuple "PatternAtom" (Pattern.outlineAll ps) s
  | .constructor n ps s =>
    ⟨"ConstructorPattern", some s, [.text "name" n, .nodes "args" (Pattern.outlineAll ps)]⟩

def Pattern.outlineAll : List (Pattern Span) → List Outline
  | [] => []
  | p :: ps => p.outline :: Pattern.outlineAll ps

end

mutual

def Ty.outline : Ty Span → Outline
  | .leaf l s => .ofLeaf "TypeAtom" l s
  | .tuple ts s => .ofTuple "TypeAtom" (Ty.outlineAll ts) s
  | .var n s => ⟨"TypeVariable", some s, [.text "name" n]⟩
  | .app n ts s => ⟨"TypeApplication", some s, [.text "name" n, .nodes "args" (Ty.outlineAll ts)]⟩
  | .arrow d c s => ⟨"Arrow", some s, [.node "domain" d.outline, .node "codomain" c.outline]⟩
  | .quantified bs t s => ⟨"Forall", some s, [.texts "args" bs, .node "body" t.outline]⟩

def Ty.outlineAll : List (Ty Span) → List Outline
  | [] => []
  | t :: ts => t.outline :: Ty.outlineAll ts

end

mutual

def Expr.outline : Expr Span → Outline
  | .leaf l s => .ofLeaf "ExprAtom" l s
  | .tuple es s => .ofTuple "ExprAtom" (Expr.outlineAll es) s
  | .apply c a s =>
    ⟨"Application", some s, [.node "callee" c.outline, .node "argument" a.outline]⟩
  | .lambda p b s => ⟨"Abstraction", some s, [.text "param" p, .node "body" b.outline]⟩
  | .caseOf e cs s =>
    ⟨"Match", some s, [.node "scrutinee" e.outline, .nodes "clauses" (Clause.outlineAll cs)]⟩
  | .ifLet p e t l s =>
    ⟨"IfLet", some s, [.node "pattern" p.outline, .node "scrutinee" e.outline,
      .node "then_block" t.outline, .node "else_block" l.outline]⟩
  | .access e n s => ⟨"FieldAccess", some s, [.node "receiver" e.outline, .text "field" n]⟩
  | .ascribe e t s => ⟨"Annotation", some s, [.node "expr" e.outline, .node "type" t.outline]⟩
  | .record e fs s =>
    ⟨"RecordCreation", some s,
      [.node "constructor" e.outline, .nodes "fields" (FieldValue.outlineAll fs)]⟩
  | .block ss s => ⟨"Block", some s, [.nodes "statements" (Statement.outlineAll ss)]⟩

def Expr.outlineAll : List (Expr Span) → List Outline
  | [] => []
  | e :: es => e.outline :: Expr.outlineAll es

def Clause.outlineAll : List (Clause Span) → List Outline
  | [] => []
  | ⟨p, e, s⟩ :: cs =>
    ⟨"Clause", some s, [.node "pattern" p.outline, .node "expr" e.outline]⟩ :: Clause.outlineAll cs

def FieldValue.outlineAll : List (FieldValue Span) → List Outline
  | [] => []
  | ⟨n, e, s⟩ :: fs =>
    ⟨"ExprField", some s, [.text "name" n, .node "expr" e.outline]⟩ :: FieldValue.outlineAll fs

def Statement.outlineAll : List (Statement Span) → List Outline
  | [] => []
  | .bind p e s :: ss =>
    ⟨"LetStatement", some s, [.node "pattern" p.outline, .node "value" e.outline]⟩ ::
      Statement.outlineAll ss
  | .expr e s :: ss =>
    ⟨"ExprStatement", some s, [.node "expr" e.outline]⟩ :: Statement.outlineAll ss

end

def Param.outline (p : Param Span) : Outline :=
  ⟨"Param", some p.span, [.node "pattern" p.pattern.outline, .node "type" p.type.outline]⟩

def Variant.outline (v : Variant Span) : Outline :=
  ⟨"Constructor", some v.span, [.text "name" v.name, .nodes "args" (Ty.outlineAll v.args)]⟩

def Field.outline (d : Field Span) : Outline :=
  ⟨"Field", some d.span, [.text "name" d.name, .node "type" d.type.outline]⟩

def TypeBody.outline : TypeBody Span → Outline
  | .sum vs => ⟨"Sum", none, [.nodes "constructors" (vs.map Variant.outline)]⟩
  | .product ds => ⟨"Product", none, [.nodes "fields" (ds.map Field.outline)]⟩

def Decl.outline : Decl Span → Outline
  | .fn n ps r b s =>
    ⟨"FnDecl", some s, [.text "name" n, .nodes "params" (ps.map Param.outline),
      match r with
      | some t => .node "return_type" t.outline
      | none => .absent "return_type",
      .node "body" b.outline]⟩
  | .type n ps b s =>
    ⟨"TypeDecl", some s, [.text "name" n, .texts "params" ps, .node "body" b.outline]⟩

def Program.outline (p : Program Span) : Outline :=
  ⟨"Program", some p.span, [.nodes "declarations" (p.decls.map Decl.outline)]⟩

def Tree.outline : Tree Span → Outline
  | .program p => p.outline
  | .expression e => e.outline
  | .pattern p => p.outline
  | .type t => t.outline

/-- The nodes of a tree, each before what is beneath it, without the program around them. -/
def Tree.nodes : Tree Span → List (String × Span)
  | .program p => p.decls.flatMap (·.outline.spanned)
  | t => t.outline.spanned

namespace Program

/-- A line for the program, then those of its declarations. -/
def lines (p : Program Span) : List Outline.Line :=
  Outline.head 0 "Program" (some p.span) :: p.decls.flatMap (·.outline.lines 1)

def listing (p : Program Span) : List String := p.lines.map Outline.Line.shown

/-- How many nodes of a declaration are around each other. -/
def levels (p : Program Span) : Nat := Outline.levelsAll (p.decls.map Decl.outline)

/-- What is printed of the listing where no more than so many calls may be open at once. Each node takes a
call within that for the node around it and stands two steps deeper, and the first one too deep ends it. -/
def listingWithin (calls : Nat) (p : Program Span) : List String :=
  (p.lines.takeWhile (·.depth ≤ 2 * calls)).map Outline.Line.shown

end Program
end TinyFront
