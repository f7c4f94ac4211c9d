import TinyFront.Editor.Document
import TinyFront.Format.Tree

/-!
The outline of a document: one symbol for each declaration, with the variants or fields of a type
beneath it.
-/
namespace TinyFront.Editor

inductive SymbolKind
  | function | sum | variant | product | field
  deriving DecidableEq, Repr

/-- The number that editors know the kind by. -/
def SymbolKind.code : SymbolKind → Nat
  | function => 12
  | sum => 10
  | variant => 22
  | product => 23
  | field => 8

/-- A named place; an empty detail is none. -/
structure Member where
  name : String
  kind : SymbolKind
  range : Range
  detail : Option String
  deriving DecidableEq, Repr

structure Symbol where
  head : Member
  members : List Member
  deriving DecidableEq, Repr

namespace Symbol

variable {σ : Type}

def shown (ms : List Mark) : String := Mark.text standardIndent ms

/-- Details are words with blanks between them. -/
def detail? (words : List String) : Option String :=
  let text := String.intercalate " " words
  if text.isEmpty then none else some text

def signature (ps : List (Param σ)) (r : Option (Ty σ)) : List String :=
  ps.map (fun p => shown p.marks) ++ r.toList.map fun t => ": " ++ shown (t.marks .top)

def ofVariant (source : Source) (v : Variant Span) : Member :=
  ⟨v.name, .variant, .ofSpan source v.span, none⟩

def ofField (source : Source) (d : Field Span) : Member :=
  ⟨d.name, .field, .ofSpan source d.span, some (shown (d.type.marks .top))⟩

def ofDecl (source : Source) : Decl Span → Symbol
  | .fn n ps r _ s => ⟨⟨n, .function, .ofSpan source s, detail? (signature ps r)⟩, []⟩
  | .type n ps (.sum vs) s =>
    ⟨⟨n, .sum, .ofSpan source s, detail? ps⟩, vs.map (ofVariant source)⟩
  | .type n ps (.product ds) s =>
    ⟨⟨n, .product, .ofSpan source s, detail? ps⟩, ds.map (ofField source)⟩

def ofProgram (source : Source) (p : Option (Program Span)) : List Symbol :=
  p.elim [] fun p => p.decls.map (ofDecl source)

end Symbol
end TinyFront.Editor
