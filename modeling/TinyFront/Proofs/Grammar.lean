import TinyFront.Proofs.Lexemes
import TinyFront.Tree.Decl

/-!
The grammar. A derivation says that a list of lexemes is of a sort and which tree it stands for;
the trees are bare, since places have no part in the grammar.
-/
namespace TinyFront

namespace Operator

def kind : Operator → TokenKind
  | add => .plus | sub => .minus | mul => .star | div => .slash

def lexeme (o : Operator) : Lexeme := (o.kind, o.symbol)

/-- Whether the operator is of the looser tier. -/
def isAdditive : Operator → Bool
  | add | sub => true
  | mul | div => false

end Operator

namespace Grammar

/-- The families of trees that share the rules of atoms. -/
inductive Kin
  | expression | pattern | type
  deriving DecidableEq, Repr

namespace Kin

@[reducible] def Node : Kin → Type
  | expression => Expr Unit
  | pattern => Pattern Unit
  | type => Ty Unit

def ofLeaf : (f : Kin) → Leaf → f.Node
  | expression, l => .leaf l ()
  | pattern, l => .leaf l ()
  | type, l => .leaf l ()

def ofTuple : (f : Kin) → List f.Node → f.Node
  | expression, es => .tuple es ()
  | pattern, ps => .tuple ps ()
  | type, ts => .tuple ts ()

def ofLowerName : (f : Kin) → String → f.Node
  | expression, n => .leaf (.name n) ()
  | pattern, n => .leaf (.name n) ()
  | type, n => .var n ()

/-- In a pattern such a name is a constructor. -/
def ofUpperName : (f : Kin) → String → f.Node
  | expression, n => .leaf (.name n) ()
  | pattern, n => .constructor n [] ()
  | type, n => .var n ()

end Kin

/-- The sorts of phrases. An `operand` is a primary expression with what is selected from it or
built on it, an `argument` the same on an atom; a `suffix` is one such selection. -/
inductive Sym
  | element (kin : Kin) | atom (kin : Kin)
  | typeApplication
  | additive | multiplicative | application | argument | operand | suffix | fieldValue
  | primary | clause | block | statement
  | param | variant | field | typeBody | decl | program
  deriving DecidableEq, Repr

namespace Sym

/-- What a phrase of the sort stands for. A suffix stands for what it makes of the expression
before it. -/
@[reducible] def Node : Sym → Type
  | element k | atom k => k.Node
  | typeApplication => Ty Unit
  | additive | multiplicative | application | argument | operand | primary | block => Expr Unit
  | suffix => Expr Unit → Expr Unit
  | fieldValue => FieldValue Unit
  | clause => Clause Unit
  | statement => Statement Unit
  | param => Param Unit
  | variant => Variant Unit
  | field => Field Unit
  | typeBody => TypeBody Unit
  | decl => Decl Unit
  | program => Program Unit

end Sym

/-- Items with a separator between each two; one may trail behind the last. -/
def listed (separator : Lexeme) (trailing : Bool) : List (List Lexeme) → List Lexeme
  | [] => []
  | [xs] => xs ++ if trailing then [separator] else []
  | xs :: rest => xs ++ separator :: listed separator trailing rest

/-- An infix operator and its right operand, behind a left operand. -/
def infixed (left : Expr Unit) (p : Operator × List Lexeme × Expr Unit) : Expr Unit :=
  .apply (.apply (.leaf (.name p.1.name) ()) left ()) p.2.2 ()

def operation (p : Operator × List Lexeme × Expr Unit) : List Lexeme := p.1.lexeme :: p.2.1

/-- Where lambdas may stand: nowhere, wherever a primary expression may, or only as a whole
expression. -/
inductive Lambdas
  | none | anywhere | whole
  deriving DecidableEq, Repr

open TokenKind in
/-- The derivations. `parts` pairs the lexemes of each part of a phrase with what they stand for. -/
inductive Derives (u : Lambdas) : (s : Sym) → List Lexeme → s.Node → Prop
  -- atoms, by the same rules in each family
  | wildcard (f : Kin) : Derives u (.atom f) [underscore.lexeme] (f.ofLeaf .wildcard)
  | number (f : Kin) (digits : String) (hd : isDecimal digits.toList = true)
      (hl : digits.toList.length ≤ digitLimit)
      (hv : decimalValue digits.toList ≤ Parser.maxNumber) :
      Derives u (.atom f) [(integer, digits)] (f.ofLeaf (.number (decimalValue digits.toList)))
  | boolean (f : Kin) (hf : f ≠ .type) (b : Bool) :
      Derives u (.atom f) [(boolean, if b then "true" else "false")] (f.ofLeaf (.boolean b))
  | lowerName (f : Kin) (n : String) (hn : isLowerName n = true) :
      Derives u (.atom f) [(identifier, n)] (f.ofLowerName n)
  | upperName (f : Kin) (n : String) (hn : isUpperName n = true) :
      Derives u (.atom f) [(typeIdentifier, n)] (f.ofUpperName n)
  | unit (f : Kin) : Derives u (.atom f) [lparen.lexeme, rparen.lexeme] (f.ofLeaf .unit)
  | group (f : Kin) {xs : List Lexeme} {e : f.Node} (h : Derives u (.element f) xs e) :
      Derives u (.atom f) (lparen.lexeme :: xs ++ [rparen.lexeme]) e
  | tuple (f : Kin) (parts : List (List Lexeme × f.Node)) (trailing : Bool)
      (hp : 2 ≤ parts.length ∨ parts.length = 1 ∧ trailing = true)
      (h : ∀ p ∈ parts, Derives u (.element f) p.1 p.2) :
      Derives u (.atom f)
        (lparen.lexeme :: listed comma.lexeme trailing (parts.map (·.1)) ++ [rparen.lexeme])
        (f.ofTuple (parts.map (·.2)))
  -- patterns
  | construct (n : String) (parts : List (List Lexeme × Pattern Unit))
      (h : ∀ p ∈ parts, Derives u (.atom .pattern) p.1 p.2) :
      Derives u (.element .pattern) ((typeIdentifier, n) :: parts.flatMap (·.1))
        (.constructor n (parts.map (·.2)) ())
  | atomicPattern {xs : List Lexeme} {p : Pattern Unit} (h : Derives u (.atom .pattern) xs p) :
      Derives u (.element .pattern) xs p
  -- types
  | quantified (binders : List String) {xs : List Lexeme} {t : Ty Unit}
      (h : Derives u (.element .type) xs t) :
      Derives u (.element .type)
        (kwForall.lexeme :: binders.map (identifier, ·) ++ dot.lexeme :: xs)
        (.quantified binders t ())
  | arrow {xs ys : List Lexeme} {d c : Ty Unit} (hd : Derives u .typeApplication xs d)
      (hc : Derives u (.element .type) ys c) :
      Derives u (.element .type) (xs ++ TokenKind.arrow.lexeme :: ys) (.arrow d c ())
  | plainType {xs : List Lexeme} {t : Ty Unit} (h : Derives u .typeApplication xs t) :
      Derives u (.element .type) xs t
  | applyType (n : String) (parts : List (List Lexeme × Ty Unit)) (hp : parts ≠ [])
      (h : ∀ p ∈ parts, Derives u (.atom .type) p.1 p.2) :
      Derives u .typeApplication ((typeIdentifier, n) :: parts.flatMap (·.1))
        (.app n (parts.map (·.2)) ())
  | atomicType {xs : List Lexeme} {t : Ty Unit} (h : Derives u (.atom .type) xs t) :
      Derives u .typeApplication xs t
  -- expressions
  | ascribe {xs ys : List Lexeme} {e : Expr Unit} {t : Ty Unit} (he : Derives u .additive xs e)
      (ht : Derives u (.element .type) ys t) :
      Derives u (.element .expression) (xs ++ colon.lexeme :: ys) (.ascribe e t ())
  | plain {xs : List Lexeme} {e : Expr Unit} (h : Derives u .additive xs e) :
      Derives u (.element .expression) xs e
  | wholeLambda (hu : u = .whole) (n : String) {xs : List Lexeme} {e : Expr Unit}
      (h : Derives u (.element .expression) xs e) :
      Derives u (.element .expression) (pipe.lexeme :: (identifier, n) :: pipe.lexeme :: xs)
        (.lambda n e ())
  | additive {xs : List Lexeme} {e : Expr Unit}
      (parts : List (Operator × List Lexeme × Expr Unit)) (he : Derives u .multiplicative xs e)
      (ho : ∀ p ∈ parts, p.1.isAdditive = true)
      (h : ∀ p ∈ parts, Derives u .multiplicative p.2.1 p.2.2) :
      Derives u .additive (xs ++ parts.flatMap operation) (parts.foldl infixed e)
  | multiplicative {xs : List Lexeme} {e : Expr Unit}
      (parts : List (Operator × List Lexeme × Expr Unit)) (he : Derives u .application xs e)
      (ho : ∀ p ∈ parts, p.1.isAdditive = false)
      (h : ∀ p ∈ parts, Derives u .application p.2.1 p.2.2) :
      Derives u .multiplicative (xs ++ parts.flatMap operation) (parts.foldl infixed e)
  | application {xs : List Lexeme} {e : Expr Unit} (parts : List (List Lexeme × Expr Unit))
      (he : Derives u .operand xs e) (h : ∀ p ∈ parts, Derives u .argument p.1 p.2) :
      Derives u .application (xs ++ parts.flatMap (·.1))
        (parts.foldl (fun callee p => .apply callee p.2 ()) e)
  | argument {xs : List Lexeme} {e : Expr Unit}
      (parts : List (List Lexeme × (Expr Unit → Expr Unit)))
      (he : Derives u (.atom .expression) xs e) (h : ∀ p ∈ parts, Derives u .suffix p.1 p.2) :
      Derives u .argument (xs ++ parts.flatMap (·.1)) (parts.foldl (fun e p => p.2 e) e)
  | operand {xs : List Lexeme} {e : Expr Unit}
      (parts : List (List Lexeme × (Expr Unit → Expr Unit)))
      (he : Derives u .primary xs e) (h : ∀ p ∈ parts, Derives u .suffix p.1 p.2) :
      Derives u .operand (xs ++ parts.flatMap (·.1)) (parts.foldl (fun e p => p.2 e) e)
  | access (n : String) : Derives u .suffix [dot.lexeme, (identifier, n)] (.access · n ())
  | record (parts : List (List Lexeme × FieldValue Unit)) (trailing : Bool) (hp : parts ≠ [])
      (h : ∀ p ∈ parts, Derives u .fieldValue p.1 p.2) :
      Derives u .suffix
        (lbrace.lexeme :: listed comma.lexeme trailing (parts.map (·.1)) ++ [rbrace.lexeme])
        (.record · (parts.map (·.2)) ())
  | fieldValue (n : String) {xs : List Lexeme} {e : Expr Unit}
      (h : Derives u (.element .expression) xs e) :
      Derives u .fieldValue ((identifier, n) :: assign.lexeme :: xs) ⟨n, e, ()⟩
  | lambda (hu : u = .anywhere) (n : String) {xs : List Lexeme} {e : Expr Unit}
      (h : Derives u (.element .expression) xs e) :
      Derives u .primary (pipe.lexeme :: (identifier, n) :: pipe.lexeme :: xs) (.lambda n e ())
  | ifLet {ps xs ys zs : List Lexeme} {p : Pattern Unit} {e t l : Expr Unit}
      (hp : Derives u (.element .pattern) ps p) (he : Derives u (.element .expression) xs e)
      (ht : Derives u .block ys t) (hl : Derives u .block zs l) :
      Derives u .primary
        (kwIf.lexeme :: kwLet.lexeme :: ps ++ assign.lexeme :: xs ++ ys ++ kwElse.lexeme :: zs)
        (.ifLet p e t l ())
  | caseOf {xs : List Lexeme} {e : Expr Unit} (parts : List (List Lexeme × Clause Unit))
      (trailing : Bool) (he : Derives u (.element .expression) xs e)
      (h : ∀ p ∈ parts, Derives u .clause p.1 p.2) :
      Derives u .primary
        (kwMatch.lexeme :: xs ++ lbrace.lexeme :: listed comma.lexeme trailing (parts.map (·.1)) ++
          [rbrace.lexeme])
        (.caseOf e (parts.map (·.2)) ())
  | blockPrimary {xs : List Lexeme} {e : Expr Unit} (h : Derives u .block xs e) :
      Derives u .primary xs e
  | atomPrimary {xs : List Lexeme} {e : Expr Unit} (h : Derives u (.atom .expression) xs e) :
      Derives u .primary xs e
  | clause {ps xs : List Lexeme} {p : Pattern Unit} {e : Expr Unit}
      (hp : Derives u (.element .pattern) ps p) (he : Derives u (.element .expression) xs e) :
      Derives u .clause (ps ++ fatArrow.lexeme :: xs) ⟨p, e, ()⟩
  | emptyBlock :
      Derives u .block [lbrace.lexeme, rbrace.lexeme] (.block [.expr (.leaf .unit ()) ()] ())
  | block (parts : List (List Lexeme × Statement Unit)) (trailing : Bool) (hp : parts ≠ [])
      (h : ∀ p ∈ parts, Derives u .statement p.1 p.2) :
      Derives u .block
        (lbrace.lexeme :: listed semicolon.lexeme trailing (parts.map (·.1)) ++ [rbrace.lexeme])
        (.block (parts.map (·.2)) ())
  | bind {ps xs : List Lexeme} {p : Pattern Unit} {e : Expr Unit}
      (hp : Derives u (.element .pattern) ps p) (he : Derives u (.element .expression) xs e) :
      Derives u .statement (kwLet.lexeme :: ps ++ assign.lexeme :: xs) (.bind p e ())
  | expr {xs : List Lexeme} {e : Expr Unit} (h : Derives u (.element .expression) xs e) :
      Derives u .statement xs (.expr e ())
  -- declarations
  | param {ps xs : List Lexeme} {p : Pattern Unit} {t : Ty Unit}
      (hp : Derives u (.element .pattern) ps p) (ht : Derives u (.element .type) xs t) :
      Derives u .param (lparen.lexeme :: ps ++ colon.lexeme :: xs ++ [rparen.lexeme]) ⟨p, t, ()⟩
  | variant (n : String) (parts : List (List Lexeme × Ty Unit))
      (h : ∀ p ∈ parts, Derives u (.atom .type) p.1 p.2) :
      Derives u .variant ((typeIdentifier, n) :: parts.flatMap (·.1)) ⟨n, parts.map (·.2), ()⟩
  | field (n : String) {xs : List Lexeme} {t : Ty Unit} (h : Derives u (.element .type) xs t) :
      Derives u .field ((identifier, n) :: colon.lexeme :: xs) ⟨n, t, ()⟩
  | sum (parts : List (List Lexeme × Variant Unit)) (hp : parts ≠ [])
      (h : ∀ p ∈ parts, Derives u .variant p.1 p.2) :
      Derives u .typeBody (parts.flatMap (pipe.lexeme :: ·.1)) (.sum (parts.map (·.2)))
  | product (parts : List (List Lexeme × Field Unit)) (trailing : Bool)
      (h : ∀ p ∈ parts, Derives u .field p.1 p.2) :
      Derives u .typeBody
        (lbrace.lexeme :: listed comma.lexeme trailing (parts.map (·.1)) ++ [rbrace.lexeme])
        (.product (parts.map (·.2)))
  | fn (n : String) (params : List (List Lexeme × Param Unit))
      (result : Option (List Lexeme × Ty Unit)) {xs : List Lexeme} {b : Expr Unit}
      (hp : ∀ p ∈ params, Derives u .param p.1 p.2)
      (hr : ∀ r ∈ result, Derives u (.element .type) r.1 r.2) (hb : Derives u .block xs b) :
      Derives u .decl
        (kwFn.lexeme :: (identifier, n) :: params.flatMap (·.1) ++
          result.elim [] (colon.lexeme :: ·.1) ++ xs)
        (.fn n (params.map (·.2)) (result.map (·.2)) b ())
  | type (n : String) (params : List String) {xs : List Lexeme} {b : TypeBody Unit}
      (hb : Derives u .typeBody xs b) :
      Derives u .decl
        (kwType.lexeme :: (typeIdentifier, n) :: params.map (identifier, ·) ++ assign.lexeme :: xs)
        (.type n params b ())
  | program (parts : List (List Lexeme × Decl Unit))
      (h : ∀ p ∈ parts, Derives u .decl p.1 p.2) :
      Derives u .program (parts.flatMap (·.1)) ⟨parts.map (·.2), ()⟩

end Grammar

/-- The lexemes are a text of the form of the tree, and the tree is what they stand for. -/
def Grammar.Reads (u : Lambdas) (xs : List Lexeme) : Tree Unit → Prop
  | .program p => Derives u .program xs p
  | .expression e => Derives u (.element .expression) xs e
  | .pattern p => Derives u (.element .pattern) xs p
  | .type t => Derives u (.element .type) xs t

end TinyFront
