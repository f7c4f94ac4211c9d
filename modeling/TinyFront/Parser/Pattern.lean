import TinyFront.Parser.Atom

/-!
Patterns and types. Parsers are indexed by how much deeper the input may nest: each pair of
parentheses and each body of a quantified type takes one off, and at zero reading stops.
-/
namespace TinyFront.Parser

/-- A constructor takes every atom that follows it. `inner` reads what is in parentheses. -/
def patternWithin (inner : Parser (Pattern Span)) : Parser (Pattern Span) := do
  let t ← current
  if t.kind = .typeIdentifier then
    let _ ← advance
    let args ← many Family.pattern.startsAtom (atom .pattern inner)
    return .constructor t.text args (← spanFrom t.span.start)
  else atom .pattern inner

def pattern : (depth : Nat) → Parser (Pattern Span)
  | 0 => tooDeep .pattern
  | depth + 1 => patternWithin (pattern depth)

/-- A type name with arguments is an application, without any a plain name. -/
def typeApplication (inner : Parser (Ty Span)) : Parser (Ty Span) := do
  let t ← current
  if t.kind = .typeIdentifier then
    let _ ← advance
    let args ← many Family.type.startsAtom (atom .type inner)
    if args.isEmpty then return .var t.text t.span
    else return .app t.text args (← spanFrom t.span.start)
  else atom .type inner

def quantified (inner : Parser (Ty Span)) : Parser (Ty Span) := located do
  let _ ← advance
  let binders ← many (·.isAt .identifier) advance
  let _ ← expect .type .dot
  let body ← inner
  return .quantified (binders.map (·.text)) body

/-- The types before each arrow with their starts, and the type behind the last arrow. A quantified
type reaches as far as it can and ends the chain. -/
def arrowChain (inner : Parser (Ty Span)) : (bound : Nat) → Parser (List (Int × Ty Span) × Ty Span)
  | 0 => unexpected .type (.category .type)
  | bound + 1 => do
    if ← test (·.isAt .kwForall) then return ([], ← quantified inner)
    else
      let s ← start
      let t ← typeApplication inner
      if ← test (·.isAt .arrow) then
        let _ ← advance
        let (domains, codomain) ← arrowChain inner bound
        return ((s, t) :: domains, codomain)
      else return ([], t)

def arrows (inner : Parser (Ty Span)) : Parser (List (Int × Ty Span) × Ty Span) := fun file c =>
  arrowChain inner c.remaining.length file c

/-- Arrows associate to the right, and each ends where the whole chain does. -/
def typeWithin (inner : Parser (Ty Span)) : Parser (Ty Span) := do
  let ((domains, codomain), spanAt) ← closing (arrows inner)
  return domains.foldr (fun (s, t) rest => .arrow t rest (spanAt s)) codomain

def type : (depth : Nat) → Parser (Ty Span)
  | 0 => tooDeep .type
  | depth + 1 => typeWithin (type depth)

end TinyFront.Parser
