/-!
Kinds of tokens. A keyword or symbol has one spelling; the other kinds have many. Main statements:
the spelling of a keyword or symbol determines its kind, and no keyword is spelled like a symbol.
-/
namespace TinyFront

inductive TokenKind
  | kwIf | kwLet | kwElse | kwMatch | kwFn | kwType | kwForall
  | integer | boolean
  | plus | minus | star | slash | arrow | fatArrow | assign | dot
  | lparen | rparen | lbrace | rbrace | comma | colon | semicolon | pipe
  | underscore
  | identifier | typeIdentifier
  | eof
  deriving DecidableEq, Repr, Inhabited

namespace TokenKind

/-- The name under which token listings show the kind. -/
def label : TokenKind → String
  | kwIf => "IF" | kwLet => "LET" | kwElse => "ELSE" | kwMatch => "MATCH" | kwFn => "FN"
  | kwType => "TYPE" | kwForall => "FORALL"
  | integer => "INTEGER_LIT" | boolean => "BOOLEAN_LIT"
  | plus => "PLUS" | minus => "MINUS" | star => "STAR" | slash => "SLASH"
  | arrow => "ARROW" | fatArrow => "FAT_ARROW" | assign => "ASSIGN" | dot => "DOT"
  | lparen => "LPAREN" | rparen => "RPAREN" | lbrace => "LBRACE" | rbrace => "RBRACE"
  | comma => "COMMA" | colon => "COLON" | semicolon => "SEMICOLON" | pipe => "PIPE"
  | underscore => "UNDERSCORE"
  | identifier => "IDENTIFIER" | typeIdentifier => "TYPE_IDENTIFIER"
  | eof => "EOF"

def all : List TokenKind := [
  kwIf, kwLet, kwElse, kwMatch, kwFn, kwType, kwForall, integer, boolean,
  plus, minus, star, slash, arrow, fatArrow, assign, dot,
  lparen, rparen, lbrace, rbrace, comma, colon, semicolon, pipe, underscore,
  identifier, typeIdentifier, eof]

theorem mem_all (k : TokenKind) : k ∈ all := by cases k <;> decide

def ofLabel? (s : String) : Option TokenKind := all.find? (·.label == s)

/-- Words that are not names; the two truth values are literals. -/
def keywords : List (String × TokenKind) := [
  ("if", kwIf), ("let", kwLet), ("else", kwElse), ("match", kwMatch), ("fn", kwFn),
  ("type", kwType), ("forall", kwForall), ("true", boolean), ("false", boolean)]

def symbols : List (String × TokenKind) := [
  ("->", arrow), ("=>", fatArrow), ("+", plus), ("-", minus), ("*", star), ("/", slash),
  ("=", assign), (".", dot), ("(", lparen), (")", rparen), ("\x7b", lbrace), ("\x7d", rbrace),
  (",", comma), (":", colon), (";", semicolon), ("|", pipe)]

def ofKeyword? (word : String) : Option TokenKind := keywords.lookup word

def ofSymbol? (text : String) : Option TokenKind := symbols.lookup text

/-- The one spelling of a keyword or symbol. -/
def spelling? : TokenKind → Option String
  | kwIf => some "if" | kwLet => some "let" | kwElse => some "else" | kwMatch => some "match"
  | kwFn => some "fn" | kwType => some "type" | kwForall => some "forall"
  | plus => some "+" | minus => some "-" | star => some "*" | slash => some "/"
  | arrow => some "->" | fatArrow => some "=>" | assign => some "=" | dot => some "."
  | lparen => some "(" | rparen => some ")" | lbrace => some "\x7b" | rbrace => some "\x7d"
  | comma => some "," | colon => some ":" | semicolon => some ";" | pipe => some "|"
  | underscore => some "_"
  | _ => none

/-- The words with which messages name the kind. -/
def description (k : TokenKind) : String :=
  match k with
  | integer => "number"
  | boolean => "boolean"
  | identifier => "identifier"
  | typeIdentifier => "uppercase identifier"
  | eof => "end of input"
  | k => "'" ++ k.spelling?.getD "" ++ "'"

/-- Messages show the text of a token of one of these kinds beside its description. -/
def showsText : TokenKind → Bool
  | integer | boolean | identifier | typeIdentifier => true
  | _ => false

theorem mem_of_lookup {table : List (String × TokenKind)} {s : String} {k : TokenKind}
    (h : table.lookup s = some k) : (s, k) ∈ table := by
  obtain ⟨l, r, rfl, _⟩ := List.lookup_eq_some_iff.1 h
  simp

theorem spelling?_of_ofSymbol? {s : String} {k : TokenKind} (h : ofSymbol? s = some k) :
    k.spelling? = some s :=
  have spelled : ∀ p ∈ symbols, p.2.spelling? = some p.1 := by decide
  spelled (s, k) (mem_of_lookup h)

theorem ofKeyword?_eq_none_of_ofSymbol? {s : String} {k : TokenKind} (h : ofSymbol? s = some k) :
    ofKeyword? s = none :=
  have disjoint : ∀ p ∈ symbols, ofKeyword? p.1 = none := by decide
  disjoint (s, k) (mem_of_lookup h)

theorem spelling?_of_ofKeyword? {s : String} {k : TokenKind} (h : ofKeyword? s = some k)
    (hk : k ≠ boolean) : k.spelling? = some s :=
  have spelled : ∀ p ∈ keywords, p.2 ≠ boolean → p.2.spelling? = some p.1 := by decide
  spelled (s, k) (mem_of_lookup h) hk

end TokenKind
end TinyFront
