/-!
Roles that pieces of a source play for the eye, under the names that color schemes know them by.
-/
namespace TinyFront.Highlight

inductive Role
  | text | comment | declaration | keyword | constant | wildcard
  | functionName | className | boundName | name | integer | operator | punctuation | error
  deriving DecidableEq, Repr

def Role.label : Role → String
  | text => "Token.Text"
  | comment => "Token.Comment.Single"
  | declaration => "Token.Keyword.Declaration"
  | keyword => "Token.Keyword"
  | constant => "Token.Keyword.Constant"
  | wildcard => "Token.Keyword.Pseudo"
  | functionName => "Token.Name.Function"
  | className => "Token.Name.Class"
  | boundName => "Token.Name.Attribute"
  | name => "Token.Name"
  | integer => "Token.Literal.Number.Integer"
  | operator => "Token.Operator"
  | punctuation => "Token.Punctuation"
  | error => "Token.Error"

/-- A piece of source with its role. -/
structure Fragment where
  role : Role
  text : List Char
  deriving DecidableEq, Repr

def Fragment.string (f : Fragment) : String := String.ofList f.text

end TinyFront.Highlight
