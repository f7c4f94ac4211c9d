import TinyFront.Text.Printable

/-!
Quoted text: how a piece of text is shown inside a message or a listing. The quotes are single,
unless the text holds a single quote and no double one; what has no shape of its own is written as
an escape.
-/
namespace TinyFront.Text

/-- Lowercase hexadecimal digits, most significant first, in exactly `width` places. -/
def hexDigits (width n : Nat) : List Char :=
  (List.range width).reverse.map fun place => Nat.digitChar (n / Nat.pow 16 place % 16)

@[simp] theorem length_hexDigits (width n : Nat) : (hexDigits width n).length = width := by
  simp [hexDigits]

/-- The code point as two, four or eight hexadecimal digits, whichever is the first to suffice. -/
def hexEscape (c : Char) : List Char :=
  if c.toNat < 0x100 then '\\' :: 'x' :: hexDigits 2 c.toNat
  else if c.toNat < 0x10000 then '\\' :: 'u' :: hexDigits 4 c.toNat
  else '\\' :: 'U' :: hexDigits 8 c.toNat

/-- The form of one character between quotes of the given kind. -/
def escapeChar (quote c : Char) : List Char :=
  if c = '\\' || c = quote then ['\\', c]
  else if c = '\n' then ['\\', 'n']
  else if c = '\r' then ['\\', 'r']
  else if c = '\t' then ['\\', 't']
  else if isPrintable c then [c]
  else hexEscape c

/-- The quote that needs the fewest escapes, the single one if both do. -/
def quoteFor (cs : List Char) : Char :=
  if cs.contains '\'' && !cs.contains '"' then '"' else '\''

def quoteChars (cs : List Char) : List Char :=
  let q := quoteFor cs
  q :: cs.flatMap (escapeChar q) ++ [q]

def quote (s : String) : String := String.ofList (quoteChars s.toList)

/-- A bracketed, comma-separated list of quoted texts. -/
def quoteAll (ss : List String) : String :=
  "[" ++ String.intercalate ", " (ss.map quote) ++ "]"

end TinyFront.Text
