import TinyFront.Toml.Scan

/-!
Quoted texts of TOML: with escapes between double quotes, without them between single ones; over
several lines where the quotes are tripled. Main statement: an escape takes at least one character.
-/
namespace TinyFront.Toml

def isHexDigit (c : Char) : Bool :=
  c.isDigit || ('a' ≤ c && c ≤ 'f') || ('A' ≤ c && c ≤ 'F')

def hexValue (c : Char) : Nat :=
  if c.isDigit then c.toNat - '0'.toNat
  else if 'a' ≤ c then c.toNat - 'a'.toNat + 10
  else c.toNat - 'A'.toNat + 10

/-- The number that digits of a base write, most significant first. -/
def numeral (base : Nat) (digits : List Char) : Nat :=
  digits.foldl (fun n c => n * base + hexValue c) 0

/-- The character whose code point stands in exactly `width` hexadecimal digits. -/
def codePoint? (width : Nat) (cs : List Char) : Option Char :=
  let digits := cs.take width
  let n := numeral 16 digits
  if digits.length = width ∧ digits.all isHexDigit ∧ n.isValidChar then some (Char.ofNat n)
  else none

def simpleEscape? : Char → Option Char
  | 'b' => some '\x08'
  | 't' => some '\t'
  | 'n' => some '\n'
  | 'f' => some '\x0c'
  | 'r' => some '\r'
  | '"' => some '"'
  | '\\' => some '\\'
  | _ => none

/-- The escape behind a backslash: its character, and what follows. -/
def escape? : List Char → Option (Char × List Char)
  | [] => none
  | c :: cs =>
    match c with
    | 'u' => (codePoint? 4 cs).map fun e => (e, cs.drop 4)
    | 'U' => (codePoint? 8 cs).map fun e => (e, cs.drop 8)
    | c => (simpleEscape? c).map fun e => (e, cs)

theorem length_escape? {cs rest : List Char} {e : Char} (h : escape? cs = some (e, rest)) :
    rest.length < cs.length := by
  cases cs with
  | nil => simp [escape?] at h
  | cons c cs =>
    simp only [escape?] at h
    split at h <;> obtain ⟨_, _, he⟩ := Option.map_eq_some_iff.1 h <;>
      · injection he with _ he; subst he; simp; try omega

/-- A backslash at the end of a line hides the line end and the blanks that follow. -/
def hiddenBreak? (cs : List Char) : Option (List Char) :=
  match cs.dropWhile isSpace with
  | '\n' :: rest => some (rest.dropWhile isSpaceOrFeed)
  | _ => none

theorem length_dropWhile_le (p : Char → Bool) (cs : List Char) :
    (cs.dropWhile p).length ≤ cs.length :=
  (List.dropWhile_sublist p).length_le

theorem length_hiddenBreak? {cs rest : List Char} (h : hiddenBreak? cs = some rest) :
    rest.length < cs.length := by
  unfold hiddenBreak? at h
  split at h
  · next tail ht =>
    injection h with h
    subst h
    have h₁ := length_dropWhile_le isSpace cs
    have h₂ := length_dropWhile_le isSpaceOrFeed tail
    rw [ht] at h₁
    simp only [List.length_cons] at h₁
    omega
  · contradiction

/-- The rest of a text between double quotes, and what follows the closing ones. -/
def basicText (multiline : Bool) : List Char → Option (List Char × List Char)
  | [] => none
  | '"' :: cs =>
    if multiline then
      if "\"\"".toList.isPrefixOf cs then some ([], cs.drop 2)
      else (basicText multiline cs).map fun (text, rest) => ('"' :: text, rest)
    else some ([], cs)
  | '\\' :: cs =>
    match _hb : if multiline then hiddenBreak? cs else none with
    | some rest => basicText multiline rest
    | none =>
      match _he : escape? cs with
      | some (e, rest) => (basicText multiline rest).map fun (text, rest) => (e :: text, rest)
      | none => none
  | c :: cs =>
    if isControl multiline c then none
    else (basicText multiline cs).map fun (text, rest) => (c :: text, rest)
termination_by cs => cs.length
decreasing_by
  · simp
  · have : rest.length < cs.length := by
      split at _hb
      · exact length_hiddenBreak? _hb
      · contradiction
    simp; omega
  · have := length_escape? _he
    simp; omega
  · simp

/-- What stands before the first occurrence of the mark, and what follows it. -/
def untilMark (mark : List Char) : List Char → Option (List Char × List Char)
  | [] => if mark.isEmpty then some ([], []) else none
  | c :: cs =>
    if mark.isPrefixOf (c :: cs) then some ([], (c :: cs).drop mark.length)
    else (untilMark mark cs).map fun (text, rest) => (c :: text, rest)

/-- The rest of a text between single quotes, and what follows the closing ones. -/
def literalText (multiline : Bool) (cs : List Char) : Option (List Char × List Char) :=
  (untilMark (if multiline then "'''".toList else ['\'']) cs).filter fun (text, _) =>
    !text.any (isControl multiline)

/-- Behind the closing quotes of a text over several lines up to two more belong to the text. -/
def withMoreQuotes (quote : Char) : List Char × List Char → List Char × List Char
  | (text, rest) =>
    let more := (rest.takeWhile (· == quote)).take 2
    (text ++ more, rest.drop more.length)

/-- A line feed right behind the opening quotes is not part of the text. -/
def dropFirstFeed (cs : List Char) : List Char := if cs.head? = some '\n' then cs.tail else cs

/-- A text on one line, from its opening quote on. -/
def lineText? : List Char → Option (List Char × List Char)
  | '"' :: cs => basicText false cs
  | '\'' :: cs => literalText false cs
  | _ => none

/-- A text on one line or several, from its opening quotes on. -/
def quotedText? (cs : List Char) : Option (List Char × List Char) :=
  if "\"\"\"".toList.isPrefixOf cs then
    (basicText true (dropFirstFeed (cs.drop 3))).map (withMoreQuotes '"')
  else if "'''".toList.isPrefixOf cs then
    (literalText true (dropFirstFeed (cs.drop 3))).map (withMoreQuotes '\'')
  else lineText? cs

end TinyFront.Toml
