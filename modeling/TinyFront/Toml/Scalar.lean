import TinyFront.Toml.Quoted

/-!
Numbers, dates and times of TOML, each read as far as its form goes.
-/
namespace TinyFront.Toml

/-- Digits of a class, with single underscores between them, up to the first character that does
not belong there. The underscores are left out of the digits. -/
def moreDigits (isDigit : Char → Bool) : List Char → List Char × List Char
  | '_' :: c :: cs =>
    if isDigit c then
      let (digits, rest) := moreDigits isDigit cs
      (c :: digits, rest)
    else ([], '_' :: c :: cs)
  | c :: cs =>
    if isDigit c then
      let (digits, rest) := moreDigits isDigit cs
      (c :: digits, rest)
    else ([], c :: cs)
  | [] => ([], [])

def digitRun? (isDigit : Char → Bool) (cs : List Char) : Option (List Char × List Char) :=
  if cs.head?.any isDigit then some (moreDigits isDigit cs) else none

def isBinaryDigit (c : Char) : Bool := c == '0' || c == '1'

def isOctalDigit (c : Char) : Bool := '0' ≤ c && c ≤ '7'

/-- An integer in base sixteen, eight or two. -/
def basedInteger? : List Char → Option (Int × List Char)
  | '0' :: 'x' :: cs => (digitRun? isHexDigit cs).map fun (ds, rest) => (numeral 16 ds, rest)
  | '0' :: 'o' :: cs => (digitRun? isOctalDigit cs).map fun (ds, rest) => (numeral 8 ds, rest)
  | '0' :: 'b' :: cs => (digitRun? isBinaryDigit cs).map fun (ds, rest) => (numeral 2 ds, rest)
  | _ => none

def isSign (c : Char) : Bool := c == '+' || c == '-'

def afterSign (cs : List Char) : List Char := if cs.head?.any isSign then cs.tail else cs

/-- A number with the sign that stands in front of it. -/
def signed (cs : List Char) (n : Nat) : Int := if cs.head? = some '-' then -n else n

/-- The digits before a point. A zero is followed by no further digit. -/
def wholeDigits? : List Char → Option (List Char × List Char)
  | '0' :: cs => some (['0'], cs)
  | cs => digitRun? Char.isDigit cs

/-- What follows a fraction, if one begins here. -/
def afterFraction (cs : List Char) : List Char :=
  match cs with
  | '.' :: rest => ((digitRun? Char.isDigit rest).map (·.2)).getD cs
  | _ => cs

/-- What follows an exponent, if one begins here. -/
def afterExponent (cs : List Char) : List Char :=
  if cs.head? = some 'e' || cs.head? = some 'E' then
    ((digitRun? Char.isDigit (afterSign cs.tail)).map (·.2)).getD cs
  else cs

def upTo (cs rest : List Char) : List Char := cs.take (cs.length - rest.length)

/-- The longest decimal integer that is read. -/
def integerLimit : Nat := 4300

/-- A number in base ten; with a fraction or an exponent it is no integer. -/
def decimal? (cs : List Char) : Option (Except Refusal (Value × List Char)) :=
  (wholeDigits? (afterSign cs)).map fun (digits, behind) =>
    let rest := afterExponent (afterFraction behind)
    if rest.length < behind.length then .ok (.float (String.ofList (upTo cs rest)), rest)
    else if integerLimit < digits.length then .error (.literalTooLong digits.length)
    else .ok (.integer (signed cs (numeral 10 digits)), rest)

/-- The number that two decimal digits write. -/
def twoDigits? (a b : Char) : Option Nat :=
  if a.isDigit && b.isDigit then some (numeral 10 [a, b]) else none

def isBelow (limit : Nat) (a b : Char) : Bool := (twoDigits? a b).any (· < limit)

/-- What follows a time of day. -/
def afterTime? : List Char → Option (List Char)
  | h :: h' :: ':' :: m :: m' :: ':' :: s :: s' :: cs =>
    if isBelow 24 h h' && isBelow 60 m m' && isBelow 60 s s' then
      match cs with
      | '.' :: c :: rest => some (if c.isDigit then rest.dropWhile Char.isDigit else cs)
      | cs => some cs
    else none
  | _ => none

/-- What follows the distance from universal time, if one is given. -/
def afterOffset (cs : List Char) : List Char :=
  match cs with
  | 'Z' :: rest | 'z' :: rest => rest
  | c :: h :: h' :: ':' :: m :: m' :: rest =>
    if isSign c && isBelow 24 h h' && isBelow 60 m m' then rest else cs
  | cs => cs

def isLeapYear (y : Nat) : Bool := y % 4 == 0 && (y % 100 != 0 || y % 400 == 0)

def daysInMonth (y m : Nat) : Nat :=
  if m = 2 then (if isLeapYear y then 29 else 28)
  else if m = 4 || m = 6 || m = 9 || m = 11 then 30
  else 31

/-- What follows a day of the calendar, which begins with the year one. -/
def afterDate? : List Char → Option (List Char)
  | a :: b :: c :: d :: '-' :: m :: m' :: '-' :: e :: e' :: cs =>
    if [a, b, c, d, m, m', e, e'].all Char.isDigit then
      let year := numeral 10 [a, b, c, d]
      let month := numeral 10 [m, m']
      let day := numeral 10 [e, e']
      if 1 ≤ year ∧ 1 ≤ month ∧ month ≤ 12 ∧ 1 ≤ day ∧ day ≤ daysInMonth year month then some cs
      else none
    else none
  | _ => none

/-- A day, a day with a time, or a time. -/
def afterMoment? (cs : List Char) : Option (List Char) :=
  match afterDate? cs with
  | some rest =>
    match rest with
    | c :: time =>
      if c == 'T' || c == 't' || c == ' ' then ((afterTime? time).map afterOffset).or (some rest)
      else some rest
    | [] => some rest
  | none => afterTime? cs

/-- One of the numbers that no digits write. -/
def special? (cs : List Char) : Option (Value × List Char) :=
  let name := (afterSign cs).take 3
  if name = "inf".toList || name = "nan".toList then
    let rest := (afterSign cs).drop 3
    some (.float (String.ofList (upTo cs rest)), rest)
  else none

def ofResult {α : Type} (r : α × List Char) : Except Refusal (α × List Char) := .ok r

/-- A value that is neither quoted nor composed of others. -/
def scalar : Scan Value := fun cs =>
  let moment := (afterMoment? cs).map fun rest =>
    ofResult (Value.moment (String.ofList (upTo cs rest)), rest)
  let based := (basedInteger? cs).map fun (n, rest) => ofResult (Value.integer n, rest)
  let special := (special? cs).map ofResult
  (moment.or (based.or ((decimal? cs).or special))).getD (.error .malformed)

end TinyFront.Toml
