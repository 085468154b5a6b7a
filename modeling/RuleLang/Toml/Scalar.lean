import RuleLang.Toml.Value

/-!
# TOML literals

Booleans, numbers, dates and times: what is written without quotes.

## Main definitions

* `readScalar` — a literal of any kind.
* `integer?`, `isFloat`, `isMoment` — the kinds with rules of their own.
-/

namespace RuleLang.Toml

def isDigit (c : Char) : Bool :=
  '0' ≤ c && c ≤ '9'

/-! ## Numbers -/

/-- The digits of a literal whose underscores stand between two digits each. -/
def ungrouped? (isDigit : Char → Bool) : List Char → Option (List Char)
  | [] => none
  | [c] => if isDigit c then some [c] else none
  | c :: '_' :: d :: cs =>
    if isDigit c then (ungrouped? isDigit (d :: cs)).map (c :: ·) else none
  | c :: d :: cs => if isDigit c then (ungrouped? isDigit (d :: cs)).map (c :: ·) else none

def digitValue (c : Char) : Nat :=
  if isDigit c then c.toNat - '0'.toNat else c.toLower.toNat - 'a'.toNat + 10

def ofDigits (base : Nat) (digits : List Char) : Nat :=
  digits.foldl (fun n c => base * n + digitValue c) 0

/-- A literal without its sign. -/
def unsigned : List Char → List Char
  | '+' :: cs => cs
  | '-' :: cs => cs
  | cs => cs

/-- The digits of a decimal number: only zero itself starts with a zero. -/
def decimalDigits? (cs : List Char) : Option (List Char) :=
  (ungrouped? isDigit cs).filter fun digits => digits.length = 1 || digits.head? != some '0'

/-- The digits of a number in one of the other bases. -/
def based? (base : Nat) (cs : List Char) : Option Int :=
  (ungrouped? (fun c => c.isAlphanum && digitValue c < base) cs).map fun digits =>
    (ofDigits base digits : Int)

def integer? : List Char → Option Int
  | '0' :: 'x' :: cs => based? 16 cs
  | '0' :: 'o' :: cs => based? 8 cs
  | '0' :: 'b' :: cs => based? 2 cs
  | cs =>
    (decimalDigits? (unsigned cs)).map fun digits =>
      let n : Int := ofDigits 10 digits
      if cs.head? = some '-' then -n else n

/-- The parts before and after the first character of a kind. -/
def cut (p : Char → Bool) (cs : List Char) : List Char × Option (List Char) :=
  (cs.takeWhile fun c => !p c, (cs.dropWhile fun c => !p c).tail?)

/-- A fraction, an exponent, or both after an integer part; or a name with a sign. -/
def isFloat (cs : List Char) : Bool :=
  let number := unsigned cs
  if number == ['i', 'n', 'f'] || number == ['n', 'a', 'n'] then true
  else
    let (mantissa, exponent?) := cut (fun c => c == 'e' || c == 'E') number
    let (whole, fraction?) := cut (· == '.') mantissa
    (exponent?.isSome || fraction?.isSome) && (decimalDigits? whole).isSome &&
      fraction?.all (fun f => (ungrouped? isDigit f).isSome) &&
      exponent?.all fun e => (ungrouped? isDigit (unsigned e)).isSome

/-! ## Dates and times -/

/-- A number of exactly so many digits, at least `low` and at most `high`. -/
def field? (digits low high : Nat) (cs : List Char) : Option (Nat × List Char) :=
  let front := cs.take digits
  let n := ofDigits 10 front
  if front.length == digits && front.all isDigit && low ≤ n && n ≤ high then
    some (n, cs.drop digits)
  else none

/-- What follows a given character. -/
def after? (c : Char) : List Char → Option (List Char)
  | d :: cs => if c = d then some cs else none
  | [] => none

def daysIn (year month : Nat) : Nat :=
  if month == 2 then
    if year % 4 == 0 && (year % 100 != 0 || year % 400 == 0) then 29 else 28
  else if [4, 6, 9, 11].contains month then 30
  else 31

/-- What follows a date. -/
def afterDate? (cs : List Char) : Option (List Char) := do
  let (year, cs) ← field? 4 0 9999 cs
  let (month, cs) ← field? 2 1 12 (← after? '-' cs)
  let (_, cs) ← field? 2 1 (daysIn year month) (← after? '-' cs)
  return cs

/-- What follows hours and minutes. -/
def afterHourMinute? (cs : List Char) : Option (List Char) := do
  let (_, cs) ← field? 2 0 23 cs
  let (_, cs) ← field? 2 0 59 (← after? ':' cs)
  return cs

/-- What follows a time; seconds may be missing, and have a fraction. -/
def afterTime? (cs : List Char) : Option (List Char) := do
  let cs ← afterHourMinute? cs
  match cs with
  | ':' :: cs =>
    let (_, cs) ← field? 2 0 60 cs
    match cs with
    | '.' :: cs =>
      if (cs.takeWhile isDigit).isEmpty then none else some (cs.dropWhile isDigit)
    | cs => some cs
  | cs => some cs

/-- What follows the offset of a time. -/
def afterOffset? : List Char → Option (List Char)
  | 'Z' :: cs => some cs
  | 'z' :: cs => some cs
  | '+' :: cs => afterHourMinute? cs
  | '-' :: cs => afterHourMinute? cs
  | cs => some cs

/-- A time, a date, or a date and a time that may have an offset. -/
def isMoment (cs : List Char) : Bool :=
  afterTime? cs == some [] ||
    match afterDate? cs with
    | none => false
    | some [] => true
    | some (c :: rest) =>
      (c == 'T' || c == 't' || c == ' ') && (afterTime? rest).bind afterOffset? == some []

/-! ## Literals -/

def isLiteralChar (c : Char) : Bool :=
  c.isAlphanum || ['+', '-', '_', '.', ':'].contains c

/-- The characters of a literal. A date and a time may have a space between them. -/
def literal (cs : List Char) : List Char :=
  let word := cs.takeWhile isLiteralChar
  match cs.dropWhile isLiteralChar with
  | ' ' :: c :: rest =>
    if afterDate? word == some [] && isDigit c then
      word ++ ' ' :: (c :: rest).takeWhile isLiteralChar
    else word
  | _ => word

def ofLiteral? (cs : List Char) : Option Value :=
  if cs == "true".toList then some (.boolean true)
  else if cs == "false".toList then some (.boolean false)
  else
    match integer? cs with
    | some n => some (.integer n)
    | none =>
      if isFloat cs then some (.float cs)
      else if isMoment cs then some (.moment cs)
      else none

/-- A literal of any kind. -/
def readScalar (cs : List Char) : Option (Value × List Char) :=
  let word := literal cs
  (ofLiteral? word).map fun v => (v, cs.drop word.length)

end RuleLang.Toml
