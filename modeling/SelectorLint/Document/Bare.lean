import SelectorLint.Data

/-!
# Bare values of documents

A value that is neither quoted nor in brackets is a run of letters, digits and a few signs: a truth value, a
number, or a date. `bare?` says what a whole run stands for. Of numbers and dates nothing is kept but that
they are well written.
-/

namespace SelectorLint.Document

/-- The character can be part of a bare value. -/
def isBareChar (c : Char) : Bool := c.isAlphanum || ['+', '-', '_', '.', ':'].contains c

/-! ## Digits -/

/-- The value of a digit, in any base up to sixteen. -/
def digitValue (c : Char) : Nat :=
  if c.isDigit then c.toNat - '0'.toNat else c.toLower.toNat - 'a'.toNat + 10

/-- The character is a digit in base sixteen. -/
def isHexDigit (c : Char) : Bool :=
  c.isDigit || ('a' ≤ c.toLower && c.toLower ≤ 'f')

/-- The number that digits stand for. Underscores do not count. -/
def valueOf (base : Nat) (digits : List Char) : Nat :=
  (digits.filter (· ≠ '_')).foldl (fun value digit => value * base + digitValue digit) 0

/-- The text has digits only, at least one, and single underscores between them. -/
def isDigits (isDigit : Char → Bool) : List Char → Bool
  | [] => false
  | [c] => isDigit c
  | c :: '_' :: rest => isDigit c && isDigits isDigit rest
  | c :: rest => isDigit c && isDigits isDigit rest

/-- The text without its sign. -/
def unsigned : List Char → List Char
  | '+' :: rest => rest
  | '-' :: rest => rest
  | text => text

/-- The digits are those of a number without zeros in front. -/
def isWhole : List Char → Bool
  | ['0'] => true
  | '0' :: _ => false
  | digits => isDigits Char.isDigit digits

/-! ## Integers -/

/-- The first number that does not fit into 63 bits. -/
def integerBound : Nat := Nat.pow 2 63

/-- The digits stand for a number in a base that fits into 63 bits. -/
def fitsIn (base : Nat) (isDigit : Char → Bool) (digits : List Char) : Bool :=
  isDigits isDigit digits && valueOf base digits < integerBound

/-- The text is an integer of 64 bits. Only one in base ten can have a sign. -/
def isInteger : List Char → Bool
  | '0' :: 'x' :: digits => fitsIn 16 isHexDigit digits
  | '0' :: 'o' :: digits => fitsIn 8 (fun c => '0' ≤ c && c ≤ '7') digits
  | '0' :: 'b' :: digits => fitsIn 2 (fun c => c = '0' || c = '1') digits
  | '-' :: digits => isWhole digits && valueOf 10 digits ≤ integerBound
  | text => isWhole (unsigned text) && valueOf 10 (unsigned text) < integerBound

/-! ## Floating point numbers -/

/-- The character starts an exponent. -/
def isExponentMark (c : Char) : Bool := c = 'e' || c = 'E'

/-- The exponent that stands after its mark. -/
def exponent? (text : List Char) : Option Int :=
  if isDigits Char.isDigit (unsigned text) then
    let value : Int := valueOf 10 (unsigned text)
    some (if text.head? = some '-' then -value else value)
  else none

/-- The exponent at the end of a number, which may be missing. -/
def exponentPart? : List Char → Option Int
  | [] => some 0
  | _ :: text => exponent? text

/-- The value `mantissa * 10 ^ scale` is nearer to `2 ^ 1024` than to the greatest double below it, or above.
The number of its digits decides this, except where they are about as many as that of `2 ^ 1024`. -/
def isTooLarge (mantissa : Nat) (scale : Int) : Bool :=
  let limit := Nat.pow 2 1024 - Nat.pow 2 970
  let digits := (Nat.toDigits 10 mantissa).length + scale
  if mantissa = 0 || digits < 300 then false
  else if digits > 320 then true
  else mantissa * Nat.pow 10 scale.toNat ≥ limit * Nat.pow 10 (-scale).toNat

/-- The text is a number with a fraction or an exponent. A negative one may be of any size. -/
def isDecimal (text : List Char) : Bool :=
  let ends (c : Char) : Bool := c = '.' || isExponentMark c
  let whole := text.takeWhile fun c => !ends c
  let (fraction, tail) := match text.dropWhile fun c => !ends c with
    | '.' :: rest => (rest.takeWhile (!isExponentMark ·), rest.dropWhile (!isExponentMark ·))
    | rest => (['0'], rest)
  match exponentPart? tail with
  | none => false
  | some exponent =>
    let digits := (unsigned whole ++ fraction).filter (· ≠ '_')
    let scale := exponent - (fraction.filter (· ≠ '_')).length
    whole.length < text.length && isWhole (unsigned whole) && isDigits Char.isDigit fraction
      && (text.head? = some '-' || !isTooLarge (valueOf 10 digits) scale)

/-- The text is a floating point number. -/
def isFloat (text : List Char) : Bool :=
  unsigned text = ['i', 'n', 'f'] || unsigned text = ['n', 'a', 'n'] || isDecimal text

/-! ## Dates and times -/

/-- The text has digits only, and stands for a number between two bounds. -/
def isBetween (low high : Nat) (digits : List Char) : Bool :=
  digits.all Char.isDigit && low ≤ valueOf 10 digits && valueOf 10 digits ≤ high

/-- The number of days of a month. -/
def daysIn (year month : Nat) : Nat :=
  let leap := year % 4 = 0 && (year % 100 ≠ 0 || year % 400 = 0)
  if month = 2 then (if leap then 29 else 28)
  else if [4, 6, 9, 11].contains month then 30
  else 31

/-- The text is a day of the calendar. -/
def isDate : List Char → Bool
  | [y₁, y₂, y₃, y₄, '-', m₁, m₂, '-', d₁, d₂] =>
    isBetween 0 9999 [y₁, y₂, y₃, y₄] && isBetween 1 12 [m₁, m₂] &&
      isBetween 1 (daysIn (valueOf 10 [y₁, y₂, y₃, y₄]) (valueOf 10 [m₁, m₂])) [d₁, d₂]
  | _ => false

/-- The text is an offset from universal time. -/
def isZone : List Char → Bool
  | ['Z'] => true
  | ['z'] => true
  | [sign, h₁, h₂, ':', m₁, m₂] =>
    (sign = '+' || sign = '-') && isBetween 0 23 [h₁, h₂] && isBetween 0 59 [m₁, m₂]
  | _ => false

/-- The text is a time of day, with an offset if that is `zoned`. -/
def isTime (zoned : Bool) : List Char → Bool
  | h₁ :: h₂ :: ':' :: m₁ :: m₂ :: ':' :: s₁ :: s₂ :: rest =>
    let (fractionOk, tail) := match rest with
      | '.' :: fraction =>
        (!(fraction.takeWhile Char.isDigit).isEmpty, fraction.dropWhile Char.isDigit)
      | _ => (true, rest)
    isBetween 0 23 [h₁, h₂] && isBetween 0 59 [m₁, m₂] && isBetween 0 60 [s₁, s₂] && fractionOk
      && (tail.isEmpty || (zoned && isZone tail))
  | _ => false

/-- The text is a date, a time, or both with a `T` between. -/
def isMoment (text : List Char) : Bool :=
  isTime false text || isDate text ||
    match text.drop 10 with
    | mark :: time => isDate (text.take 10) && (mark = 'T' || mark = 't') && isTime true time
    | [] => false

/-! ## Values -/

/-- What a whole run of bare characters stands for. -/
def bare? (text : List Char) : Option Data :=
  if text = ['t', 'r', 'u', 'e'] then some (.boolean true)
  else if text = ['f', 'a', 'l', 's', 'e'] then some (.boolean false)
  else if isMoment text then some .date
  else if isFloat text || isInteger text then some .number
  else none

/-- Reads a bare value. A space can stand between a date and a time. -/
def bareValue? (text : List Char) : Option (Data × List Char) :=
  let run := text.takeWhile isBareChar
  let rest := text.dropWhile isBareChar
  match rest with
  | ' ' :: later =>
    if isDate run && isTime true (later.takeWhile isBareChar) then
      some (.date, later.dropWhile isBareChar)
    else (bare? run).map fun data => (data, rest)
  | _ => (bare? run).map fun data => (data, rest)

end SelectorLint.Document
