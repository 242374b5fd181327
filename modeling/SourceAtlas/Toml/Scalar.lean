import SourceAtlas.Path
import SourceAtlas.Text.Hex
import SourceAtlas.Timestamp
import SourceAtlas.Toml
/-!
TOML values that are one word: numbers, truth values, dates and times. Only integers are kept; of the
others it is checked that they are well formed.
-/

namespace SourceAtlas.Toml

/-- Digits without the underscores that group them; each underscore stands between two digits. -/
def ungroup? (test : Char → Bool) (text : List Char) : Option (List Char) :=
  let groups := splitAtChar '_' text
  if groups.all fun group => !group.isEmpty && group.all test then some groups.flatten else none

def plainDigits? (text : List Char) : Option (List Char) := do
  let digits ← ungroup? Char.isDigit text
  match digits with
  | '0' :: _ :: _ => none
  | _ => some digits

/-- The sign of a number, negative or not, and what follows it. -/
def splitSign : List Char → Bool × List Char
  | '+' :: rest => (false, rest)
  | '-' :: rest => (true, rest)
  | text => (false, text)

def inBase (base : Nat) (digits : List Char) : Nat :=
  digits.foldl (fun value c => value * base + (Hex.value? c).getD 0) 0

def isHexDigit (c : Char) : Bool := (Hex.value? c).isSome

def isBelow (limit c : Char) : Bool := '0' ≤ c && c ≤ limit

/-- An integer, which must fit in 64 bits. -/
def integer? (text : List Char) : Option Int := do
  let value : Int ← match text with
    | '0' :: 'x' :: digits => (ungroup? isHexDigit digits).map fun digits => Int.ofNat (inBase 16 digits)
    | '0' :: 'o' :: digits => (ungroup? (isBelow '7') digits).map fun digits => Int.ofNat (inBase 8 digits)
    | '0' :: 'b' :: digits => (ungroup? (isBelow '1') digits).map fun digits => Int.ofNat (inBase 2 digits)
    | _ =>
        let (negative, rest) := splitSign text
        (plainDigits? rest).map fun digits =>
          if negative then -(Int.ofNat (Decimal.value digits)) else Int.ofNat (Decimal.value digits)
  if -9223372036854775808 ≤ value ∧ value < 9223372036854775808 then some value else none

def isExponentMark (c : Char) : Bool := c == 'e' || c == 'E'

def isExponent (text : List Char) : Bool := (ungroup? Char.isDigit (splitSign text).2).isSome

/-- A float: a fraction, an exponent or both, or one of the words for what is no number. -/
def isFloat (text : List Char) : Bool :=
  let rest := (splitSign text).2
  let mantissa := rest.takeWhile fun c => !isExponentMark c
  let exponent := rest.dropWhile fun c => !isExponentMark c
  let whole := mantissa.takeWhile (· != '.')
  let fraction := mantissa.dropWhile (· != '.')
  rest == "inf".toList || rest == "nan".toList ||
    ((plainDigits? whole).isSome && !(fraction.isEmpty && exponent.isEmpty) &&
      (fraction.isEmpty || (ungroup? Char.isDigit fraction.tail).isSome) &&
      (exponent.isEmpty || isExponent exponent.tail))

def pair? (a b : Char) : Option Nat :=
  if a.isDigit && b.isDigit then some (Decimal.value [a, b]) else none

/-- Two digits within bounds. -/
def isPair (first last : Nat) (a b : Char) : Bool :=
  match pair? a b with
  | some n => first ≤ n && n ≤ last
  | none => false

/-- A date with four, two and two digits. -/
def isDate : List Char → Bool
  | [y1, y2, y3, y4, '-', m1, m2, '-', d1, d2] =>
      [y1, y2, y3, y4].all Char.isDigit && isPair 1 12 m1 m2 &&
        isPair 1 (TimeFields.daysIn (Decimal.value [y1, y2, y3, y4]) (Decimal.value [m1, m2])) d1 d2
  | _ => false

def isOffset : List Char → Bool
  | [c] => c == 'Z' || c == 'z'
  | [sign, h1, h2, ':', m1, m2] =>
      (sign == '+' || sign == '-') && isPair 0 23 h1 h2 && isPair 0 59 m1 m2
  | _ => false

/-- A time of day, with an offset after it where `zoned` allows one. -/
def isTime (zoned : Bool) : List Char → Bool
  | h1 :: h2 :: ':' :: m1 :: m2 :: ':' :: s1 :: s2 :: rest =>
      let afterFraction := match rest with
        | '.' :: digits => digits.dropWhile Char.isDigit
        | _ => rest
      let fractionHolds := match rest with
        | '.' :: c :: _ => c.isDigit
        | ['.'] => false
        | _ => true
      isPair 0 23 h1 h2 && isPair 0 59 m1 m2 && isPair 0 60 s1 s2 && fractionHolds &&
        (afterFraction.isEmpty || (zoned && isOffset afterFraction))
  | _ => false

/-- A date, a time, or both with a letter between them. -/
def isMoment (text : List Char) : Bool :=
  isDate text || isTime false text ||
    match text.drop 10 with
    | c :: time => isDate (text.take 10) && (c == 'T' || c == 't') && isTime true time
    | [] => false

def scalar? (word : List Char) : Option Toml :=
  if word == "true".toList || word == "false".toList || isMoment word then some .other
  else match integer? word with
    | some value => some (.integer value)
    | none => if isFloat word then some .other else none

end SourceAtlas.Toml
