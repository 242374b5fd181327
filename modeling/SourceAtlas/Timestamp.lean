import SourceAtlas.Text.Blank
import SourceAtlas.Text.Decimal
/-!
Points in time as date and time in UTC, how they are written, and the looser forms that are read: an
offset from UTC, one digit where two are usual, and white space between the parts.
-/

namespace SourceAtlas

/-- A date and a time of day, on the calendar that has always had its leap years. The sixtieth second
of a minute is a leap second. -/
structure TimeFields where
  year : Int
  month : Nat
  day : Nat
  hour : Nat
  minute : Nat
  second : Nat
  nanos : Nat
  deriving Repr, DecidableEq

namespace TimeFields

def isLeapYear (year : Int) : Bool := year % 4 == 0 && (year % 100 != 0 || year % 400 == 0)

def daysIn (year : Int) (month : Nat) : Nat :=
  if month = 2 then if isLeapYear year then 29 else 28
  else if month = 4 ∨ month = 6 ∨ month = 9 ∨ month = 11 then 30
  else 31

/-- The years that can be written down. -/
def firstYear : Int := -262143

def lastYear : Int := 262142

def isValid (time : TimeFields) : Bool :=
  firstYear ≤ time.year && time.year ≤ lastYear &&
    1 ≤ time.month && time.month ≤ 12 &&
    1 ≤ time.day && time.day ≤ daysIn time.year time.month &&
    time.hour < 24 && time.minute < 60 && time.second ≤ 60 && time.nanos < 1000000000

/-- The same time on the day before. -/
def dayBefore (time : TimeFields) : TimeFields :=
  if time.day ≠ 1 then { time with day := time.day - 1 }
  else if time.month ≠ 1 then
    { time with month := time.month - 1, day := daysIn time.year (time.month - 1) }
  else { time with year := time.year - 1, month := 12, day := 31 }

/-- The same time on the day after. -/
def dayAfter (time : TimeFields) : TimeFields :=
  if time.day < daysIn time.year time.month then { time with day := time.day + 1 }
  else if time.month < 12 then { time with month := time.month + 1, day := 1 }
  else { time with year := time.year + 1, month := 1, day := 1 }

/-- The time in UTC of a local time, at an offset of less than a day. -/
def atOffset (time : TimeFields) (minutes : Int) : TimeFields :=
  let moved : Int := time.hour * 60 + time.minute - minutes
  let (day, rest) :=
    if moved < 0 then (time.dayBefore, moved + 1440)
    else if 1440 ≤ moved then (time.dayAfter, moved - 1440)
    else (time, moved)
  { day with hour := rest.toNat / 60, minute := rest.toNat % 60 }

end TimeFields

structure Timestamp where
  fields : TimeFields
  valid : fields.isValid = true
  deriving Repr, DecidableEq

namespace Timestamp

def ofFields? (fields : TimeFields) : Option Timestamp :=
  if valid : fields.isValid = true then some { fields, valid } else none

/-- Year, month and day of the day that lies `days` days after the first of January 1970. Years are
counted from March, so that a leap day is the last of its year. -/
def dateOfDay (days : Int) : Int × Nat × Nat :=
  let shifted := days + 719468
  let cycle := shifted / 146097
  let day := (shifted % 146097).toNat
  let year := (day - day / 1460 + day / 36524 - day / 146096) / 365
  let dayOfYear := day - (365 * year + year / 4 - year / 100)
  let month := (5 * dayOfYear + 2) / 153
  let dayOfMonth := dayOfYear - (153 * month + 2) / 5 + 1
  if month < 10 then (cycle * 400 + year, month + 3, dayOfMonth)
  else (cycle * 400 + year + 1, month - 9, dayOfMonth)

/-- The point in time so many nanoseconds after the start of the year 1970. -/
def ofNanos? (nanos : Int) : Option Timestamp :=
  let seconds := nanos / 1000000000
  let (year, month, day) := dateOfDay (seconds / 86400)
  let second := (seconds % 86400).toNat
  ofFields? {
    year, month, day
    hour := second / 3600
    minute := second / 60 % 60
    second := second % 60
    nanos := (nanos % 1000000000).toNat }

/-- Years of four digits stand as they are, others with a sign. -/
def writeYear (year : Int) : List Char :=
  if year < 0 then '-' :: Decimal.padded 4 year.natAbs
  else if year ≤ 9999 then Decimal.padded 4 year.natAbs
  else '+' :: Decimal.padded 4 year.natAbs

/-- The fraction of a second in as few groups of three digits as hold it. -/
def writeFraction (nanos : Nat) : List Char :=
  if nanos = 0 then []
  else if nanos % 1000000 = 0 then '.' :: Decimal.padded 3 (nanos / 1000000)
  else if nanos % 1000 = 0 then '.' :: Decimal.padded 6 (nanos / 1000)
  else '.' :: Decimal.padded 9 nanos

def writeDate (fields : TimeFields) : List Char :=
  writeYear fields.year ++ '-' :: Decimal.padded 2 fields.month ++ '-' :: Decimal.padded 2 fields.day

def writeClock (fields : TimeFields) : List Char :=
  Decimal.padded 2 fields.hour ++ ':' :: Decimal.padded 2 fields.minute ++
    ':' :: Decimal.padded 2 fields.second ++ writeFraction fields.nanos

def toText (time : Timestamp) : String :=
  String.ofList (writeDate time.fields ++ 'T' :: writeClock time.fields ++ ['Z'])

/-- One digit at least and `limit` at most. -/
def readNumber? (limit : Nat) (text : List Char) : Option (Nat × List Char) :=
  let digits := (text.take limit).takeWhile Char.isDigit
  if digits.isEmpty then none else some (Decimal.value digits, text.drop digits.length)

/-- A number of one or two digits after white space. -/
def readField? (text : List Char) : Option (Nat × List Char) := readNumber? 2 (Blank.trimLeft text)

/-- A year after white space; a sign lets it have more than four digits. -/
def readYear? (text : List Char) : Option (Int × List Char) :=
  match Blank.trimLeft text with
  | '-' :: rest => (readNumber? rest.length rest).map fun (year, rest) => (-(year : Int), rest)
  | '+' :: rest => (readNumber? rest.length rest).map fun (year, rest) => ((year : Int), rest)
  | rest => (readNumber? 4 rest).map fun (year, rest) => ((year : Int), rest)

/-- What follows a mark after white space. -/
def afterMark? (mark : Char) (text : List Char) : Option (List Char) :=
  match Blank.trimLeft text with
  | c :: rest => if c = mark then some rest else none
  | [] => none

/-- A fraction of a second in nanoseconds, if one is there; digits past the ninth do not count. -/
def readFraction? (text : List Char) : Option (Nat × List Char) :=
  match text with
  | '.' :: rest => do
      let (_, _) ← readNumber? 9 rest
      let digits := (rest.take 9).takeWhile Char.isDigit
      return (Decimal.value digits * Nat.pow 10 (9 - digits.length),
        (rest.drop digits.length).dropWhile Char.isDigit)
  | _ => some (0, text)

def readPair? : List Char → Option (Nat × List Char)
  | a :: b :: rest => if a.isDigit && b.isDigit then some (Decimal.value [a, b], rest) else none
  | _ => none

/-- An offset from UTC in minutes. -/
def readOffset? (text : List Char) : Option (Int × List Char) :=
  match text with
  | [] => none
  | c :: rest =>
      if (text.take 3).map Char.toUpper == "UTC".toList then some (0, text.drop 3)
      else if c = 'Z' ∨ c = 'z' then some (0, rest)
      else if c = '+' ∨ c = '-' ∨ c = '\u2212' then do
        let (hours, rest) ← readPair? rest
        let (minutes, rest) ← readPair? (rest.dropWhile fun c => c == ':' || Blank.isBlank c)
        let offset : Int := hours * 60 + minutes
        if minutes < 60 ∧ offset < 1440 then
          return (if c = '+' then offset else -offset, rest)
        else none
      else none

def ofText? (text : String) : Option Timestamp := do
  let (year, rest) ← readYear? text.toList
  let (month, rest) ← readField? (← afterMark? '-' rest)
  let (day, rest) ← readField? (← afterMark? '-' rest)
  let separator :: rest := rest | none
  if separator ≠ 'T' ∧ separator ≠ 't' ∧ separator ≠ ' ' then none
  else
    let (hour, rest) ← readField? rest
    let (minute, rest) ← readField? (← afterMark? ':' rest)
    let (second, rest) ← readField? (← afterMark? ':' rest)
    let (nanos, rest) ← readFraction? rest
    let (offset, rest) ← readOffset? (Blank.trimLeft rest)
    let there ← ofFields? { year, month, day, hour, minute, second, nanos }
    if (Blank.trimLeft rest).isEmpty then ofFields? (there.fields.atOffset offset) else none

end Timestamp

end SourceAtlas
