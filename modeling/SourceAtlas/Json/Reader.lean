import SourceAtlas.Json
import SourceAtlas.Text.Decimal
/-!
Reading JSON text. Every function takes the characters that are left and answers a value with the
characters after it, so that a longer text can be read on.
-/

namespace SourceAtlas.Json

def isSpace (c : Char) : Bool := c == ' ' || c == '\n' || c == '\t' || c == '\r'

def skipSpace (text : List Char) : List Char := text.dropWhile isSpace

def readHex4 : List Char → Option (Nat × List Char)
  | a :: b :: c :: d :: rest => do return (← Hex.number? [a, b, c, d], rest)
  | _ => none

/-- The character that stands for itself or for a control character after a backslash. -/
def shortEscape? (c : Char) : Option Char :=
  match c with
  | '"' => some '"'
  | '\\' => some '\\'
  | '/' => some '/'
  | 'b' => some '\x08'
  | 'f' => some '\x0c'
  | 'n' => some '\n'
  | 'r' => some '\r'
  | 't' => some '\t'
  | _ => none

/-- A character of a string literal, or half of a surrogate pair. -/
inductive Unit16 where
  | whole (c : Char)
  | half (code : Nat)
  deriving Repr, DecidableEq

def Unit16.ofCode (code : Nat) : Unit16 :=
  if 0xD800 ≤ code && code < 0xE000 then .half code else .whole (Char.ofNat code)

/-- The units of a string literal up to its closing quote; a bare control character ends the reading. -/
def readUnits : Nat → List Char → Option (List Unit16 × List Char)
  | 0, _ => none
  | fuel + 1, text =>
      match text with
      | [] => none
      | '"' :: rest => some ([], rest)
      | '\\' :: 'u' :: rest => do
          let (code, rest) ← readHex4 rest
          let (units, rest) ← readUnits fuel rest
          return (Unit16.ofCode code :: units, rest)
      | '\\' :: c :: rest => do
          let c ← shortEscape? c
          let (units, rest) ← readUnits fuel rest
          return (.whole c :: units, rest)
      | c :: rest =>
          if c = '\\' ∨ c.toNat < 32 then none
          else do
            let (units, rest) ← readUnits fuel rest
            return (.whole c :: units, rest)

/-- The characters of a literal, when every high half is followed by a low one and no low one is alone. -/
def joinUnits : List Unit16 → Option (List Char)
  | [] => some []
  | .whole c :: rest => (joinUnits rest).map (c :: ·)
  | .half high :: .half low :: rest =>
      if high < 0xDC00 ∧ 0xDC00 ≤ low then
        (joinUnits rest).map (Char.ofNat (0x10000 + (high - 0xD800) * 0x400 + (low - 0xDC00)) :: ·)
      else none
  | .half _ :: _ => none

def readString (text : List Char) : Option (Json × List Char) := do
  let (units, rest) ← readUnits (text.length + 1) text
  match joinUnits units with
  | some chars => return (.str (String.ofList chars), rest)
  | none => return (.illText, rest)

/-- A natural number's digits: no zero before another digit. -/
def readDigits (text : List Char) : Option (List Char × List Char) :=
  let digits := text.takeWhile Char.isDigit
  match digits with
  | [] => none
  | ['0'] => some (digits, text.dropWhile Char.isDigit)
  | '0' :: _ => none
  | _ => some (digits, text.dropWhile Char.isDigit)

def readFraction (text : List Char) : Option (List Char × List Char) :=
  match text with
  | '.' :: rest =>
      let digits := rest.takeWhile Char.isDigit
      if digits.isEmpty then none else some ('.' :: digits, rest.dropWhile Char.isDigit)
  | _ => some ([], text)

def readExponent (text : List Char) : Option (List Char × List Char) :=
  match text with
  | [] => some ([], [])
  | mark :: rest =>
      if mark = 'e' ∨ mark = 'E' then
        let (sign, rest) := match rest with
          | '+' :: rest => (['+'], rest)
          | '-' :: rest => (['-'], rest)
          | _ => ([], rest)
        let digits := rest.takeWhile Char.isDigit
        if digits.isEmpty then none
        else some (mark :: sign ++ digits, rest.dropWhile Char.isDigit)
      else some ([], text)

/-- A number. Only plain digits are a natural one. -/
def readNumber (text : List Char) : Option (Json × List Char) := do
  let (sign, rest) := match text with
    | '-' :: rest => (['-'], rest)
    | _ => ([], text)
  let (digits, rest) ← readDigits rest
  let (fraction, rest) ← readFraction rest
  let (exponent, rest) ← readExponent rest
  if sign.isEmpty && fraction.isEmpty && exponent.isEmpty then return (.natural (Decimal.value digits), rest)
  else return (.number (String.ofList (sign ++ digits ++ fraction ++ exponent)), rest)

/-- The object of some fields; one with a name that no text can hold is ill as a whole. -/
def ofFields (fields : List (Option String × Json)) : Json :=
  match fields.mapM fun (name, value) => name.map fun name => (name, value) with
  | some fields => .obj fields
  | none => .illText

def afterWord? : List Char → List Char → Option (List Char)
  | [], text => some text
  | _ :: _, [] => none
  | c :: word, d :: text => if c = d then afterWord? word text else none

mutual

/-- A value after white space. -/
def readValue : Nat → List Char → Option (Json × List Char)
  | 0, _ => none
  | fuel + 1, text =>
      match skipSpace text with
      | [] => none
      | 'n' :: rest => (afterWord? "ull".toList rest).map fun rest => (.null, rest)
      | 't' :: rest => (afterWord? "rue".toList rest).map fun rest => (.bool true, rest)
      | 'f' :: rest => (afterWord? "alse".toList rest).map fun rest => (.bool false, rest)
      | '"' :: rest => readString rest
      | '[' :: rest =>
          match skipSpace rest with
          | ']' :: rest => some (.arr [], rest)
          | rest => (readItems fuel rest).map fun (items, rest) => (.arr items, rest)
      | '\x7b' :: rest =>
          match skipSpace rest with
          | '\x7d' :: rest => some (.obj [], rest)
          | rest => (readFields fuel rest).map fun (fields, rest) => (ofFields fields, rest)
      | rest => readNumber rest

/-- One item or more, up to the closing bracket. -/
def readItems : Nat → List Char → Option (List Json × List Char)
  | 0, _ => none
  | fuel + 1, text => do
      let (item, rest) ← readValue fuel text
      match skipSpace rest with
      | ']' :: rest => return ([item], rest)
      | ',' :: rest =>
          let (items, rest) ← readItems fuel rest
          return (item :: items, rest)
      | _ => none

/-- One field or more, up to the closing brace. -/
def readFields : Nat → List Char → Option (List (Option String × Json) × List Char)
  | 0, _ => none
  | fuel + 1, text => do
      let '"' :: rest := skipSpace text | none
      let (name, rest) ← readString rest
      let ':' :: rest := skipSpace rest | none
      let (value, rest) ← readValue fuel rest
      match skipSpace rest with
      | '\x7d' :: rest => return ([(name.text?, value)], rest)
      | ',' :: rest =>
          let (fields, rest) ← readFields fuel rest
          return ((name.text?, value) :: fields, rest)
      | _ => none

end

/-- The value that a text is, with nothing but white space around it. Every level and every item takes
a character at least, so twice the length is steps enough. -/
def parse? (text : String) : Option Json := do
  let chars := text.toList
  let (value, rest) ← readValue (2 * chars.length + 2) chars
  if (skipSpace rest).isEmpty then some value else none

end SourceAtlas.Json
