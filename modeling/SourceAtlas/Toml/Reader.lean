import SourceAtlas.Toml.Scalar
/-!
Reading TOML documents. Every function takes the characters that are left and answers what it has read
with the characters after it.
-/

namespace SourceAtlas.Toml

def isSpace (c : Char) : Bool := c == ' ' || c == '\t'

def skipSpaces (text : List Char) : List Char := text.dropWhile isSpace

def isPrintable (c : Char) : Bool := c == '\t' || (32 ≤ c.toNat && c.toNat != 127)

/-- Skips white space, line breaks and comments. -/
def skipBlank? (inComment : Bool) : List Char → Option (List Char)
  | [] => some []
  | '\n' :: rest => skipBlank? false rest
  | '\r' :: '\n' :: rest => skipBlank? false rest
  | c :: rest =>
      if inComment then if isPrintable c then skipBlank? true rest else none
      else if isSpace c then skipBlank? false rest
      else if c = '#' then skipBlank? true rest
      else some (c :: rest)

def shortEscape? (c : Char) : Option Char :=
  match c with
  | '"' => some '"'
  | '\\' => some '\\'
  | 'b' => some '\x08'
  | 'f' => some '\x0c'
  | 'n' => some '\n'
  | 'r' => some '\r'
  | 't' => some '\t'
  | _ => none

/-- The character of a code point, which must be no surrogate. -/
def charOf? (digits : List Char) : Option Char := do
  let code ← Hex.number? digits
  if Nat.isValidChar code then some (Char.ofNat code) else none

def readBasic? : List Char → Option (List Char × List Char)
  | [] => none
  | '"' :: rest => some ([], rest)
  | '\\' :: 'u' :: a :: b :: c :: d :: rest => do
      let c ← charOf? [a, b, c, d]
      let (chars, rest) ← readBasic? rest
      return (c :: chars, rest)
  | '\\' :: 'U' :: a :: b :: c :: d :: e :: f :: g :: h :: rest => do
      let c ← charOf? [a, b, c, d, e, f, g, h]
      let (chars, rest) ← readBasic? rest
      return (c :: chars, rest)
  | '\\' :: c :: rest => do
      let c ← shortEscape? c
      let (chars, rest) ← readBasic? rest
      return (c :: chars, rest)
  | c :: rest =>
      if isPrintable c && c != '\\' then (readBasic? rest).map fun (chars, rest) => (c :: chars, rest)
      else none

def readLiteral? : List Char → Option (List Char × List Char)
  | [] => none
  | '\'' :: rest => some ([], rest)
  | c :: rest =>
      if isPrintable c then (readLiteral? rest).map fun (chars, rest) => (c :: chars, rest) else none

def endsLine (text : List Char) : Bool :=
  match skipSpaces text with
  | '\n' :: _ => true
  | '\r' :: '\n' :: _ => true
  | _ => false

/-- A string in three double quotes, after them. A backslash at the end of a line takes away all
white space up to the next character; `skipping` tells that it does. -/
def readLongBasic? (skipping : Bool) : List Char → Option (List Char × List Char)
  | [] => none
  | '"' :: '"' :: '"' :: '"' :: '"' :: rest => some (['"', '"'], rest)
  | '"' :: '"' :: '"' :: '"' :: rest => some (['"'], rest)
  | '"' :: '"' :: '"' :: rest => some ([], rest)
  | '\n' :: rest =>
      if skipping then readLongBasic? true rest
      else (readLongBasic? false rest).map fun (chars, rest) => ('\n' :: chars, rest)
  | '\r' :: '\n' :: rest =>
      if skipping then readLongBasic? true rest
      else (readLongBasic? false rest).map fun (chars, rest) => ('\n' :: chars, rest)
  | '\\' :: 'u' :: a :: b :: c :: d :: rest => do
      let c ← charOf? [a, b, c, d]
      let (chars, rest) ← readLongBasic? false rest
      return (c :: chars, rest)
  | '\\' :: 'U' :: a :: b :: c :: d :: e :: f :: g :: h :: rest => do
      let c ← charOf? [a, b, c, d, e, f, g, h]
      let (chars, rest) ← readLongBasic? false rest
      return (c :: chars, rest)
  | '\\' :: c :: rest =>
      if endsLine (c :: rest) then readLongBasic? true (c :: rest)
      else do
        let c ← shortEscape? c
        let (chars, rest) ← readLongBasic? false rest
        return (c :: chars, rest)
  | c :: rest =>
      if skipping && isSpace c then readLongBasic? true rest
      else if isPrintable c && c != '\\' then
        (readLongBasic? false rest).map fun (chars, rest) => (c :: chars, rest)
      else none

def readLongLiteral? : List Char → Option (List Char × List Char)
  | [] => none
  | '\'' :: '\'' :: '\'' :: '\'' :: '\'' :: rest => some (['\'', '\''], rest)
  | '\'' :: '\'' :: '\'' :: '\'' :: rest => some (['\''], rest)
  | '\'' :: '\'' :: '\'' :: rest => some ([], rest)
  | '\n' :: rest => (readLongLiteral? rest).map fun (chars, rest) => ('\n' :: chars, rest)
  | '\r' :: '\n' :: rest => (readLongLiteral? rest).map fun (chars, rest) => ('\n' :: chars, rest)
  | c :: rest =>
      if isPrintable c then (readLongLiteral? rest).map fun (chars, rest) => (c :: chars, rest)
      else none

/-- The line break at the start of a string in triple quotes does not count. -/
def dropBreak : List Char → List Char
  | '\n' :: rest => rest
  | '\r' :: '\n' :: rest => rest
  | text => text

def isBare (c : Char) : Bool := c.isAlphanum || c == '_' || c == '-'

/-- One part of a dotted key. -/
def readPart? (text : List Char) : Option (String × List Char) :=
  match text with
  | '"' :: rest => (readBasic? rest).map fun (chars, rest) => (String.ofList chars, rest)
  | '\'' :: rest => (readLiteral? rest).map fun (chars, rest) => (String.ofList chars, rest)
  | _ =>
      let bare := text.takeWhile isBare
      if bare.isEmpty then none else some (String.ofList bare, text.dropWhile isBare)

/-- A dotted key with white space around its parts: the parts before the last one, and that. -/
def readKey? : Nat → List Char → Option (List String × String × List Char)
  | 0, _ => none
  | fuel + 1, text => do
      let (part, rest) ← readPart? (skipSpaces text)
      match skipSpaces rest with
      | '.' :: rest =>
          let (path, key, rest) ← readKey? fuel rest
          return (part :: path, key, rest)
      | rest => return ([], part, rest)

def endsWord (c : Char) : Bool := isSpace c || c == '\n' || c == '\r' || c == ',' || c == ']' ||
  c == '\x7d' || c == '#'

/-- A value that is one word; a date may have its time after a space. -/
def readScalar? (text : List Char) : Option (Toml × List Char) :=
  let word := text.takeWhile (!endsWord ·)
  let rest := text.dropWhile (!endsWord ·)
  match rest with
  | ' ' :: a :: b :: ':' :: more =>
      if isDate word && a.isDigit && b.isDigit then
        let time := (a :: b :: ':' :: more).takeWhile (!endsWord ·)
        if isTime true time then some (.other, rest.drop (time.length + 1)) else none
      else (scalar? word).map fun value => (value, rest)
  | _ => (scalar? word).map fun value => (value, rest)

def readItems? (read : List Char → Option (Toml × List Char)) :
    Nat → List Char → Option (List Toml × List Char)
  | 0, _ => none
  | fuel + 1, text => do
      match ← skipBlank? false text with
      | ']' :: rest => return ([], rest)
      | text =>
          let (item, rest) ← read text
          match ← skipBlank? false rest with
          | ']' :: rest => return ([item], rest)
          | ',' :: rest =>
              let (items, rest) ← readItems? read fuel rest
              return (item :: items, rest)
          | _ => none

def readPair? (read : List Char → Option (Toml × List Char)) (text : List Char) :
    Option (List String × String × Toml × List Char) := do
  let (path, key, rest) ← readKey? (text.length + 1) text
  match rest with
  | '=' :: rest =>
      let (value, rest) ← read (skipSpaces rest)
      return (path, key, value, rest)
  | _ => none

/-- The pairs of a table in braces, one at least. -/
def readPairs? (read : List Char → Option (Toml × List Char)) :
    Nat → Fields → List Char → Option (Fields × List Char)
  | 0, _, _ => none
  | fuel + 1, fields, text => do
      let (path, key, value, rest) ← readPair? read text
      let fields ← insertAt? path key value .declared fields
      match skipSpaces rest with
      | '\x7d' :: rest => return (fields, rest)
      | ',' :: rest => readPairs? read fuel fields rest
      | _ => none

/-- A value with at most so many levels of arrays and tables in it. -/
def readValue? : Nat → List Char → Option (Toml × List Char)
  | _, '"' :: '"' :: '"' :: rest =>
      (readLongBasic? false (dropBreak rest)).map fun (chars, rest) => (.str (String.ofList chars), rest)
  | _, '"' :: rest =>
      (readBasic? rest).map fun (chars, rest) => (.str (String.ofList chars), rest)
  | _, '\'' :: '\'' :: '\'' :: rest =>
      (readLongLiteral? (dropBreak rest)).map fun (chars, rest) => (.str (String.ofList chars), rest)
  | _, '\'' :: rest =>
      (readLiteral? rest).map fun (chars, rest) => (.str (String.ofList chars), rest)
  | depth + 1, '[' :: rest =>
      (readItems? (readValue? depth) (rest.length + 1) rest).map fun (items, rest) => (.array items, rest)
  | depth + 1, '\x7b' :: rest =>
      match skipSpaces rest with
      | '\x7d' :: rest => some (.inline [], rest)
      | rest =>
          (readPairs? (readValue? depth) (rest.length + 1) [] rest).map fun (fields, rest) =>
            (.inline fields, rest)
  | _, text => readScalar? text

/-- How many levels of arrays and tables in braces a value may have. -/
def depthLimit : Nat := 79

/-- What follows the white space at the end of a line; a comment is left for the next line. -/
def endLine? (text : List Char) : Option (List Char) :=
  match skipSpaces text with
  | [] => some []
  | '\n' :: rest => some rest
  | '\r' :: '\n' :: rest => some rest
  | '#' :: rest => some ('#' :: rest)
  | _ => none

/-- Reads on line by line in the table of a header. -/
def readLines? : Nat → List String → Fields → List Char → Option Fields
  | 0, _, _, _ => none
  | fuel + 1, header, fields, text => do
      match ← skipBlank? false text with
      | [] => return fields
      | '[' :: '[' :: rest =>
          let (path, key, rest) ← readKey? (rest.length + 1) rest
          let ']' :: ']' :: rest := rest | none
          readLines? fuel (path ++ [key]) (← declareNext? path key fields) (← endLine? rest)
      | '[' :: rest =>
          let (path, key, rest) ← readKey? (rest.length + 1) rest
          let ']' :: rest := rest | none
          readLines? fuel (path ++ [key]) (← declare? path key fields) (← endLine? rest)
      | text =>
          let (path, key, value, rest) ← readPair? (readValue? depthLimit) text
          readLines? fuel header (← insertUnder? header path key value fields) (← endLine? rest)

/-- The table that a text is. Every line takes a character at least. -/
def ofText? (text : String) : Option Toml :=
  let chars := match text.toList with
    | '\uFEFF' :: rest => rest
    | chars => chars
  (readLines? (chars.length + 1) [] [] chars).map (.table .declared)

end SourceAtlas.Toml
