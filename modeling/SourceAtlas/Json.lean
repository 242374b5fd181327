import SourceAtlas.Text.Decimal
import SourceAtlas.Text.Hex
/-!
JSON values with their fields in order, and their two written forms: `compact` on one line, `pretty`
with two spaces for each level.
-/

namespace SourceAtlas

/-- A JSON value. Numbers other than natural ones keep their text, and `illText` is a string literal
that names half of a surrogate pair, which no text can hold, or an object with a field of such a name. -/
inductive Json where
  | null
  | bool (value : Bool)
  | natural (value : Nat)
  | number (text : String)
  | str (text : String)
  | illText
  | arr (items : List Json)
  | obj (fields : List (String × Json))
  deriving Repr, BEq

namespace Json

def field? (json : Json) (name : String) : Option Json :=
  match json with
  | obj fields => fields.lookup name
  | _ => none

def text? : Json → Option String
  | str text => some text
  | _ => none

def natural? : Json → Option Nat
  | natural value => some value
  | _ => none

def texts (items : List String) : Json := arr (items.map str)

def escapeChar (c : Char) : List Char :=
  if c = '"' then ['\\', '"']
  else if c = '\\' then ['\\', '\\']
  else if c = '\x08' then ['\\', 'b']
  else if c = '\x0c' then ['\\', 'f']
  else if c = '\n' then ['\\', 'n']
  else if c = '\r' then ['\\', 'r']
  else if c = '\t' then ['\\', 't']
  else if c.toNat < 32 then
    ['\\', 'u', '0', '0', Hex.digit (c.toNat / 16), Hex.digit (c.toNat % 16)]
  else [c]

def quote (text : String) : List Char := '"' :: text.toList.flatMap escapeChar ++ ['"']

def scalar : Json → List Char
  | null => "null".toList
  | bool true => "true".toList
  | bool false => "false".toList
  | natural value => Decimal.digits value
  | number text => text.toList
  | str text => quote text
  | illText => "\"\"".toList
  | arr _ => []
  | obj _ => []

mutual

/-- A value on one line, without spaces. -/
def compact : Json → List Char
  | arr items => '[' :: compactItems items ++ [']']
  | obj fields => '\x7b' :: compactFields fields ++ ['\x7d']
  | other => scalar other

def compactItems : List Json → List Char
  | [] => []
  | [item] => compact item
  | item :: rest => compact item ++ ',' :: compactItems rest

def compactFields : List (String × Json) → List Char
  | [] => []
  | [(key, value)] => quote key ++ ':' :: compact value
  | (key, value) :: rest => quote key ++ ':' :: compact value ++ ',' :: compactFields rest

end

/-- A line break and the indentation of a level. -/
def newLine (level : Nat) : List Char := '\n' :: List.replicate (2 * level) ' '

mutual

/-- A value at a level, each item and field on a line of its own. -/
def pretty (level : Nat) : Json → List Char
  | arr [] => ['[', ']']
  | arr (item :: rest) =>
      '[' :: newLine (level + 1) ++ pretty (level + 1) item ++ prettyItems level rest ++
        newLine level ++ [']']
  | obj [] => ['\x7b', '\x7d']
  | obj ((key, value) :: rest) =>
      '\x7b' :: newLine (level + 1) ++ quote key ++ [':', ' '] ++ pretty (level + 1) value ++
        prettyFields level rest ++ newLine level ++ ['\x7d']
  | other => scalar other

/-- The items after the first, each behind a comma. -/
def prettyItems (level : Nat) : List Json → List Char
  | [] => []
  | item :: rest =>
      ',' :: newLine (level + 1) ++ pretty (level + 1) item ++ prettyItems level rest

/-- The fields after the first, each behind a comma. -/
def prettyFields (level : Nat) : List (String × Json) → List Char
  | [] => []
  | (key, value) :: rest =>
      ',' :: newLine (level + 1) ++ quote key ++ [':', ' '] ++ pretty (level + 1) value ++
        prettyFields level rest

end

def toCompact (json : Json) : String := String.ofList (compact json)

def toPretty (json : Json) : String := String.ofList (pretty 0 json)

end Json

end SourceAtlas
