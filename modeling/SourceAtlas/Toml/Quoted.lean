import SourceAtlas.Toml.Reader
/-!
The written form of TOML strings and keys: the plainest quotes that need no escapes, and escapes in
double quotes where there are none.
-/

namespace SourceAtlas.Toml

/-- The longest run of a character in a text; `run` is the length of the run just before it. -/
def longestRun (c : Char) (run : Nat) : List Char → Nat
  | [] => run
  | first :: rest => if first = c then longestRun c (run + 1) rest else max run (longestRun c 0 rest)

/-- A character that no quotes can hold without an escape. -/
def needsEscape (c : Char) : Bool := !isPrintable c && c != '\n'

def codeEscape (c : Char) : List Char :=
  let digit (n : Nat) : Char := (Hex.digit (n % 16)).toUpper
  let n := c.toNat
  ['\\', 'u', digit (n / 4096), digit (n / 256), digit (n / 16), digit n]

/-- A character in double quotes. Inside triple quotes a line break stands for itself, and so do two
quotes in a row: `quotes` is the number just before the character. -/
def escaped (long : Bool) (quotes : Nat) (c : Char) : List Char :=
  if c = '"' then if long && quotes < 2 then ['"'] else ['\\', '"']
  else if c = '\\' then ['\\', '\\']
  else if c = '\x08' then ['\\', 'b']
  else if c = '\t' then ['\\', 't']
  else if c = '\n' then if long then ['\n'] else ['\\', 'n']
  else if c = '\x0c' then ['\\', 'f']
  else if c = '\r' then ['\\', 'r']
  else if needsEscape c then codeEscape c
  else [c]

def escapeAll (long : Bool) (quotes : Nat) : List Char → List Char
  | [] => []
  | c :: rest =>
      let next := if c = '"' && long && quotes < 2 then quotes + 1 else 0
      escaped long quotes c ++ escapeAll long next rest

/-- A text between three quotes; one with several lines starts on a line of its own. -/
def long (quote : Char) (text body : List Char) : List Char :=
  let mark := [quote, quote, quote]
  mark ++ (if text.contains '\n' then ['\n'] else []) ++ body ++ mark

def basic (text : List Char) : List Char := '"' :: escapeAll false 0 text ++ ['"']

def literal (text : List Char) : List Char := '\'' :: text ++ ['\'']

def quoted (value : String) : List Char :=
  let text := value.toList
  let plain := !text.any needsEscape
  let lines := text.contains '\n'
  let singles := longestRun '\'' 0 text
  let doubles := longestRun '"' 0 text
  let slashed := text.contains '\\'
  if plain && !slashed && doubles == 0 && !lines then basic text
  else if plain && singles == 0 && !lines then literal text
  else if plain && !slashed && doubles ≤ 2 then long '"' text (escapeAll true 0 text)
  else if plain && singles ≤ 2 then long '\'' text text
  else if lines then long '"' text (escapeAll true 0 text)
  else basic text

def quotedKey (key : String) : List Char :=
  let text := key.toList
  let plain := !text.any needsEscape && !text.contains '\n'
  if !text.isEmpty && text.all isBare then text
  else if plain && !text.contains '\\' && !text.contains '"' then basic text
  else if plain && !text.contains '\'' then literal text
  else basic text

/-- Strings as an array: one on its own line each, unless there are fewer than two. -/
def quotedArray (values : List String) : List Char :=
  match values with
  | [] => ['[', ']']
  | [value] => '[' :: quoted value ++ [']']
  | values =>
      '[' :: '\n' :: (values.flatMap fun value => "    ".toList ++ quoted value ++ [',', '\n']) ++ [']']

end SourceAtlas.Toml
