import SourceAtlas.Text.CaseTables
/-!
Full lower-casing of text by the Unicode standard. Only two characters need more than the simple
mapping: capital I with a dot becomes two characters, and a capital sigma at the end of a word takes
its final form.
-/

namespace SourceAtlas.Lowercase

open CaseTables

def inRanges (ranges : List (Nat × Nat)) (c : Char) : Bool :=
  ranges.any fun range => range.1 ≤ c.toNat && c.toNat ≤ range.2

def isCased (c : Char) : Bool := inRanges casedRanges c

def isIgnorable (c : Char) : Bool := inRanges ignorableRanges c

def simple (c : Char) : Char :=
  match lowerRuns.find? fun run => run.first ≤ c.toNat && c.toNat ≤ run.last &&
      (c.toNat - run.first) % run.stride == 0 with
  | some run => Char.ofNat (Int.toNat (c.toNat + run.offset))
  | none => c

/-- The first character that casing rules do not look past is a letter with case. -/
def meetsLetter (text : List Char) : Bool :=
  match text.dropWhile isIgnorable with
  | [] => false
  | c :: _ => isCased c

/-- The lower-case form of `c` after the characters `before` (nearest first) and before `after`. -/
def lowerAt (before after : List Char) (c : Char) : List Char :=
  if c = 'Σ' then
    if meetsLetter before && !meetsLetter after then ['ς'] else ['σ']
  else if c = 'İ' then ['i', '\u0307']
  else [simple c]

def lowerFrom (before : List Char) : List Char → List Char
  | [] => []
  | c :: after => lowerAt before after c ++ lowerFrom (c :: before) after

def lower (text : String) : String := String.ofList (lowerFrom [] text.toList)

end SourceAtlas.Lowercase
