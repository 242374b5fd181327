import SourceAtlas.Path
import SourceAtlas.Template
/-!
Reading a template that is made of text and of values in double braces. What stands between other
template braces is not read.
-/

namespace SourceAtlas.Template

def isNameStart (c : Char) : Bool := c.isAlpha || c == '_'

def isNameChar (c : Char) : Bool := c.isAlphanum || c == '_'

def isTagSpace (c : Char) : Bool := c == ' ' || c == '\t' || c == '\n' || c == '\r'

def trimTag (text : List Char) : List Char :=
  ((text.dropWhile isTagSpace).reverse.dropWhile isTagSpace).reverse

def reference? (text : List Char) : Option Reference :=
  match splitAtChar '.' text with
  | [] => none
  | name :: steps =>
      if name.head?.any isNameStart && name.all isNameChar &&
          steps.all fun step => !step.isEmpty && step.all isNameChar then
        some { name := String.ofList name, steps := steps.map String.ofList }
      else none

/-- Text as a part, when there is any. -/
def literalPart (literal : List Char) : Template :=
  if literal.isEmpty then [] else [.text (String.ofList literal)]

mutual

/-- Reads on in text, of which `literal` has been read, latest character first. -/
def readText? (literal : List Char) : List Char → Option Template
  | [] => some (literalPart literal.reverse)
  | '\x7b' :: '\x7b' :: rest => do
      return literalPart literal.reverse ++ (← readValue? [] rest)
  | '\x7b' :: '%' :: _ => none
  | '\x7b' :: '#' :: _ => none
  | c :: rest => readText? (c :: literal) rest

/-- Reads on between double braces, of which `tag` has been read, latest character first. -/
def readValue? (tag : List Char) : List Char → Option Template
  | [] => none
  | '\x7d' :: '\x7d' :: rest => do
      let reference ← reference? (trimTag tag.reverse)
      return .value reference :: (← readText? [] rest)
  | c :: rest => readValue? (c :: tag) rest

end

def read? (text : String) : Option Template := readText? [] text.toList

end SourceAtlas.Template
