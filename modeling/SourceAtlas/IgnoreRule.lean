import SourceAtlas.Glob
import SourceAtlas.Text.Blank
/-!
Ignore rules: lines that name paths to leave out, or with an exclamation mark to keep. Of the rules
that match a path the last one decides.
-/

namespace SourceAtlas

/-- One rule. A rule that `keeps` takes a path back in. -/
structure IgnoreRule where
  glob : Glob
  keeps : Bool
  dirsOnly : Bool

inductive Verdict where
  | undecided
  | ignored
  | kept
  deriving Repr, DecidableEq

namespace Verdict

def orElse : Verdict → Verdict → Verdict
  | undecided, other => other
  | verdict, _ => verdict

end Verdict

namespace IgnoreRule

/-- A line without the white space at its end, unless a backslash holds the last space. -/
def trimLine (line : List Char) : List Char :=
  match line.reverse with
  | ' ' :: '\\' :: _ => line
  | _ => Blank.trimRight line

def endsInBelow (text : List Char) : Bool :=
  match text.reverse with
  | '*' :: '*' :: '/' :: _ => true
  | _ => false

def beginsInDirs : List Char → Bool
  | ['*', '*'] => true
  | '*' :: '*' :: '/' :: _ => true
  | _ => false

/-- The text without the slash at its end, and whether there was one. -/
def dirsOnlyOf (text : List Char) : List Char × Bool :=
  match text.reverse with
  | '/' :: '\\' :: rest => (rest.reverse, true)
  | '/' :: rest => (rest.reverse, true)
  | _ => (text, false)

/-- The glob's text for a rule. A rule without a slash matches at every depth, and one for all that
is below a directory does not match the directory. -/
def globText (anchored : Bool) (text : List Char) : List Char :=
  let text := if !anchored && !text.contains '/' && !beginsInDirs text then "**/".toList ++ text else text
  if endsInBelow text then text ++ ['/', '*'] else text

/-- The mark, the anchor and the text of a trimmed line. -/
def splitLine : List Char → Bool × Bool × List Char
  | '\\' :: '!' :: rest => (false, false, '!' :: rest)
  | '\\' :: '#' :: rest => (false, false, '#' :: rest)
  | '!' :: '/' :: rest => (true, true, rest)
  | '!' :: rest => (true, false, rest)
  | '/' :: rest => (false, true, rest)
  | text => (false, false, text)

/-- A line that is no rule: its trimmed text and what is wrong with it. -/
structure BadLine where
  text : String
  fault : GlobFault
  deriving Repr, DecidableEq

def BadLine.message (bad : BadLine) : String :=
  "error parsing glob '" ++ bad.text ++ "': " ++ bad.fault.message

/-- The rule on a line; comments and blank lines hold none. -/
def ofLine? (lenient : Bool) (line : String) : Except BadLine (Option IgnoreRule) :=
  let trimmed := trimLine line.toList
  match line.toList, trimmed with
  | '#' :: _, _ => .ok none
  | _, [] => .ok none
  | _, _ =>
      let (keeps, anchored, text) := splitLine trimmed
      let (text, dirsOnly) := dirsOnlyOf text
      match Glob.read lenient (globText anchored text) with
      | .ok glob => .ok (some { glob, keeps, dirsOnly })
      | .error fault => .error { text := String.ofList trimmed, fault }

def accepts (rule : IgnoreRule) (path : String) (isDir : Bool) : Bool :=
  (isDir || !rule.dirsOnly) && rule.glob.accepts path

def verdict (rule : IgnoreRule) : Verdict := if rule.keeps then .kept else .ignored

end IgnoreRule

abbrev IgnoreRules := List IgnoreRule

namespace IgnoreRules

/-- What the last matching rule says. -/
def verdict (rules : IgnoreRules) (path : String) (isDir : Bool) : Verdict :=
  match (rules.reverse.find? fun rule => rule.accepts path isDir) with
  | some rule => rule.verdict
  | none => .undecided

end IgnoreRules

end SourceAtlas
