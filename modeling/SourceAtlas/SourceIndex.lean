import SourceAtlas.Fingerprint
import SourceAtlas.IgnoreFile
import SourceAtlas.Language
/-!
Finding the source files of a project. A file is found when a language claims it, it is readable text
within the size limit, and neither it nor a directory on the way to it is ignored.
-/

namespace SourceAtlas

/-- A source file as it was found: its slash-separated path below the project, where it stands, the
tag of its language, and the fingerprint and the line count of its text. -/
structure SourceFile where
  path : String
  location : Path
  language : String
  hash : String
  lineCount : Nat
  deriving Repr, DecidableEq

/-- The number of lines; a line break at the end begins no line. -/
def lineCount (text : String) : Nat :=
  let breaks := text.toList.count '\n'
  match text.toList.getLast? with
  | none => 0
  | some c => if c = '\n' then breaks else breaks + 1

def FileHashes.ofSources (sources : List SourceFile) : FileHashes :=
  sources.foldl (fun hashes source => hashes.insert source.path source.hash) ∅

/-- What is looked for: languages, a size limit in bytes, and the ignore patterns of a project. -/
structure SourceIndex where
  languages : LanguageSet
  maxFileSize : Nat
  ignorePatterns : List String

namespace SourceIndex

variable (index : SourceIndex)

/-- A project's patterns as rules. The mark before each makes comment signs and empty patterns count,
and a path that a rule keeps is one to ignore. -/
def rules : List String → Except Fault IgnoreRules
  | [] => .ok []
  | pattern :: patterns =>
      match IgnoreRule.ofLine? false ("!" ++ pattern) with
      | .error bad => .error (.badIgnorePattern pattern bad)
      | .ok rule => do return rule.toList ++ (← rules patterns)

/-- Whether the place `names` below `base` is left out on its own account. -/
def ignores (tree : FileTree) (rules : IgnoreRules) (base names : Place) (isDir : Bool) : Bool :=
  match rules.verdict (String.intercalate "/" names) isDir with
  | .kept => true
  | .ignored => false
  | .undecided => tree.ignoreVerdict (base ++ names) isDir == .ignored

/-- Neither the file `names` below `base` nor a directory on the way to it is left out. -/
def reaches (tree : FileTree) (rules : IgnoreRules) (base names : Place) : Bool :=
  (List.range names.length).all fun above =>
    !ignores tree rules base (names.take (above + 1)) (above + 1 != names.length)

/-- The files below the directory or file `dir` that are not left out, each with its path. -/
def reachable (tree : FileTree) (dir : Path) (base : Place) (rules : IgnoreRules) :
    List (Path × ByteArray) :=
  match tree.find? base with
  | some (.file content) => [(dir, content)]
  | _ => (tree.below base).filterMap fun (names, entry) =>
      match entry with
      | .dir => none
      | .file content =>
          if reaches tree rules base names then
            some (dir.join ⟨String.intercalate "/" names⟩, content)
          else none

/-- The source file at a path, when a language claims it and it is text within the limit. -/
def sourceFile? (root path : Path) (content : ByteArray) : Option SourceFile := do
  let language ← index.languages.detect? path
  let text ← String.fromUTF8? content
  if index.maxFileSize < content.size then none
  else some {
    path := Path.relativeTo root path
    location := path
    language := language.tag
    hash := Fingerprint.ofText text
    lineCount := lineCount text }

def inDir (tree : FileTree) (root dir : Path) : Except Fault (List SourceFile) :=
  match tree.place? dir with
  | none => .ok []
  | some base => do
      let rules ← rules index.ignorePatterns
      match tree.badIgnoreLinesAbove base with
      | [] => return (reachable tree dir base rules).filterMap fun (path, content) =>
          index.sourceFile? root path content
      | bad => throw (.badIgnoreFiles bad)

/-- Source files by path; of several with one path the first found stays. -/
def arrange (sources : List SourceFile) : List SourceFile :=
  (sources.mergeSort fun left right => left.path ≤ right.path).eraseDupsBy fun left right =>
    left.path == right.path

/-- The source files below some directories of the project at `root`, by path. -/
def find (tree : FileTree) (root : Path) (dirs : List Path) : Except Fault (List SourceFile) := do
  return arrange (← dirs.mapM fun dir => index.inDir tree root (root.join dir)).flatten

end SourceIndex

end SourceAtlas
