import SourceAtlas.Extraction
import SourceAtlas.FileTree
/-!
Reading a source file for analysis. A file that cannot be read or parsed has an empty analysis.
-/

namespace SourceAtlas

/-- A parser answers the syntax tree of a text in a language. -/
abbrev Parser := Language → String → SyntaxTree

structure ParsedFile where
  language : Language
  source : Source

namespace ParsedFile

/-- The file at a path, when one of the languages claims it and it is text within the size limit. -/
def read? (languages : LanguageSet) (limit : Nat) (parse : Parser) (tree : FileTree) (path : Path) :
    Option ParsedFile := do
  let language ← languages.detect? path
  match tree.readText path with
  | .error _ => none
  | .ok text =>
      if limit < text.utf8ByteSize then none
      else some { language, source := { bytes := text.toUTF8, tree := parse language text } }

def analyze (file : ParsedFile) (noise : NoiseWords) : FileAnalysis :=
  file.source.analyze file.language noise

end ParsedFile

end SourceAtlas
