import SourceAtlas.Fault
import SourceAtlas.Noise
/-!
The settings of a project, and which of them make sense.
-/

namespace SourceAtlas

/-- What a project is called, where its sources and its pages are, and what is left out. -/
structure ProjectConfig where
  name : String := "Unnamed Project"
  sourceDirs : List Path := [⟨"src"⟩]
  ignorePatterns : List String := ["target/", "node_modules/", ".git/", "*.tmp"]
  docsDir : Path := ⟨"docs"⟩

structure ParsingConfig where
  languages : List String := ["rust", "java", "python", "csharp", "javascript"]
  maxFileSize : Nat := 1048576

/-- How pages are made: how many at a time, where the manifest is kept, and with which templates. -/
structure GenerationConfig where
  maxConcurrency : Nat := 4
  manifestFile : Path := ⟨".docwright-manifest.json"⟩
  templateDir : Option Path := none

structure GraphConfig where
  maxNodes : Nat := 40
  labelBudget : Nat := 30

structure Config where
  project : ProjectConfig := {}
  parsing : ParsingConfig := {}
  generation : GenerationConfig := {}
  graph : GraphConfig := {}
  noise : NoiseSettings := {}

namespace Config

def manifestPath (config : Config) : Path := config.project.docsDir.join config.generation.manifestFile

/-- Pages are made one at a time at least, from one directory at least. -/
def validate (config : Config) : Except Fault Config :=
  if config.generation.maxConcurrency = 0 then .error .noWorkers
  else if config.project.sourceDirs.isEmpty then .error .noSourceDirs
  else .ok config

end Config

end SourceAtlas
